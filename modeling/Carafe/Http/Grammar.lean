import Carafe.Http.Path
import Carafe.Http.ResponseFormat

/-!
# The grammars of the two lines

What a line has to look like to be accepted, byte by byte and without the parsers' own
passes. Of a request line that is refused, the same grammar says which status the client
gets: first come the three fields, then the version, then the escapes and last the method.
-/

namespace Carafe.Http
open Search

/-- Two digits follow every percent sign. -/
def EscapesPaired (text : Bytes) : Prop :=
  ∀ front rest, text = front ++ percent :: rest →
    ∃ high low back, rest = high :: low :: back ∧ isHexDigit high = true ∧ isHexDigit low = true

/-- `HTTP/`, a digit, a dot and a digit. -/
def VersionShaped (version : Bytes) : Prop :=
  ∃ major minor, isDigit major = true ∧ isDigit minor = true ∧
    version = bytes "HTTP/" ++ [major, '.'.toUInt8, minor]

/-- A line of the grammar, with what it says. -/
structure Accepted (line : Bytes) (parsed : RequestLine) : Prop where
  cut : line = methodName parsed.method ++ sp :: (parsed.target ++ sp :: versionText parsed.version)
  nonempty : parsed.target ≠ []
  plain : ∀ ch ∈ parsed.target, ch ≠ sp ∧ Printable ch
  escapes : EscapesPaired parsed.target

/-- Another version of HTTP, whatever is asked for and how. -/
def Outdated (line : Bytes) : Prop :=
  ∃ method target version, ThreeFields line method target version ∧ VersionShaped version ∧
    ∀ known, version ≠ versionText known

/-- A request that can be read, but for what to do. -/
def Foreign (line : Bytes) : Prop :=
  ∃ method target version, ThreeFields line method target (versionText version) ∧
    EscapesPaired target ∧ ∀ known, method ≠ methodName known

theorem hexDigit_bare {ch : UInt8} (h : isHexDigit ch = true) : ch ≠ percent := by
  rintro rfl
  exact absurd h (by decide)

theorem EscapesPaired.tail {ch : UInt8} {rest : Bytes} (h : EscapesPaired (ch :: rest)) :
    EscapesPaired rest := by
  rintro front back rfl
  exact h (ch :: front) back rfl

theorem hasValidEscapes_iff {text : Bytes} :
    hasValidEscapes text = true ↔ EscapesPaired text := by
  fun_induction hasValidEscapes text with
  | case1 =>
    refine iff_of_true rfl ?_
    intro front rest hcut
    simp at hcut
  | case2 ch rest bare ih =>
    rw [ih]
    refine ⟨?_, EscapesPaired.tail⟩
    rintro h (_ | ⟨_, front⟩) back hcut
    · exact absurd (List.cons.inj hcut).1 bare
    · exact h front back (List.cons.inj hcut).2
  | case3 ch isPercent high low tail ih =>
    have isPercent : ch = percent := not_not.mp isPercent
    subst isPercent
    rw [Bool.and_eq_true, Bool.and_eq_true, ih]
    constructor
    · rintro ⟨⟨isHigh, isLow⟩, h⟩ front back hcut
      rcases escape_cut (hexDigit_bare isHigh) (hexDigit_bare isLow) hcut with
        ⟨-, -, rfl⟩ | ⟨front, rfl, hrest⟩
      · exact ⟨high, low, tail, rfl, isHigh, isLow⟩
      · exact h front back hrest
    · intro h
      obtain ⟨_, _, _, hcut, isHigh, isLow⟩ := h [] _ rfl
      cases hcut
      exact ⟨⟨isHigh, isLow⟩, h.tail.tail.tail⟩
  | case4 ch rest isPercent short =>
    have isPercent : ch = percent := not_not.mp isPercent
    subst isPercent
    refine iff_of_false (by simp) ?_
    intro h
    obtain ⟨high, low, back, rfl, -⟩ := h [] _ rfl
    exact short high low back rfl

theorem versionShaped_iff {token : Bytes} : VersionShaped token ↔
    ¬ (token.length ≠ 8 ∨ token.take 5 ≠ bytes "HTTP/" ∨ token[6]? ≠ some '.'.toUInt8 ∨
      token[5]?.any isDigit = false ∨ token[7]?.any isDigit = false) := by
  constructor
  · rintro ⟨major, minor, hmajor, hminor, rfl⟩
    simp [bytes, hmajor, hminor]
  · intro h
    simp only [not_or, not_not, Bool.not_eq_false] at h
    obtain ⟨hlength, hname, hdot, hmajor, hminor⟩ := h
    obtain ⟨major, dot, minor, hdrop⟩ : ∃ a b c, token.drop 5 = [a, b, c] :=
      List.length_eq_three.mp (by simp [hlength])
    have hcut : token = bytes "HTTP/" ++ [major, dot, minor] := by
      rw [← hname, ← hdrop, List.take_append_drop]
    subst hcut
    simp only [bytes] at hdot hmajor hminor
    refine ⟨major, minor, by simpa using hmajor, by simpa using hminor, ?_⟩
    simp only [bytes]
    simp_all

theorem parseVersion_unsupported_iff {token : Bytes} :
    parseVersion token = .error .unsupportedVersion ↔
      VersionShaped token ∧ ∀ known, token ≠ versionText known := by
  have hknown : (∀ known, token ≠ versionText known) ↔
      ∀ version, parseVersion token ≠ .ok version :=
    forall_congr' fun _ => not_congr parseVersion_ok_iff.symm
  rw [hknown, versionShaped_iff]
  unfold parseVersion
  split
  · rename_i hshape
    simp [hshape]
  · rename_i hshape
    cases versionTable.find? (fun entry => token = entry.1) with
    | none => simp [hshape]
    | some entry => simp

theorem parseVersion_ne_unknown {token : Bytes} :
    parseVersion token ≠ .error .unknownMethod := by
  intro h
  unfold parseVersion at h
  split at h
  · cases h
  · split at h <;> cases h

theorem parseRequestLine_accepted {line : Bytes} {parsed : RequestLine} :
    parseRequestLine line = .ok parsed ↔ Accepted line parsed := by
  rw [parseRequestLine_iff]
  constructor
  · rintro ⟨hcut, nonempty, noSpace, noCtl, escapes⟩
    refine ⟨hcut, nonempty, ?_, hasValidEscapes_iff.mp escapes⟩
    exact fun ch hch => ⟨fun heq => noSpace (heq ▸ hch), containsCtl_iff.mp noCtl ch hch⟩
  · rintro ⟨hcut, nonempty, plain, escapes⟩
    refine ⟨hcut, nonempty, fun hmem => (plain sp hmem).1 rfl, ?_, hasValidEscapes_iff.mpr escapes⟩
    exact containsCtl_iff.mpr fun ch hch => (plain ch hch).2

theorem parseRequestLine_outdated {line : Bytes} :
    parseRequestLine line = .error .unsupportedVersion ↔ Outdated line := by
  constructor
  · intro h
    obtain ⟨method, target, version, hfields⟩ := exists_fields (by rw [h]; simp)
    rw [parseRequestLine_fields hfields] at h
    refine ⟨method, target, version, hfields, parseVersion_unsupported_iff.mp ?_⟩
    cases hversion : parseVersion version with
    | error err =>
      rw [hversion] at h
      cases h
      rfl
    | ok known =>
      rw [hversion] at h
      by_cases hescapes : hasValidEscapes target = false
      · simp [hescapes, Except.bind] at h
      · cases hmethod : lookupMethod method <;> simp [hescapes, hmethod, Except.bind] at h
  · rintro ⟨method, target, version, hfields, hversion⟩
    rw [parseRequestLine_fields hfields, parseVersion_unsupported_iff.mpr hversion]
    rfl

theorem lookupMethod_none_iff {token : Bytes} :
    lookupMethod token = none ↔ ∀ known, token ≠ methodName known := by
  rw [Option.eq_none_iff_forall_ne_some]
  exact forall_congr' fun _ => not_congr lookupMethod_iff

theorem parseRequestLine_foreign {line : Bytes} :
    parseRequestLine line = .error .unknownMethod ↔ Foreign line := by
  constructor
  · intro h
    obtain ⟨method, target, version, hfields⟩ := exists_fields (by rw [h]; simp)
    rw [parseRequestLine_fields hfields] at h
    cases hversion : parseVersion version with
    | error err =>
      rw [hversion] at h
      cases h
      exact absurd hversion parseVersion_ne_unknown
    | ok known =>
      have hknown : version = versionText known := parseVersion_ok_iff.mp hversion
      subst hknown
      rw [hversion] at h
      by_cases hescapes : hasValidEscapes target = true
      · refine ⟨method, target, known, hfields, hasValidEscapes_iff.mp hescapes,
          lookupMethod_none_iff.mp ?_⟩
        cases hmethod : lookupMethod method with
        | none => rfl
        | some found => simp [hescapes, hmethod, Except.bind] at h
      · simp [hescapes, Except.bind] at h
  · rintro ⟨method, target, version, hfields, hescapes, hmethod⟩
    rw [parseRequestLine_fields hfields, parseVersion_ok_iff.mpr rfl]
    simp only [hasValidEscapes_iff.mpr hescapes, lookupMethod_none_iff.mpr hmethod]
    rfl

/-- Which lines are accepted, and what is said about each of the others. -/
theorem parseRequestLine_grammar (line : Bytes) :
    (∀ parsed, parseRequestLine line = .ok parsed ↔ Accepted line parsed) ∧
    (parseRequestLine line = .error .unsupportedVersion ↔ Outdated line) ∧
    (parseRequestLine line = .error .unknownMethod ↔ Foreign line) ∧
    (parseRequestLine line = .error .malformed ↔
      (∀ parsed, ¬ Accepted line parsed) ∧ ¬ Outdated line ∧ ¬ Foreign line) := by
  refine ⟨fun _ => parseRequestLine_accepted, parseRequestLine_outdated,
    parseRequestLine_foreign, ?_⟩
  simp only [← parseRequestLine_accepted, ← parseRequestLine_outdated, ← parseRequestLine_foreign]
  cases parseRequestLine line with
  | ok parsed => simp
  | error err => cases err <;> simp

/-- OWS is made of these. -/
def Blank (ch : UInt8) : Prop := ch = ' '.toUInt8 ∨ ch = '\t'.toUInt8

instance (ch : UInt8) : Decidable (Blank ch) := inferInstanceAs (Decidable (_ ∨ _))

/-- What may stand behind the colon. -/
def Legal (ch : UInt8) : Prop := ch = '\t'.toUInt8 ∨ (0x20 ≤ ch ∧ ch ≤ 0x7E) ∨ 0x80 ≤ ch

/-- A token, a colon, and a value between blanks. -/
structure FieldSpelling (line name before value after : Bytes) : Prop where
  cut : line = name ++ colon :: (before ++ value ++ after)
  nonempty : name ≠ []
  token : ∀ ch ∈ name, isTchar ch = true
  blank : ∀ ch ∈ before ++ after, Blank ch
  first : ∀ ch ∈ value.head?, ¬ Blank ch
  last : ∀ ch ∈ value.getLast?, ¬ Blank ch
  legal : ∀ ch ∈ before ++ value ++ after, Legal ch

theorem blank_iff {ch : UInt8} : isOws ch = true ↔ Blank ch := by
  simp [isOws, Blank]

theorem not_blank_iff {ch : UInt8} : isOws ch = false ↔ ¬ Blank ch := by
  rw [← blank_iff, Bool.not_eq_true]

theorem legal_iff {ch : UInt8} : isValidValueChar ch = true ↔ Legal ch := by
  have hrange : (0x20 ≤ ch ∧ ch ≠ 0x7F) ↔ (0x20 ≤ ch ∧ ch ≤ 0x7E) ∨ 0x80 ≤ ch := by
    simp only [UInt8.le_iff_toNat_le, ne_eq, ← UInt8.toNat_inj, UInt8.reduceToNat]
    omega
  simp only [isValidValueChar, Legal, decide_eq_true_eq, hrange]

theorem parseHeaderField_spelling {line : Bytes} {field : HeaderField} :
    parseHeaderField line = some field ↔ ∃ name before after,
      FieldSpelling line name before field.value after ∧ field.name = name.map asciiLower := by
  rw [parseHeaderField_iff]
  constructor
  · rintro ⟨spelled, rfl, rfl⟩
    have hblank : ∀ ch ∈ spelled.before ++ spelled.after, isOws ch = true := by
      intro ch hch
      rcases List.mem_append.mp hch with h | h
      · exact spelled.beforeOws ch h
      · exact spelled.afterOws ch h
    refine ⟨spelled.name, spelled.before, spelled.after, ⟨rfl, spelled.nameNonempty,
      List.all_eq_true.mp spelled.nameToken, fun ch hch => blank_iff.mp (hblank ch hch),
      fun ch hch => not_blank_iff.mp (spelled.valueFirst ch hch),
      fun ch hch => not_blank_iff.mp (spelled.valueLast ch hch), ?_⟩, rfl⟩
    intro ch hch
    rw [← legal_iff]
    simp only [List.append_assoc, List.mem_append] at hch
    rcases hch with h | h | h
    · exact isOws_valid (spelled.beforeOws ch h)
    · exact List.all_eq_true.mp spelled.valueChars ch h
    · exact isOws_valid (spelled.afterOws ch h)
  · rintro ⟨name, before, after, ⟨hcut, nonempty, token, blank, first, last, legal⟩, hname⟩
    refine ⟨⟨name, before, field.value, after, nonempty, List.all_eq_true.mpr token,
      fun ch hch => blank_iff.mpr (blank ch (List.mem_append_left _ hch)),
      fun ch hch => blank_iff.mpr (blank ch (List.mem_append_right _ hch)),
      List.all_eq_true.mpr fun ch hch => legal_iff.mpr (legal ch (by simp [hch])),
      fun ch hch => not_blank_iff.mpr (first ch hch),
      fun ch hch => not_blank_iff.mpr (last ch hch)⟩, hcut.symm, ?_⟩
    rw [FieldLine.field, ← hname]

/-- Only a token stands in front of the first colon. -/
theorem parseHeaderField_token {front rest : Bytes} {field : HeaderField} (fresh : colon ∉ front)
    (h : parseHeaderField (front ++ colon :: rest) = some field) :
    ∀ ch ∈ front, isTchar ch = true := by
  obtain ⟨name, before, after, spelling, -⟩ := parseHeaderField_spelling.mp h
  have clear : colon ∉ name := colon_not_token (List.all_eq_true.mpr spelling.token)
  have hfront : (front ++ colon :: rest).idxOf? colon = some front.length :=
    idxOf?_append_cons fresh
  have hname : (front ++ colon :: rest).idxOf? colon = some name.length := by
    rw [spelling.cut]
    exact idxOf?_append_cons clear
  have hlength : front.length = name.length := Option.some.inj (hfront.symm.trans hname)
  have hsame : front = name := (List.append_inj spelling.cut hlength).1
  rw [hsame]
  exact spelling.token

/-- Which field lines are accepted, and with what result. -/
theorem parseHeaderField_grammar (line : Bytes) :
    (∀ field, parseHeaderField line = some field ↔ ∃ name before after,
      FieldSpelling line name before field.value after ∧ field.name = name.map asciiLower) ∧
    (∀ front rest, line = front ++ colon :: rest → colon ∉ front →
      (∃ ch ∈ front, isTchar ch = false) → parseHeaderField line = none) ∧
    ∀ field, parseHeaderField line = some field →
      parseHeaderField (field.name ++ bytes ": " ++ field.value) = some field := by
  refine ⟨fun _ => parseHeaderField_spelling, ?_, fun _ => HeaderField.spelled_of_parse⟩
  rintro front rest rfl fresh ⟨ch, hch, noToken⟩
  rw [Option.eq_none_iff_forall_ne_some]
  intro field h
  rw [parseHeaderField_token fresh h ch hch] at noToken
  cases noToken

end Carafe.Http
