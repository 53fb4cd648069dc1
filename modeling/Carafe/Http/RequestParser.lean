import Carafe.Http.Message
import Carafe.Http.FieldList

/-!
# The two line parsers

`parse_request_line` and `parse_header_field` get a line whose CRLF is already
gone. Each is followed by the grammar it accepts: a line parses if and only if it
is spelled by that grammar, and the spelling determines what is returned.
-/

namespace Carafe.Http
open Search

inductive ParseError where
  | malformed
  | unknownMethod
  | unsupportedVersion
  deriving DecidableEq, Repr

def sp : UInt8 := ' '.toUInt8
def colon : UInt8 := ':'.toUInt8
def percent : UInt8 := '%'.toUInt8

def methodTable : List (Bytes × Method) :=
  [(bytes "GET", .get), (bytes "HEAD", .head), (bytes "POST", .post), (bytes "PUT", .put),
    (bytes "DELETE", .delete), (bytes "CONNECT", .connect), (bytes "OPTIONS", .options),
    (bytes "TRACE", .trace), (bytes "PATCH", .patch)]

def lookupMethod (token : Bytes) : Option Method :=
  (methodTable.find? (fun entry => token = entry.1)).map Prod.snd

def isDigit (ch : UInt8) : Bool := '0'.toUInt8 ≤ ch ∧ ch ≤ '9'.toUInt8

def versionTable : List (Bytes × Version) :=
  [(bytes "HTTP/1.0", .http10), (bytes "HTTP/1.1", .http11)]

/-- Shape before value: what has no version's shape is malformed, not unsupported. -/
def parseVersion (token : Bytes) : Except ParseError Version :=
  if token.length ≠ 8 ∨ token.take 5 ≠ bytes "HTTP/" ∨ token[6]? ≠ some '.'.toUInt8 ∨
      token[5]?.any isDigit = false ∨ token[7]?.any isDigit = false then
    .error .malformed
  else match versionTable.find? (fun entry => token = entry.1) with
    | some (_, version) => .ok version
    | none => .error .unsupportedVersion

def isCtl (ch : UInt8) : Bool := ch < 0x20 ∨ ch = 0x7F

def containsCtl (text : Bytes) : Bool := text.any isCtl

def isHexDigit (ch : UInt8) : Bool :=
  ('0'.toUInt8 ≤ ch ∧ ch ≤ '9'.toUInt8) ∨ ('A'.toUInt8 ≤ ch ∧ ch ≤ 'F'.toUInt8) ∨
    ('a'.toUInt8 ≤ ch ∧ ch ≤ 'f'.toUInt8)

def isTchar (ch : UInt8) : Bool :=
  ('A'.toUInt8 ≤ ch ∧ ch ≤ 'Z'.toUInt8) ∨ ('a'.toUInt8 ≤ ch ∧ ch ≤ 'z'.toUInt8) ∨
    ('0'.toUInt8 ≤ ch ∧ ch ≤ '9'.toUInt8) ∨ ch ∈ bytes "!#$%&'*+-.^_`|~"

def isValidValueChar (ch : UInt8) : Bool := ch = '\t'.toUInt8 ∨ (0x20 ≤ ch ∧ ch ≠ 0x7F)

def hasValidEscapes : Bytes → Bool
  | [] => true
  | ch :: rest =>
    if ch ≠ percent then hasValidEscapes rest
    else match rest with
      | high :: low :: tail => isHexDigit high && isHexDigit low && hasValidEscapes tail
      | _ => false

def parseRequestLine (line : Bytes) : Except ParseError RequestLine :=
  match find sp 0 line with
  | none => .error .malformed
  | some sp1 =>
    match find sp (sp1 + 1) line with
    | none => .error .malformed
    | some sp2 =>
      if containsCtl line then .error .malformed
      else if (find sp (sp2 + 1) line).isSome then .error .malformed
      else
        let methodPart := line.take sp1
        let targetPart := (line.drop (sp1 + 1)).take (sp2 - sp1 - 1)
        let versionPart := line.drop (sp2 + 1)
        if methodPart = [] ∨ targetPart = [] ∨ versionPart = [] then .error .malformed
        else match parseVersion versionPart with
          | .error err => .error err
          | .ok version =>
            -- Ahead of the method lookup: a target that cannot be read is not a request
            -- carrying an unimplemented verb.
            if hasValidEscapes targetPart = false then .error .malformed
            else match lookupMethod methodPart with
              | none => .error .unknownMethod
              | some method => .ok ⟨method, targetPart, version⟩

def parseHeaderField (line : Bytes) : Option HeaderField :=
  match find colon 0 line with
  | none => none
  | some colonPos =>
    let namePart := line.take colonPos
    let valuePart := line.drop (colonPos + 1)
    if namePart = [] then none
    else if namePart.all isTchar = false then none
    -- Over the untrimmed span: the bytes that are dropped have to be legal as well.
    else if valuePart.all isValidValueChar = false then none
    else some ⟨namePart.map asciiLower, trim isOws valuePart⟩

def versionText : Version → Bytes
  | .http10 => bytes "HTTP/1.0"
  | .http11 => bytes "HTTP/1.1"

/-- A target the parser lets through. -/
structure TargetValid (target : Bytes) : Prop where
  nonempty : target ≠ []
  noSpace : sp ∉ target
  noCtl : containsCtl target = false
  escapes : hasValidEscapes target = true

def RequestLine.text (line : RequestLine) : Bytes :=
  methodName line.method ++ sp :: (line.target ++ sp :: versionText line.version)

/-- Neither a control byte nor DEL. -/
def Printable (ch : UInt8) : Prop := 0x20 ≤ ch ∧ ch ≠ 0x7F

instance (ch : UInt8) : Decidable (Printable ch) := inferInstanceAs (Decidable (_ ∧ _))

/-- Two spaces and three fields, none of them empty. -/
structure ThreeFields (line method target version : Bytes) : Prop where
  cut : line = method ++ sp :: (target ++ sp :: version)
  spaces : sp ∉ method ∧ sp ∉ target ∧ sp ∉ version
  nonempty : method ≠ [] ∧ target ≠ [] ∧ version ≠ []
  printable : ∀ ch ∈ line, Printable ch

theorem lookupMethod_iff {token : Bytes} {method : Method} :
    lookupMethod token = some method ↔ token = methodName method := by
  constructor
  · intro h
    obtain ⟨entry, hfind, rfl⟩ := Option.map_eq_some_iff.mp h
    have htoken : token = entry.1 := by simpa using List.find?_some hfind
    have htable : ∀ entry ∈ methodTable, entry.1 = methodName entry.2 := by decide
    rw [htoken]
    exact htable entry (List.mem_of_find?_eq_some hfind)
  · rintro rfl
    cases method <;> decide

theorem parseVersion_ok_iff {token : Bytes} {version : Version} :
    parseVersion token = .ok version ↔ token = versionText version := by
  constructor
  · intro h
    unfold parseVersion at h
    split at h
    · cases h
    · split at h
      · rename_i name found hfind
        cases h
        have htoken : token = name := by simpa using List.find?_some hfind
        have htable : ∀ entry ∈ versionTable, entry.1 = versionText entry.2 := by decide
        rw [htoken]
        exact htable _ (List.mem_of_find?_eq_some hfind)
      · cases h
  · rintro rfl
    cases version <;> rfl

theorem methodName_plain (method : Method) :
    methodName method ≠ [] ∧ sp ∉ methodName method ∧ containsCtl (methodName method) = false := by
  cases method <;> decide

theorem versionText_plain (version : Version) :
    versionText version ≠ [] ∧ sp ∉ versionText version ∧
      containsCtl (versionText version) = false := by
  cases version <;> decide

theorem containsCtl_iff {text : Bytes} :
    containsCtl text = false ↔ ∀ ch ∈ text, Printable ch := by
  simp [containsCtl, isCtl, Printable]

theorem containsCtl_append (front tail : Bytes) :
    containsCtl (front ++ tail) = (containsCtl front || containsCtl tail) := by
  simp [containsCtl]

theorem containsCtl_sp (rest : Bytes) : containsCtl (sp :: rest) = containsCtl rest := by
  have hsp : isCtl sp = false := by decide
  simp [containsCtl, hsp]

theorem RequestLine.clean {line : RequestLine} (h : TargetValid line.target) :
    containsCtl line.text = false := by
  have hm := (methodName_plain line.method).2.2
  have hv := (versionText_plain line.version).2.2
  rw [text, containsCtl_append, containsCtl_sp, containsCtl_append, containsCtl_sp, hm, hv, h.noCtl]
  rfl

/-- Three fields with a space between each two are found again by the two searches. -/
theorem requestLine_fields {front middle : Bytes} (last : Bytes) (hf : sp ∉ front)
    (hm : sp ∉ middle) :
    find sp 0 (front ++ sp :: (middle ++ sp :: last)) = some front.length ∧
    find sp (front.length + 1) (front ++ sp :: (middle ++ sp :: last)) =
      some (front.length + 1 + middle.length) := by
  constructor
  · rw [find_zero, idxOf?_append_cons hf]
  · have h := find_append (front ++ [sp]) last hm
    simpa using h

/-- Both searches succeeding cut the line into three fields, the first two without a space. -/
theorem requestLine_cut {text : Bytes} {sp1 sp2 : Nat} (h1 : find sp 0 text = some sp1)
    (h2 : find sp (sp1 + 1) text = some sp2) :
    text = text.take sp1 ++ sp :: ((text.drop (sp1 + 1)).take (sp2 - sp1 - 1) ++
      sp :: text.drop (sp2 + 1)) ∧ sp ∉ text.take sp1 ∧
      sp ∉ (text.drop (sp1 + 1)).take (sp2 - sp1 - 1) := by
  obtain ⟨front, rest, htext, hfresh, hlen1⟩ := find_some h1
  obtain ⟨middle, last, hrest, hmiddle, hlen2⟩ := find_some h2
  rw [List.drop_zero] at htext
  have hsp1 : sp1 = front.length := by omega
  have hdrop : text.drop (sp1 + 1) = rest := by
    rw [htext, hsp1]
    simp [← List.drop_drop]
  have hlast : text.drop (sp2 + 1) = last := by
    have hsum : sp2 + 1 = (sp1 + 1) + (middle.length + 1) := by omega
    rw [hsum, ← List.drop_drop, hrest]
    simp [← List.drop_drop]
  have hmid : (text.drop (sp1 + 1)).take (sp2 - sp1 - 1) = middle := by
    have hn : sp2 - sp1 - 1 = middle.length := by omega
    rw [hrest, hn]
    simp
  have hfront : text.take sp1 = front := by
    rw [htext, hsp1]
    simp
  rw [hmid, hlast, hfront]
  refine ⟨?_, hfresh, hmiddle⟩
  rw [← hrest, hdrop]
  exact htext

/-- With three fields, the version decides, then the escapes and then the method. -/
theorem parseRequestLine_fields {line method target version : Bytes}
    (h : ThreeFields line method target version) : parseRequestLine line =
      (parseVersion version).bind fun version =>
        if hasValidEscapes target = false then .error .malformed
        else (lookupMethod method).elim (.error .unknownMethod) fun method =>
          .ok ⟨method, target, version⟩ := by
  obtain ⟨rfl, ⟨hm, ht, hv⟩, ⟨hmne, htne, hvne⟩, printable⟩ := h
  obtain ⟨h1, h2⟩ := requestLine_fields version hm ht
  have h3 : find sp (method.length + 1 + target.length + 1)
      (method ++ sp :: (target ++ sp :: version)) = none := by
    have hnone := find_append_none (method ++ sp :: (target ++ [sp])) hv
    simpa [Nat.add_assoc, Nat.add_comm 1] using hnone
  have hlength : method.length + 1 + target.length - method.length - 1 = target.length := by omega
  have hmethod : (method ++ sp :: (target ++ sp :: version)).take method.length = method := by
    simp
  have htarget : ((method ++ sp :: (target ++ sp :: version)).drop (method.length + 1)).take
      target.length = target := by
    simp [← List.drop_drop]
  have hversion : (method ++ sp :: (target ++ sp :: version)).drop
      (method.length + 1 + target.length + 1) = version := by
    simp [← List.drop_drop]
  rw [parseRequestLine, h1]
  simp only [h2, h3, containsCtl_iff.mpr printable, hlength, hmethod, htarget, hversion, hmne,
    htne, hvne]
  cases parseVersion version <;> cases lookupMethod method <;> simp [Except.bind]

theorem parseRequestLine_shapeless {line : Bytes}
    (h : ∀ method target version, ¬ ThreeFields line method target version) :
    parseRequestLine line = .error .malformed := by
  cases h1 : find sp 0 line with
  | none => simp only [parseRequestLine, h1]
  | some sp1 =>
    cases h2 : find sp (sp1 + 1) line with
    | none => simp only [parseRequestLine, h1, h2]
    | some sp2 =>
      obtain ⟨hcut, hmethod, htarget⟩ := requestLine_cut h1 h2
      simp only [parseRequestLine, h1, h2]
      split
      · rfl
      rename_i hctl
      split
      · rfl
      rename_i hthird
      split
      · rfl
      rename_i hne
      have hversion : sp ∉ line.drop (sp2 + 1) :=
        find_eq_none_iff.mp (Option.not_isSome_iff_eq_none.mp hthird)
      simp only [not_or] at hne
      exact absurd ⟨hcut, ⟨hmethod, htarget, hversion⟩, hne,
        containsCtl_iff.mp (Bool.not_eq_true _ ▸ hctl)⟩ (h _ _ _)

theorem exists_fields {line : Bytes} (h : parseRequestLine line ≠ .error .malformed) :
    ∃ method target version, ThreeFields line method target version := by
  by_contra hnone
  push Not at hnone
  exact h (parseRequestLine_shapeless hnone)

theorem parseRequestLine_text {line : RequestLine} (h : TargetValid line.target) :
    parseRequestLine line.text = .ok line := by
  obtain ⟨hmne, hmsp, -⟩ := methodName_plain line.method
  obtain ⟨hvne, hvsp, -⟩ := versionText_plain line.version
  have fields : ThreeFields line.text (methodName line.method) line.target
      (versionText line.version) :=
    ⟨rfl, ⟨hmsp, h.noSpace, hvsp⟩, ⟨hmne, h.nonempty, hvne⟩, containsCtl_iff.mp (RequestLine.clean h)⟩
  rw [parseRequestLine_fields fields, parseVersion_ok_iff.mpr rfl]
  simp only [Except.bind, h.escapes, lookupMethod_iff.mpr rfl]
  rfl

/-- A line that parses is the spelling of what it parses to. -/
theorem parseRequestLine_sound {text : Bytes} {line : RequestLine}
    (h : parseRequestLine text = .ok line) : text = line.text ∧ TargetValid line.target := by
  obtain ⟨method, target, version, hfields⟩ := exists_fields (by rw [h]; simp)
  rw [parseRequestLine_fields hfields] at h
  cases hversion : parseVersion version with
  | error err =>
    rw [hversion] at h
    cases h
  | ok known =>
    rw [hversion] at h
    by_cases hescapes : hasValidEscapes target = true
    · cases hmethod : lookupMethod method with
      | none => simp [hescapes, hmethod, Except.bind] at h
      | some found =>
        have hline : line = ⟨found, target, known⟩ := by
          simpa [hescapes, hmethod, Except.bind, eq_comm] using h
        subst hline
        rw [lookupMethod_iff] at hmethod
        rw [parseVersion_ok_iff] at hversion
        subst hmethod hversion
        refine ⟨hfields.cut, hfields.nonempty.2.1, hfields.spaces.2.1, ?_, hescapes⟩
        refine containsCtl_iff.mpr fun ch hch => hfields.printable ch ?_
        rw [hfields.cut]
        simp [hch]
    · simp [hescapes, Except.bind] at h

theorem parseRequestLine_iff {text : Bytes} {line : RequestLine} :
    parseRequestLine text = .ok line ↔ text = line.text ∧ TargetValid line.target := by
  constructor
  · exact parseRequestLine_sound
  · rintro ⟨rfl, h⟩
    exact parseRequestLine_text h

/-- One field line as a client may spell it. -/
structure FieldLine where
  name : Bytes
  before : Bytes
  value : Bytes
  after : Bytes
  nameNonempty : name ≠ []
  nameToken : name.all isTchar = true
  beforeOws : ∀ ch ∈ before, isOws ch = true
  afterOws : ∀ ch ∈ after, isOws ch = true
  valueChars : value.all isValidValueChar = true
  valueFirst : ∀ ch ∈ value.head?, isOws ch = false
  valueLast : ∀ ch ∈ value.getLast?, isOws ch = false

namespace FieldLine

def text (line : FieldLine) : Bytes :=
  line.name ++ colon :: (line.before ++ line.value ++ line.after)

/-- What the parser makes of it: the name lowercased, the value trimmed. -/
def field (line : FieldLine) : HeaderField := ⟨line.name.map asciiLower, line.value⟩

end FieldLine

theorem isOws_valid {ch : UInt8} (h : isOws ch = true) : isValidValueChar ch = true := by
  have hall : ∀ ch : UInt8, isOws ch = true → isValidValueChar ch = true := by
    refine forall_byte ?_
    decide +kernel
  exact hall ch h

theorem colon_not_token {name : Bytes} (h : name.all isTchar = true) : colon ∉ name := by
  intro hmem
  have hcolon := List.all_eq_true.mp h colon hmem
  exact absurd hcolon (by decide)

theorem isTchar_lower {ch : UInt8} (h : isTchar ch = true) : isTchar (asciiLower ch) = true := by
  have hall : ∀ ch : UInt8, isTchar ch = true → isTchar (asciiLower ch) = true := by
    refine forall_byte ?_
    decide +kernel
  exact hall ch h

theorem FieldLine.field_name (line : FieldLine) : line.field.name.all isTchar = true := by
  rw [List.all_eq_true]
  intro ch hch
  obtain ⟨ch', hmem, rfl⟩ := List.mem_map.mp hch
  exact isTchar_lower (List.all_eq_true.mp line.nameToken ch' hmem)

theorem parseHeaderField_text (line : FieldLine) :
    parseHeaderField line.text = some line.field := by
  have hfind : find colon 0 line.text = some line.name.length := by
    rw [find_zero, FieldLine.text, idxOf?_append_cons (colon_not_token line.nameToken)]
  have hname : line.text.take line.name.length = line.name := by simp [FieldLine.text]
  have hvalue : line.text.drop (line.name.length + 1) =
      line.before ++ line.value ++ line.after := by
    simp [FieldLine.text, ← List.drop_drop]
  have hchars : (line.before ++ line.value ++ line.after).all isValidValueChar = true := by
    have hb : line.before.all isValidValueChar = true :=
      List.all_eq_true.mpr fun ch hch => isOws_valid (line.beforeOws ch hch)
    have ha : line.after.all isValidValueChar = true :=
      List.all_eq_true.mpr fun ch hch => isOws_valid (line.afterOws ch hch)
    simp only [List.all_append, hb, line.valueChars, ha, Bool.and_self]
  have htrim := trim_padded line.beforeOws line.afterOws line.valueFirst line.valueLast
  unfold parseHeaderField
  rw [hfind]
  simp only [hname, hvalue, hchars, htrim, line.nameToken, line.nameNonempty]
  rfl

theorem parseHeaderField_sound {text : Bytes} {field : HeaderField}
    (h : parseHeaderField text = some field) :
    ∃ line : FieldLine, line.text = text ∧ line.field = field := by
  unfold parseHeaderField at h
  cases hfind : find colon 0 text with
  | none => simp [hfind] at h
  | some colonPos =>
    obtain ⟨name, rest, htext, _, hlen⟩ := find_some hfind
    rw [List.drop_zero] at htext
    have hpos : colonPos = name.length := by omega
    subst hpos
    have hname : text.take name.length = name := by simp [htext]
    have hrest : text.drop (name.length + 1) = rest := by simp [htext, ← List.drop_drop]
    simp only [hfind, hname, hrest] at h
    split at h
    · cases h
    rename_i hne
    split at h
    · cases h
    rename_i htoken
    split at h
    · cases h
    rename_i hchars
    cases h
    obtain ⟨before, after, heq, hb, ha⟩ := trim_decompose isOws rest
    have hvalue : (trim isOws rest).all isValidValueChar = true := by
      rw [Bool.not_eq_false, heq] at hchars
      simp only [List.all_append, Bool.and_eq_true] at hchars
      exact hchars.1.2
    refine ⟨⟨name, before, trim isOws rest, after, hne, by simpa using htoken, hb, ha, hvalue,
      fun _ => trim_first, fun _ => trim_last⟩, ?_, rfl⟩
    rw [FieldLine.text, ← heq]
    exact htext.symm

/-- The field lines that parse are exactly the spellings of `FieldLine`. -/
theorem parseHeaderField_iff {text : Bytes} {field : HeaderField} :
    parseHeaderField text = some field ↔
      ∃ line : FieldLine, line.text = text ∧ line.field = field := by
  constructor
  · exact parseHeaderField_sound
  · rintro ⟨line, rfl, rfl⟩
    exact parseHeaderField_text line

end Carafe.Http
