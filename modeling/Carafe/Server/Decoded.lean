import Carafe.Http.RawPath
import Carafe.Server.Router

/-!
# What a capture decodes to

A capture has been through two decoders: escapes of unreserved bytes are resolved
before the match, all others in the capture itself. A stray percent sign is copied by
the first; what the first resolves behind it can make an escape of it for the second.
-/

namespace Carafe.Server
open Http Search Segments

theorem percentDecode_tokens (text : Bytes) :
    percentDecode text = (tokens text).map Token.value := by
  fun_induction tokens text with
  | case1 ch highCh lowCh tail bare ih =>
    rw [percentDecode, if_pos bare, ih]
    rfl
  | case2 ch highCh lowCh tail bare high low isLow isHigh ih =>
    rw [not_not.mp bare, percentDecode_escape isHigh isLow, ih]
    rfl
  | case3 ch highCh lowCh tail bare noEscape ih =>
    rw [percentDecode, if_neg bare, ih]
    cases isHigh : asciiHexValue highCh with
    | none => rfl
    | some high =>
      cases isLow : asciiHexValue lowCh with
      | none => rfl
      | some low => exact False.elim (noEscape high low isHigh isLow)
  | case4 ch rest short ih =>
    rcases rest with _ | ⟨highCh, _ | ⟨lowCh, tail⟩⟩
    · rfl
    · rfl
    · exact False.elim (short highCh lowCh tail rfl)
  | case5 => rfl

/-- A token that is a hex digit once it is resolved. -/
def Hexed (token : Token) : Prop := ∃ digit, asciiHexValue token.value = some digit

/-- A stray percent sign that gets two digits behind it. -/
def SplicedTokens (ts : List Token) : Prop :=
  ∃ front first second back, ts = front ++ .byte percent :: first :: second :: back ∧
    Hexed first ∧ Hexed second

theorem hex_unreserved {ch : UInt8} {digit : Nat} (h : asciiHexValue ch = some digit) :
    asciiUnreserved ch = true := by
  have hall : ∀ ch : UInt8, (asciiHexValue ch).isSome = true → asciiUnreserved ch = true := by
    refine forall_byte ?_
    decide +kernel
  exact hall ch (by rw [h]; rfl)

theorem Hexed.resolved {token : Token} (h : Hexed token) : token.resolved = [token.value] := by
  obtain ⟨digit, hdigit⟩ := h
  cases token with
  | byte ch => rfl
  | escape highCh lowCh high low => exact if_pos (hex_unreserved hdigit)

/-- What is resolved starts with a digit only if the first token is one. -/
theorem resolved_digit {ts : List Token} {ch : UInt8} {rest : Bytes} {digit : Nat}
    (h : ts.flatMap Token.resolved = ch :: rest) (isDigit : asciiHexValue ch = some digit) :
    ∃ token more, ts = token :: more ∧ Hexed token ∧ token.value = ch ∧
      more.flatMap Token.resolved = rest := by
  cases ts with
  | nil => cases h
  | cons token more =>
    refine ⟨token, more, rfl, ?_⟩
    rw [List.flatMap_cons] at h
    cases token with
    | byte ch' =>
      obtain ⟨rfl, hrest⟩ := List.cons.inj h
      exact ⟨⟨digit, isDigit⟩, rfl, hrest⟩
    | escape highCh lowCh high low =>
      simp only [Token.resolved] at h
      split at h
      · obtain ⟨rfl, hrest⟩ := List.cons.inj h
        exact ⟨⟨digit, isDigit⟩, rfl, hrest⟩
      · obtain ⟨rfl, -⟩ := List.cons.inj h
        exact absurd isDigit (by decide +revert)

/-- A token other than a stray percent sign is decoded as if it stood alone. -/
theorem decode_resolved_cons {token : Token} (sound : token.Sound)
    (bare : token ≠ .byte percent) (rest : Bytes) :
    percentDecode (token.resolved ++ rest) = token.value :: percentDecode rest := by
  cases token with
  | byte ch =>
    have hch : ch ≠ percent := fun h => bare (by rw [h])
    exact percentDecode_plain hch rest
  | escape highCh lowCh high low =>
    obtain ⟨isHigh, isLow⟩ := sound
    simp only [Token.resolved]
    split
    · rename_i unreserved
      refine percentDecode_plain ?_ rest
      intro heq
      rw [heq] at unreserved
      exact absurd unreserved (by decide)
    · exact percentDecode_escape (asciiHexValue_digit (asciiHexValue_lt isHigh))
        (asciiHexValue_digit (asciiHexValue_lt isLow)) rest

theorem percentDecode_stray {rest : Bytes} (h : ∀ highCh lowCh tail,
    rest = highCh :: lowCh :: tail → asciiHexValue highCh = none ∨ asciiHexValue lowCh = none) :
    percentDecode (percent :: rest) = percent :: percentDecode rest := by
  rw [percentDecode_tokens, tokens_stray h, percentDecode_tokens]
  rfl

/-- A stray percent sign stays one unless two digits come to stand behind it. -/
theorem decode_stray_cases (ts : List Token) :
    (∃ first second back, ts = first :: second :: back ∧ Hexed first ∧ Hexed second) ∨
    percentDecode (percent :: ts.flatMap Token.resolved) =
      percent :: percentDecode (ts.flatMap Token.resolved) := by
  by_cases h : ∀ highCh lowCh tail, ts.flatMap Token.resolved = highCh :: lowCh :: tail →
      asciiHexValue highCh = none ∨ asciiHexValue lowCh = none
  · exact Or.inr (percentDecode_stray h)
  · push Not at h
    obtain ⟨highCh, lowCh, tail, hts, isHigh, isLow⟩ := h
    obtain ⟨high, isHigh⟩ := Option.ne_none_iff_exists'.mp isHigh
    obtain ⟨low, isLow⟩ := Option.ne_none_iff_exists'.mp isLow
    obtain ⟨first, more, rfl, hfirst, -, hmore⟩ := resolved_digit hts isHigh
    obtain ⟨second, back, rfl, hsecond, -, -⟩ := resolved_digit hmore isLow
    exact Or.inl ⟨first, second, back, rfl, hfirst, hsecond⟩

theorem SplicedTokens.cons {ts : List Token} (h : SplicedTokens ts) (token : Token) :
    SplicedTokens (token :: ts) := by
  obtain ⟨front, first, second, back, rfl, hfirst, hsecond⟩ := h
  exact ⟨token :: front, first, second, back, rfl, hfirst, hsecond⟩

/-- A stray percent sign ahead of two digits. -/
def HeadSpliced (token : Token) (ts : List Token) : Prop :=
  ∃ first second back, token = .byte percent ∧ ts = first :: second :: back ∧ Hexed first ∧
    Hexed second

theorem SplicedTokens.cases {token : Token} {ts : List Token} (h : SplicedTokens (token :: ts)) :
    HeadSpliced token ts ∨ SplicedTokens ts := by
  obtain ⟨front, first, second, back, hcut, hfirst, hsecond⟩ := h
  cases front with
  | nil =>
    obtain ⟨rfl, rfl⟩ := List.cons.inj hcut
    exact Or.inl ⟨first, second, back, rfl, rfl, hfirst, hsecond⟩
  | cons t front =>
    obtain ⟨-, rfl⟩ := List.cons.inj hcut
    exact Or.inr ⟨front, first, second, back, rfl, hfirst, hsecond⟩

theorem decode_unspliced_head {token : Token} {ts : List Token} (sound : token.Sound)
    (h : ¬ HeadSpliced token ts) :
    percentDecode ((token :: ts).flatMap Token.resolved) =
      token.value :: percentDecode (ts.flatMap Token.resolved) := by
  rw [List.flatMap_cons]
  by_cases stray : token = .byte percent
  · subst stray
    rcases decode_stray_cases ts with ⟨first, second, back, hts, hfirst, hsecond⟩ | hstray
    · exact False.elim (h ⟨first, second, back, rfl, hts, hfirst, hsecond⟩)
    · exact hstray
  · exact decode_resolved_cons sound stray _

/-- Without a splice the second decoder finds what the first one left. -/
theorem decode_unspliced {ts : List Token} (sound : ∀ token ∈ ts, token.Sound)
    (h : ¬ SplicedTokens ts) :
    percentDecode (ts.flatMap Token.resolved) = ts.map Token.value := by
  induction ts with
  | nil => rfl
  | cons token ts ih =>
    have hhead : ¬ HeadSpliced token ts := by
      rintro ⟨first, second, back, rfl, rfl, hfirst, hsecond⟩
      exact h ⟨[], first, second, back, rfl, hfirst, hsecond⟩
    rw [decode_unspliced_head (sound token List.mem_cons_self) hhead, List.map_cons,
      ih (fun t ht => sound t (List.mem_cons_of_mem _ ht)) fun hts => h (hts.cons token)]

/-- Every splice costs two bytes. -/
theorem decode_length {ts : List Token} (sound : ∀ token ∈ ts, token.Sound) :
    (percentDecode (ts.flatMap Token.resolved)).length ≤ ts.length ∧
    (SplicedTokens ts → (percentDecode (ts.flatMap Token.resolved)).length < ts.length) := by
  induction hlength : ts.length using Nat.strongRecOn generalizing ts with
  | ind n ih =>
    cases ts with
    | nil =>
      refine ⟨Nat.zero_le _, ?_⟩
      rintro ⟨front, first, second, back, hcut, -, -⟩
      simp at hcut
    | cons token ts =>
      have hsound : ∀ t ∈ ts, t.Sound := fun t ht => sound t (List.mem_cons_of_mem _ ht)
      rw [List.length_cons] at hlength
      by_cases hhead : HeadSpliced token ts
      · obtain ⟨first, second, back, rfl, rfl, hfirst, hsecond⟩ := hhead
        obtain ⟨high, isHigh⟩ := hfirst
        obtain ⟨low, isLow⟩ := hsecond
        simp only [List.length_cons] at hlength
        have hback := (ih back.length (by omega) (fun t ht => hsound t (by simp [ht])) rfl).1
        have hdecode : percentDecode ((.byte percent :: first :: second :: back).flatMap
            Token.resolved) = escapedByte high low ::
              percentDecode (back.flatMap Token.resolved) := by
          rw [List.flatMap_cons, List.flatMap_cons, List.flatMap_cons,
            Hexed.resolved ⟨high, isHigh⟩, Hexed.resolved ⟨low, isLow⟩]
          exact percentDecode_escape isHigh isLow _
        rw [hdecode, List.length_cons]
        constructor
        · omega
        · intro _
          omega
      · obtain ⟨hle, hlt⟩ := ih ts.length (by omega) hsound rfl
        rw [decode_unspliced_head (sound token List.mem_cons_self) hhead, List.length_cons]
        constructor
        · omega
        · intro hspliced
          have := hlt (hspliced.cases.resolve_left hhead)
          omega

theorem decode_once_tokens {text : Bytes} :
    percentDecode (resolveEscapes text) = percentDecode text ↔ ¬ SplicedTokens (tokens text) := by
  rw [resolveEscapes_tokens, percentDecode_tokens text]
  constructor
  · intro heq spliced
    have hlt := (decode_length (tokens_sound text)).2 spliced
    rw [heq, List.length_map] at hlt
    exact Nat.lt_irrefl _ hlt
  · exact decode_unspliced (tokens_sound text)

/-- A hex digit, as it stands or escaped. -/
inductive HexUnit : Bytes → Prop where
  | plain {ch : UInt8} {digit : Nat} (isDigit : asciiHexValue ch = some digit) : HexUnit [ch]
  | escaped {highCh lowCh : UInt8} {high low digit : Nat}
      (isHigh : asciiHexValue highCh = some high) (isLow : asciiHexValue lowCh = some low)
      (isDigit : asciiHexValue (escapedByte high low) = some digit) :
      HexUnit [percent, highCh, lowCh]

/-- Somewhere a percent sign stands in front of two hex digits, one of them escaped. -/
def Spliced (text : Bytes) : Prop :=
  ∃ front first second back, text = front ++ percent :: (first ++ second ++ back) ∧
    HexUnit first ∧ HexUnit second ∧ 2 < (first ++ second).length

theorem hex_bare {ch : UInt8} {digit : Nat} (h : asciiHexValue ch = some digit) :
    ch ≠ percent := by
  rintro rfl
  exact absurd h (by decide +revert)

theorem HexUnit.tokens {piece : Bytes} (h : HexUnit piece) (rest : Bytes) :
    ∃ token, Hexed token ∧ Http.tokens (piece ++ rest) = token :: Http.tokens rest := by
  cases h with
  | @plain ch _ isDigit => exact ⟨.byte ch, ⟨_, isDigit⟩, tokens_plain (hex_bare isDigit) rest⟩
  | @escaped highCh lowCh high low _ isHigh isLow isDigit =>
    exact ⟨.escape highCh lowCh high low, ⟨_, isDigit⟩, tokens_escape isHigh isLow rest⟩

theorem Hexed.unit {token : Token} (h : Hexed token) (sound : token.Sound) :
    HexUnit token.spelling := by
  obtain ⟨digit, hdigit⟩ := h
  cases token with
  | byte ch => exact .plain hdigit
  | escape => exact .escaped sound.1 sound.2 hdigit

/-- A percent sign that is taken for a byte does not have two digits behind it. -/
theorem stray_apart {text : Bytes} {front back : List Token} {first second : UInt8}
    (h : tokens text = front ++ .byte percent :: .byte first :: .byte second :: back) :
    asciiHexValue first = none ∨ asciiHexValue second = none := by
  have hspelled : ∀ {rest : Bytes} {back : List Token},
      tokens rest = .byte first :: .byte second :: back →
      ∃ tail, rest = first :: second :: tail := by
    intro rest back hrest
    rw [← tokens_spelling rest, hrest]
    exact ⟨_, rfl⟩
  fun_induction tokens text generalizing front with
  | case1 ch highCh lowCh tail bare ih =>
    cases front with
    | nil => exact False.elim (bare (Token.byte.inj (List.cons.inj h).1))
    | cons token front => exact ih (List.cons.inj h).2
  | case2 ch highCh lowCh tail bare high low isLow isHigh ih =>
    cases front with
    | nil => cases (List.cons.inj h).1
    | cons token front => exact ih (List.cons.inj h).2
  | case3 ch highCh lowCh tail bare noEscape ih =>
    cases front with
    | nil =>
      obtain ⟨tail', htail⟩ := hspelled (List.cons.inj h).2
      simp only [List.cons.injEq] at htail
      obtain ⟨rfl, rfl, -⟩ := htail
      by_contra hsome
      rw [not_or, ← ne_eq, ← ne_eq, Option.ne_none_iff_exists', Option.ne_none_iff_exists'] at hsome
      obtain ⟨⟨high, isHigh⟩, low, isLow⟩ := hsome
      exact noEscape high low isHigh isLow
    | cons token front => exact ih (List.cons.inj h).2
  | case4 ch rest short ih =>
    cases front with
    | nil =>
      obtain ⟨tail, rfl⟩ := hspelled (List.cons.inj h).2
      exact False.elim (short first second tail rfl)
    | cons token front => exact ih (List.cons.inj h).2
  | case5 => simp at h

theorem spliced_tokens {text : Bytes} : SplicedTokens (tokens text) ↔ Spliced text := by
  constructor
  · rintro ⟨front, first, second, back, hcut, hfirst, hsecond⟩
    have hsound := tokens_sound text
    rw [hcut] at hsound
    have htext := tokens_spelling text
    rw [hcut] at htext
    refine ⟨front.flatMap Token.spelling, first.spelling, second.spelling,
      back.flatMap Token.spelling, ?_, hfirst.unit (hsound first (by simp)),
      hsecond.unit (hsound second (by simp)), ?_⟩
    · rw [← htext]
      simp [Token.spelling]
    · cases first with
      | escape => simp [Token.spelling]
      | byte firstCh =>
        cases second with
        | escape => simp [Token.spelling]
        | byte secondCh =>
          obtain ⟨digit, hdigit⟩ := hfirst
          obtain ⟨digit', hdigit'⟩ := hsecond
          rcases stray_apart hcut with hnone | hnone
          · exact absurd (hnone.symm.trans hdigit) (by simp)
          · exact absurd (hnone.symm.trans hdigit') (by simp)
  · rintro ⟨front, first, second, back, rfl, hfirst, hsecond, hlong⟩
    have hstray : tokens (percent :: (first ++ second ++ back)) =
        .byte percent :: tokens (first ++ second ++ back) := by
      apply tokens_stray
      intro highCh lowCh tail hrest
      have hpercent : asciiHexValue percent = none := by decide
      cases hfirst with
      | escaped =>
        simp only [List.cons_append, List.cons.injEq] at hrest
        rw [← hrest.1]
        exact Or.inl hpercent
      | plain =>
        cases hsecond with
        | plain => simp at hlong
        | escaped =>
          simp only [List.cons_append, List.nil_append, List.cons.injEq] at hrest
          rw [← hrest.2.1]
          exact Or.inr hpercent
    obtain ⟨token, hhexed, htoken⟩ := hfirst.tokens (second ++ back)
    obtain ⟨token', hhexed', htoken'⟩ := hsecond.tokens back
    rw [List.append_assoc] at hstray
    rw [tokens_append (by decide), List.append_assoc, hstray, htoken, htoken']
    exact ⟨tokens front, token, token', tokens back, rfl, hhexed, hhexed'⟩

/-- Both decoders together decode once, unless an escape is spliced. -/
theorem decode_once {text : Bytes} :
    percentDecode (resolveEscapes text) = percentDecode text ↔ ¬ Spliced text := by
  rw [decode_once_tokens, spliced_tokens]

/-- The name of each capture and the part of the raw path it stands for. -/
def standsFor : Pattern → List Bytes → List (Bytes × Bytes)
  | segment :: pattern, raw :: raws =>
    match segment.capture with
    | .none => standsFor pattern raws
    | .text | .number => (segment.text, raw) :: standsFor pattern raws
    | .rest => [(segment.text, [slash].intercalate (raw :: raws))]
  | _, _ => []

def decodedTwice (part : Bytes × Bytes) : PathParam :=
  ⟨part.1, percentDecode (resolveEscapes part.2)⟩

theorem Fits.standsFor {pattern : Pattern} {raws : List Bytes} {entries : List PathParam}
    (h : Fits pattern (raws.map resolveEscapes) entries) :
    entries = (Server.standsFor pattern raws).map decodedTwice := by
  generalize hpieces : raws.map resolveEscapes = pieces at h
  induction h generalizing raws with
  | nil =>
    rw [List.map_eq_nil_iff.mp hpieces]
    rfl
  | @piece segment piece pattern pieces entries front tail ih =>
    obtain ⟨raw, raws, rfl, rfl, hraws⟩ := List.map_eq_cons_iff.mp hpieces
    rw [ih hraws, bound, Server.standsFor]
    cases hcapture : segment.capture with
    | none => rfl
    | text | number => rfl
    | rest => exact False.elim (front.single hcapture)
  | @rest segment pieces h =>
    obtain ⟨first, hfirst, -⟩ := h.stands
    obtain ⟨more, rfl⟩ := List.head?_eq_some_iff.mp hfirst
    obtain ⟨raw, raws, rfl, rfl, hraws⟩ := List.map_eq_cons_iff.mp hpieces
    have hjoin := resolveEscapes_intercalate (raw :: raws)
    rw [List.map_cons, hraws] at hjoin
    rw [← hjoin, Server.standsFor, h.rest]
    rfl

namespace Router
variable {η : Type}

/-- A capture is one decoding of the raw segments it stands for, unless an escape is spliced. -/
theorem decoded_once (router : Router η) (method : Method) (target : Bytes) {handler : η}
    (found : (router.find method target).handler = some handler) :
    ∃ route ∈ router.routes, route.handler = handler ∧
      route.pattern.matches (routablePath target) true =
        some (router.find method target).params ∧
      (router.find method target).params.entries.length =
        (standsFor route.pattern (standing (pathOf target))).length ∧
      ∀ (i : Nat) (name raw : Bytes),
        (standsFor route.pattern (standing (pathOf target)))[i]? = some (name, raw) →
        ∃ value, (router.find method target).params.entries[i]? = some ⟨name, value⟩ ∧
          (value = percentDecode raw ↔ ¬ Spliced raw) := by
  obtain ⟨route, hmem, hhandler, hmatch⟩ := find_some_route found
  have hfits := matches_iff.mp hmatch
  rw [routablePath, normalizePath_standing] at hfits
  refine ⟨route, hmem, hhandler, hmatch, by rw [hfits.standsFor, List.length_map], ?_⟩
  intro i name raw position
  refine ⟨percentDecode (resolveEscapes raw), ?_, decode_once⟩
  rw [hfits.standsFor, List.getElem?_map, position]
  rfl

/-- An escaped percent sign opens no escape. -/
theorem decoded_once_percent :
    let router : Router Nat := ({} : Router Nat).add .get (bytes "/e/<v>") 7
    (router.find .get (bytes "/e/%2541")).params.entries[0]? = some ⟨bytes "v", bytes "%41"⟩ := by
  intro router
  obtain ⟨route, hroute, -, -, -, h⟩ := @decoded_once Nat router .get (bytes "/e/%2541") 7
    (by decide +kernel)
  have hpart : (standsFor route.pattern (standing (pathOf (bytes "/e/%2541"))))[0]? =
      some (bytes "v", bytes "%2541") := by
    rw [List.mem_singleton.mp hroute]
    decide +kernel
  obtain ⟨value, hentry, hiff⟩ := h 0 _ _ hpart
  have honce : value = percentDecode (bytes "%2541") := hiff.mpr (decode_once.mp (by decide +kernel))
  have hvalue : percentDecode (bytes "%2541") = bytes "%41" := by decide +kernel
  rw [hentry, honce, hvalue]

/-- `%%341` is resolved to `%41` and then decoded to `A`. -/
theorem decoded_again : ¬ ∀ (router : Router Nat) (method : Method) (target : Bytes)
    (route : Route Nat), route ∈ router.routes →
    (router.find method target).handler = some route.handler →
    route.pattern.matches (routablePath target) true =
      some (router.find method target).params →
    ∀ (i : Nat) (name raw : Bytes),
      (standsFor route.pattern (standing (pathOf target)))[i]? = some (name, raw) →
      (router.find method target).params.entries[i]? = some ⟨name, percentDecode raw⟩ := by
  intro claim
  have hentry := claim (({} : Router Nat).add .get (bytes "/e/<v>") 7) .get (bytes "/e/%%341")
    ⟨.get, compile (bytes "/e/<v>"), 7⟩ (List.mem_singleton.mpr rfl) (by decide)
    (by decide) 0 (bytes "v") (bytes "%%341") (by decide)
  exact absurd hentry (by decide)

end Router

/-- What a C string is taken to be. -/
def cutNul (value : Bytes) : Bytes := value.takeWhile (· ≠ 0)

/-- The first segment with a NUL in it reads as a dot segment up to the NUL. -/
def NulDots (segments : List Bytes) : Prop :=
  ∃ front segment back, segments = front ++ segment :: back ∧ (∀ piece ∈ front, 0 ∉ piece) ∧
    (dotSegment ++ [0] <+: segment ∨ dotDotSegment ++ [0] <+: segment)

theorem cutNul_fresh {value : Bytes} (h : 0 ∉ value) : cutNul value = value := by
  apply List.takeWhile_eq_self_iff.mpr
  intro ch hch
  rw [decide_eq_true_eq]
  rintro rfl
  exact h hch

theorem cutNul_append {front : Bytes} (h : 0 ∉ front) (back : Bytes) :
    cutNul (front ++ back) = front ++ cutNul back := by
  apply List.takeWhile_append_of_pos
  intro ch hch
  rw [decide_eq_true_eq]
  rintro rfl
  exact h hch

theorem cutNul_of_mem {front : Bytes} (h : 0 ∈ front) (back : Bytes) :
    cutNul (front ++ back) = cutNul front := by
  obtain ⟨before, after, rfl, fresh⟩ := List.eq_append_cons_of_mem h
  rw [List.append_assoc, cutNul_append fresh, cutNul_append fresh]
  simp [cutNul]

theorem cutNul_eq_iff {value front : Bytes} (hvalue : 0 ∈ value) (hfront : 0 ∉ front) :
    cutNul value = front ↔ front ++ [0] <+: value := by
  constructor
  · rintro rfl
    obtain ⟨before, after, rfl, fresh⟩ := List.eq_append_cons_of_mem hvalue
    have hcut : cutNul (before ++ 0 :: after) = before := by
      rw [cutNul_append fresh]
      simp [cutNul]
    rw [hcut]
    exact ⟨after, by simp⟩
  · rintro ⟨back, rfl⟩
    rw [List.append_assoc, cutNul_append hfront]
    simp [cutNul]

/-- The segments up to the first NUL. -/
def cutSegments : List Bytes → List Bytes
  | [] => []
  | segment :: segments =>
    if 0 ∈ segment then [cutNul segment] else segment :: cutSegments segments

theorem cutNul_splitOn {segments : List Bytes} (hne : segments ≠ [])
    (fresh : ∀ segment ∈ segments, slash ∉ segment) :
    (cutNul ([slash].intercalate segments)).splitOn slash = cutSegments segments := by
  have hcut : ∀ {segment : Bytes}, slash ∉ segment → slash ∉ cutNul segment :=
    fun h hmem => h (List.takeWhile_subset _ hmem)
  induction segments with
  | nil => exact False.elim (hne rfl)
  | cons segment segments ih =>
    have hsegment := fresh segment List.mem_cons_self
    by_cases hmore : segments = []
    · subst hmore
      rw [intercalate_singleton, splitOn_piece (hcut hsegment), cutSegments]
      split
      · rfl
      · rename_i hnul
        rw [cutNul_fresh hnul]
        rfl
    · rw [intercalate_cons hmore, cutSegments]
      split
      · rename_i hnul
        rw [cutNul_of_mem hnul, splitOn_piece (hcut hsegment)]
      · rename_i hnul
        have hslash : cutNul (slash :: [slash].intercalate segments) =
            slash :: cutNul ([slash].intercalate segments) := by
          simp [cutNul, show slash ≠ 0 by decide]
        rw [cutNul_append hnul, hslash, splitOn_more hsegment,
          ih hmore fun s hs => fresh s (List.mem_cons_of_mem _ hs)]

theorem cutSegments_walked {segments : List Bytes} (walked : ∀ segment ∈ segments, Walked segment) :
    (∀ segment ∈ cutSegments segments, Walked segment) ↔ ¬ NulDots segments := by
  induction segments with
  | nil => simp [cutSegments, NulDots]
  | cons segment segments ih =>
    have hrest := ih fun s hs => walked s (List.mem_cons_of_mem _ hs)
    by_cases hnul : 0 ∈ segment
    · have hdot : cutNul segment = dotSegment ↔ dotSegment ++ [0] <+: segment :=
        cutNul_eq_iff hnul (by decide)
      have hdots : cutNul segment = dotDotSegment ↔ dotDotSegment ++ [0] <+: segment :=
        cutNul_eq_iff hnul (by decide)
      have hhead : NulDots (segment :: segments) ↔
          dotSegment ++ [0] <+: segment ∨ dotDotSegment ++ [0] <+: segment := by
        constructor
        · rintro ⟨front, segment', back, hcut, hfront, h⟩
          cases front with
          | nil =>
            obtain ⟨rfl, -⟩ := List.cons.inj hcut
            exact h
          | cons first front =>
            obtain ⟨rfl, -⟩ := List.cons.inj hcut
            exact False.elim (hfront _ List.mem_cons_self hnul)
        · exact fun h => ⟨[], segment, segments, rfl, by simp, h⟩
      rw [hhead, cutSegments, if_pos hnul, ← hdot, ← hdots, not_or]
      simp [Walked]
    · have htail : NulDots (segment :: segments) ↔ NulDots segments := by
        constructor
        · rintro ⟨front, segment', back, hcut, hfront, h⟩
          cases front with
          | nil =>
            obtain ⟨rfl, -⟩ := List.cons.inj hcut
            have hmem : ∀ dots : Bytes, dots ++ [0] <+: segment → (0 : UInt8) ∈ segment :=
              fun dots hpre => hpre.subset (by simp)
            rcases h with h | h <;> exact False.elim (hnul (hmem _ h))
          | cons first front =>
            obtain ⟨-, rfl⟩ := List.cons.inj hcut
            exact ⟨front, segment', back, rfl, fun p hp => hfront p (List.mem_cons_of_mem _ hp), h⟩
        · rintro ⟨front, segment', back, rfl, hfront, h⟩
          refine ⟨segment :: front, segment', back, rfl, ?_, h⟩
          intro piece hpiece
          rcases List.mem_cons.mp hpiece with rfl | hmem
          · exact hnul
          · exact hfront piece hmem
      rw [htail, ← hrest, cutSegments, if_neg hnul]
      simp [walked segment List.mem_cons_self]

theorem decode_escaped {text : Bytes} (h : Escaped (fun _ => True) text) :
    percentDecode (resolveEscapes text) = percentDecode text := by
  induction h with
  | nil => rfl
  | plain bare tail ih =>
    rw [resolveEscapes_plain bare, percentDecode_plain bare, percentDecode_plain bare, ih]
  | @escape highCh lowCh high low rest isHigh isLow byte tail ih =>
    rw [percentDecode_escape isHigh isLow, ← ih, resolveEscapes_tokens, tokens_escape isHigh isLow,
      List.flatMap_cons, ← resolveEscapes_tokens]
    exact @decode_resolved_cons (.escape highCh lowCh high low) ⟨isHigh, isLow⟩
      Token.noConfusion _

theorem standing_escaped {path : Bytes} (h : Escaped (fun _ => True) path) :
    ∀ raw ∈ standing path, Escaped (fun _ => True) raw := by
  have hbody : ∀ body : Bytes, Escaped (fun _ => True) body →
      ∀ raw ∈ standingOf (body.splitOn slash), Escaped (fun _ => True) raw := by
    intro body hescaped raw hraw
    rcases mem_standingOf hraw with rfl | ⟨hmem, -⟩
    · exact .nil
    · exact hescaped.piece hmem
  unfold standing
  split
  · rename_i habsolute
    obtain ⟨rest, rfl⟩ := List.head?_eq_some_iff.mp habsolute
    intro raw hraw
    rcases List.mem_cons.mp hraw with rfl | hmem
    · exact .nil
    · exact hbody rest (@Escaped.cut _ _ [] _ slash_bare.1 slash_bare.2 h).2 raw hmem
  · exact hbody path h

/-- What is joined to a directory by its C name stays under it, unless a NUL cuts a segment
down to a dot segment. -/
theorem TakesRest.cut {segment : Segment} {raws : List Bytes}
    (h : TakesRest segment (raws.map resolveEscapes))
    (escaped : ∀ raw ∈ raws, Escaped (fun _ => True) raw)
    (bare : ∀ piece ∈ raws.map resolveEscapes, slash ∉ piece)
    (good : ∀ piece ∈ raws.map resolveEscapes, Walked piece ∧
      Escaped (fun byte => asciiUnreserved byte = false) piece) :
    (∀ piece ∈ (cutNul (percentDecode ([slash].intercalate
        (raws.map resolveEscapes)))).splitOn slash, Walked piece) ↔
      ¬ NulDots (raws.map percentDecode) := by
  have hne : raws ≠ [] := by
    rintro rfl
    simpa using h.stands
  have hdecode := percentDecode_intercalate fun piece hmem => (good piece hmem).2
  have hvalues : (raws.map resolveEscapes).map percentDecode = raws.map percentDecode := by
    rw [List.map_map]
    exact List.map_congr_left fun raw hraw => decode_escaped (escaped raw hraw)
  have hcount := h.separators
  rw [hdecode] at hcount
  have hfresh := fresh_of_count (by simpa using hne) (by simp) bare hcount
  rw [hvalues] at hfresh
  rw [hdecode, hvalues, cutNul_splitOn (by simpa using hne) hfresh]
  apply cutSegments_walked
  rw [← hvalues]
  intro value hvalue
  obtain ⟨piece, hpiece, rfl⟩ := List.mem_map.mp hvalue
  exact walked_decode (good piece hpiece).1 (good piece hpiece).2

namespace Router
variable {η : Type}

/-- A capture of the rest stays under its directory as a C string too, exactly when the raw
segments it stands for do not decode to a dot segment in front of the first NUL. -/
theorem rest_cut (router : Router η) (method : Method) {line : Bytes} {parsed : RequestLine}
    (h : parseRequestLine line = .ok parsed) {handler : η}
    (found : (router.find method parsed.target).handler = some handler) :
    ∃ route ∈ router.routes, route.handler = handler ∧
      route.pattern.matches (routablePath parsed.target) true =
        some (router.find method parsed.target).params ∧
      ∀ (i : Nat) (segment : Segment), route.pattern[i]? = some segment →
        segment.capture = .rest → ∃ value,
          (router.find method parsed.target).params.entries.getLast? =
            some ⟨segment.text, value⟩ ∧
          ((∀ piece ∈ (cutNul value).splitOn slash, piece ≠ bytes "." ∧ piece ≠ bytes "..") ↔
            ¬ NulDots (((standing (pathOf parsed.target)).drop i).map percentDecode)) := by
  have hescaped := pathOf_escaped (Escaped.of_valid (parseRequestLine_sound h).2.escapes)
  obtain ⟨route, hmem, hhandler, hmatch⟩ := find_some_route found
  refine ⟨route, hmem, hhandler, hmatch, ?_⟩
  intro i segment position isRest
  obtain ⟨-, htakes, hentry⟩ := (matches_iff.mp hmatch).rest_last position isRest
  refine ⟨_, hentry, ?_⟩
  have hpieces : ((routablePath parsed.target).splitOn slash).drop i =
      ((standing (pathOf parsed.target)).drop i).map resolveEscapes := by
    rw [routablePath, normalizePath_standing, List.map_drop]
  rw [hpieces] at htakes ⊢
  apply htakes.cut
  · exact fun raw hraw => standing_escaped hescaped raw (List.mem_of_mem_drop hraw)
  · intro piece hpiece
    rw [← hpieces] at hpiece
    exact not_mem_piece (List.mem_of_mem_drop hpiece)
  · intro piece hpiece
    rw [← hpieces] at hpiece
    exact normalizePath_segments hescaped (List.mem_of_mem_drop hpiece)

/-- A file without a NUL in its name. -/
theorem rest_cut_file : ¬ NulDots [bytes "a b", bytes "c"] := by
  let router : Router Nat := ({} : Router Nat).add .get (bytes "/files/<path:name>") 7
  let parsed : RequestLine := ⟨.get, bytes "/files/./%61%20b/c", .http11⟩
  obtain ⟨route, hroute, -, -, h⟩ := @rest_cut Nat router .get parsed.text parsed
    (by decide +kernel) 7 (by decide)
  have hpattern : route.pattern[2]? = some ⟨bytes "name", .rest⟩ := by
    rw [List.mem_singleton.mp hroute]
    decide
  obtain ⟨value, hentry, hiff⟩ := h 2 _ hpattern rfl
  have hlast : (router.find .get parsed.target).params.entries.getLast? =
      some ⟨bytes "name", bytes "a b/c"⟩ := by decide
  have hparts : ((standing (pathOf parsed.target)).drop 2).map percentDecode =
      [bytes "a b", bytes "c"] := by decide
  rw [hlast] at hentry
  cases hentry
  rw [hparts] at hiff
  exact hiff.mp (by decide)

/-- `..%00x` is no dot segment, but `open` takes it for one. -/
theorem rest_escapes : ¬ ∀ (router : Router Nat) (method : Method) (line : Bytes)
    (parsed : RequestLine) (route : Route Nat), parseRequestLine line = .ok parsed →
    route ∈ router.routes → (router.find method parsed.target).handler = some route.handler →
    route.pattern.matches (routablePath parsed.target) true =
      some (router.find method parsed.target).params →
    ∀ (i : Nat) (segment : Segment) (value : Bytes), route.pattern[i]? = some segment →
      segment.capture = .rest →
      (router.find method parsed.target).params.entries.getLast? = some ⟨segment.text, value⟩ →
      ∀ piece ∈ (cutNul value).splitOn slash, piece ≠ bytes "." ∧ piece ≠ bytes ".." := by
  intro claim
  have hpieces := claim (({} : Router Nat).add .get (bytes "/files/<path:name>") 7) .get
    (bytes "GET /files/..%00x HTTP/1.1") ⟨.get, bytes "/files/..%00x", .http11⟩
    ⟨.get, compile (bytes "/files/<path:name>"), 7⟩ (by decide +kernel)
    (List.mem_singleton.mpr rfl) (by decide) (by decide) 2 ⟨bytes "name", .rest⟩
    (bytes ".." ++ 0 :: bytes "x") (by decide) rfl (by decide)
  exact absurd hpieces (by decide)

end Router

end Carafe.Server
