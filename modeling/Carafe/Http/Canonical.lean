import Carafe.Http.RawPath

/-!
# One spelling for each path

Behind both passes of `normalize_path` an escape stands for a byte that needs one and
is written in uppercase, and no segment is a dot segment. Neither pass has anything
left to do on such a path, and paths that are told apart only by how their escapes
are written end up the same.
-/

namespace Carafe.Http
open Segments

/-- Every percent sign opens an escape that the first pass leaves as it is. -/
inductive Settled : Bytes → Prop where
  | nil : Settled []
  | plain {ch : UInt8} {rest : Bytes} (bare : ch ≠ percent) (tail : Settled rest) :
      Settled (ch :: rest)
  | escape {high low : Nat} {rest : Bytes} (hhigh : high < 16) (hlow : low < 16)
      (reserved : asciiUnreserved (escapedByte high low) = false) (tail : Settled rest) :
      Settled (percent :: asciiHexDigit high :: asciiHexDigit low :: rest)

theorem Escaped.settled {text : Bytes} (h : Escaped (fun _ => True) text) :
    Settled (resolveEscapes text) := by
  induction h with
  | nil => exact .nil
  | plain bare tail ih =>
    rw [resolveEscapes_plain bare]
    exact .plain bare ih
  | escape isHigh isLow byte tail ih =>
    simp only [resolveEscapes, ne_eq, not_true_eq_false, if_false, isHigh, isLow]
    split
    · rename_i unreserved
      refine .plain ?_ ih
      rintro heq
      rw [heq] at unreserved
      exact absurd unreserved (by decide)
    · rename_i reserved
      exact .escape (asciiHexValue_lt isHigh) (asciiHexValue_lt isLow) (by simpa using reserved) ih

theorem hasValidEscapes_plain {ch : UInt8} (bare : ch ≠ percent) (rest : Bytes) :
    hasValidEscapes (ch :: rest) = hasValidEscapes rest := by
  rcases rest with - | ⟨-, - | -⟩ <;> simp [hasValidEscapes, bare]

namespace Settled
variable {text : Bytes}

theorem resolve (h : Settled text) : resolveEscapes text = text := by
  induction h with
  | nil => rfl
  | plain bare tail ih => rw [resolveEscapes_plain bare, ih]
  | escape hhigh hlow reserved tail ih =>
    simp [resolveEscapes, asciiHexValue_digit hhigh, asciiHexValue_digit hlow, reserved, ih]

theorem join {front back : Bytes} (hfront : Settled front) (hback : Settled back) :
    Settled (front ++ slash :: back) := by
  induction hfront with
  | nil => exact .plain slash_bare.1 hback
  | plain bare tail ih => exact .plain bare ih
  | escape hhigh hlow reserved tail ih => exact .escape hhigh hlow reserved ih

theorem of_pieces (h : ∀ piece ∈ text.splitOn slash, Settled piece) : Settled text := by
  induction text using Segments.induction slash with
  | last piece fresh =>
    rw [splitOn_piece fresh] at h
    exact h piece (List.mem_singleton.mpr rfl)
  | more piece rest fresh ih =>
    rw [splitOn_more fresh] at h
    exact join (h piece List.mem_cons_self) (ih fun p hp => h p (List.mem_cons_of_mem _ hp))

theorem digit_facts {value : Nat} (h : value < 16) : isHexDigit (asciiHexDigit value) = true ∧
    asciiHexDigit value ≠ percent ∧ asciiHexDigit value ∉ bytes "abcdef" := by
  have hall : ∀ value : Fin 16, isHexDigit (asciiHexDigit value) = true ∧
      asciiHexDigit value ≠ percent ∧ asciiHexDigit value ∉ bytes "abcdef" := by
    decide
  exact hall ⟨value, h⟩

theorem valid (h : Settled text) : hasValidEscapes text = true := by
  induction h with
  | nil => rfl
  | plain bare tail ih => rwa [hasValidEscapes_plain bare]
  | escape hhigh hlow reserved tail ih =>
    simp [hasValidEscapes, (digit_facts hhigh).1, (digit_facts hlow).1, ih]

/-- Wherever an escape stands in the text, it stands for a byte that needs one. -/
theorem at_escape (h : Settled text) {front back : Bytes} {highCh lowCh : UInt8}
    (cut : text = front ++ percent :: highCh :: lowCh :: back) :
    ∃ high low, high < 16 ∧ low < 16 ∧ highCh = asciiHexDigit high ∧ lowCh = asciiHexDigit low ∧
      asciiUnreserved (escapedByte high low) = false := by
  induction h generalizing front with
  | nil => simp at cut
  | plain bare tail ih =>
    cases front with
    | nil => exact absurd (List.cons.inj cut).1 bare
    | cons ch front => exact ih (List.cons.inj cut).2
  | @escape high low rest hhigh hlow reserved tail ih =>
    rcases escape_cut (digit_facts hhigh).2.1 (digit_facts hlow).2.1 cut with
      ⟨-, -, hrest⟩ | ⟨front, rfl, hrest⟩
    · simp only [List.cons.injEq] at hrest
      exact ⟨high, low, hhigh, hlow, hrest.1.symm, hrest.2.1.symm, reserved⟩
    · exact ih hrest

end Settled

theorem normalizePath_settled {path : Bytes} (h : Escaped (fun _ => True) path) :
    Settled (normalizePath path) := by
  refine Settled.of_pieces fun piece hpiece => ?_
  have hpieces : ∀ piece ∈ (resolveEscapes path).splitOn slash, Settled piece := by
    intro piece hmem
    rw [resolveEscapes_splitOn] at hmem
    obtain ⟨raw, hraw, rfl⟩ := List.mem_map.mp hmem
    exact (h.piece hraw).settled
  exact (removeDotSegments_segments .nil hpieces piece hpiece).2

theorem SegmentWalk.foldl_walked {pieces : List Bytes} (h : ∀ piece ∈ pieces, Walked piece)
    (kept : List Bytes) :
    pieces.foldl SegmentWalk.next ⟨kept, false⟩ = ⟨kept ++ pieces, false⟩ := by
  induction pieces generalizing kept with
  | nil => simp
  | cons piece pieces ih =>
    obtain ⟨hdot, hdots⟩ := h piece List.mem_cons_self
    rw [List.foldl_cons, SegmentWalk.next, if_neg hdot, if_neg hdots,
      ih fun p hp => h p (List.mem_cons_of_mem _ hp)]
    simp

theorem removeDotSegments_walked {path : Bytes} (h : ∀ piece ∈ path.splitOn slash, Walked piece) :
    removeDotSegments path = path := by
  by_cases habsolute : path.head? = some slash
  · obtain ⟨rest, rfl⟩ := List.head?_eq_some_iff.mp habsolute
    rw [splitOn_slash] at h
    have hwalk := SegmentWalk.foldl_walked (fun p hp => h p (List.mem_cons_of_mem _ hp)) []
    simp only [removeDotSegments, List.head?_cons, if_true, List.drop_one, List.tail_cons, hwalk]
    simp [List.intercalate_splitOn]
  · have hwalk := SegmentWalk.foldl_walked h []
    simp only [removeDotSegments, habsolute, if_false, hwalk]
    simp [List.intercalate_splitOn]

/-- Paths that differ in the case of hex digits and in whether unreserved bytes are escaped. -/
inductive Respelled : Bytes → Bytes → Prop where
  | nil : Respelled [] []
  | plain {ch : UInt8} {path other : Bytes} (bare : ch ≠ percent) (tail : Respelled path other) :
      Respelled (ch :: path) (ch :: other)
  | cases {highCh lowCh highCh' lowCh' : UInt8} {high low : Nat} {path other : Bytes}
      (isHigh : asciiHexValue highCh = some high) (isLow : asciiHexValue lowCh = some low)
      (isHigh' : asciiHexValue highCh' = some high) (isLow' : asciiHexValue lowCh' = some low)
      (tail : Respelled path other) :
      Respelled (percent :: highCh :: lowCh :: path) (percent :: highCh' :: lowCh' :: other)
  | unescaped {highCh lowCh : UInt8} {high low : Nat} {path other : Bytes}
      (isHigh : asciiHexValue highCh = some high) (isLow : asciiHexValue lowCh = some low)
      (unreserved : asciiUnreserved (escapedByte high low) = true) (tail : Respelled path other) :
      Respelled (percent :: highCh :: lowCh :: path) (escapedByte high low :: other)
  | escaped {highCh lowCh : UInt8} {high low : Nat} {path other : Bytes}
      (isHigh : asciiHexValue highCh = some high) (isLow : asciiHexValue lowCh = some low)
      (unreserved : asciiUnreserved (escapedByte high low) = true) (tail : Respelled path other) :
      Respelled (escapedByte high low :: path) (percent :: highCh :: lowCh :: other)

theorem resolveEscapes_escape {highCh lowCh : UInt8} {high low : Nat}
    (isHigh : asciiHexValue highCh = some high) (isLow : asciiHexValue lowCh = some low)
    (rest : Bytes) : resolveEscapes (percent :: highCh :: lowCh :: rest) =
      (if asciiUnreserved (escapedByte high low) then [escapedByte high low]
        else [percent, asciiHexDigit high, asciiHexDigit low]) ++ resolveEscapes rest := by
  simp only [resolveEscapes, ne_eq, not_true_eq_false, if_false, isHigh, isLow]
  split <;> rfl

theorem unreserved_bare {ch : UInt8} (h : asciiUnreserved ch = true) : ch ≠ percent := by
  rintro rfl
  exact absurd h (by decide)

theorem Respelled.resolve {path other : Bytes} (h : Respelled path other) :
    resolveEscapes path = resolveEscapes other := by
  induction h with
  | nil => rfl
  | plain bare tail ih => rw [resolveEscapes_plain bare, resolveEscapes_plain bare, ih]
  | cases isHigh isLow isHigh' isLow' tail ih =>
    rw [resolveEscapes_escape isHigh isLow, resolveEscapes_escape isHigh' isLow', ih]
  | unescaped isHigh isLow unreserved tail ih =>
    rw [resolveEscapes_escape isHigh isLow, if_pos unreserved,
      resolveEscapes_plain (unreserved_bare unreserved), ih]
    rfl
  | escaped isHigh isLow unreserved tail ih =>
    rw [resolveEscapes_escape isHigh isLow, if_pos unreserved,
      resolveEscapes_plain (unreserved_bare unreserved), ih]
    rfl

/-- No dot segment, and no escape that could be written otherwise. -/
structure Canonical (path : Bytes) : Prop where
  noDots : ∀ segment ∈ path.splitOn slash, segment ≠ bytes "." ∧ segment ≠ bytes ".."
  wellFormed : hasValidEscapes path = true
  needed : ∀ front highCh lowCh back high low,
    path = front ++ percent :: highCh :: lowCh :: back → asciiHexValue highCh = some high →
      asciiHexValue lowCh = some low → asciiUnreserved (escapedByte high low) = false
  uppercase : ∀ front highCh lowCh back, path = front ++ percent :: highCh :: lowCh :: back →
    highCh ∉ bytes "abcdef" ∧ lowCh ∉ bytes "abcdef"

theorem normalizePath_escapes {path : Bytes} (h : Escaped (fun _ => True) path) :
    Canonical (normalizePath path) where
  noDots := fun _ hsegment => (normalizePath_segments h hsegment).1
  wellFormed := (normalizePath_settled h).valid
  needed := by
    intro front highCh lowCh back high low cut isHigh isLow
    obtain ⟨high', low', hhigh, hlow, rfl, rfl, reserved⟩ := (normalizePath_settled h).at_escape cut
    rw [asciiHexValue_digit hhigh] at isHigh
    rw [asciiHexValue_digit hlow] at isLow
    rwa [← Option.some.inj isHigh, ← Option.some.inj isLow]
  uppercase := by
    intro front highCh lowCh back cut
    obtain ⟨high, low, hhigh, hlow, rfl, rfl, -⟩ := (normalizePath_settled h).at_escape cut
    exact ⟨(Settled.digit_facts hhigh).2.2, (Settled.digit_facts hlow).2.2⟩

/-- A path with well-formed escapes has one normal form, and shares it with its respellings. -/
theorem normalizePath_canonical {path : Bytes} (wellFormed : hasValidEscapes path = true) :
    Canonical (normalizePath path) ∧ normalizePath (normalizePath path) = normalizePath path ∧
      ∀ other, Respelled path other → normalizePath other = normalizePath path := by
  have h := Escaped.of_valid wellFormed
  refine ⟨normalizePath_escapes h, ?_, ?_⟩
  · have hresolved := (normalizePath_settled h).resolve
    rw [normalizePath, hresolved]
    exact removeDotSegments_walked fun _ hpiece => (normalizePath_segments h hpiece).1
  · intro other respelled
    rw [normalizePath, normalizePath, respelled.resolve]

theorem normalizePath_canonical_detour :
    normalizePath (normalizePath (bytes "/a%2f/%7e/.%2E//b/.")) = bytes "/a%2F//b/" := by
  have wellFormed : hasValidEscapes (bytes "/a%2f/%7e/.%2E//b/.") = true := by decide +kernel
  have hnormal : normalizePath (bytes "/a%2f/%7e/.%2E//b/.") = bytes "/a%2F//b/" := by
    decide +kernel
  rw [(normalizePath_canonical wellFormed).2.1, hnormal]

end Carafe.Http
