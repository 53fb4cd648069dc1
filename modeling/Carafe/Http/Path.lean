import Carafe.Http.RequestParser
import Carafe.Library.Segments

/-!
# Path normalisation

`normalize_path` in its two passes: escapes of unreserved characters are resolved
and the others spelled in uppercase, then dot segments are walked off. What the
passes leave behind is stated per segment, since a path is matched by segments.
-/

namespace Carafe.Http
open Segments

def slash : UInt8 := '/'.toUInt8
def dotSegment : Bytes := bytes "."
def dotDotSegment : Bytes := bytes ".."

/-- The byte two hex digits stand for. -/
def escapedByte (high low : Nat) : UInt8 := (high <<< 4 ||| low).toUInt8

def resolveEscapes : Bytes → Bytes
  | ch :: highCh :: lowCh :: tail =>
    if ch ≠ percent then ch :: resolveEscapes (highCh :: lowCh :: tail)
    else match asciiHexValue highCh, asciiHexValue lowCh with
      | some high, some low =>
        if asciiUnreserved (escapedByte high low) then escapedByte high low :: resolveEscapes tail
        else percent :: asciiHexDigit high :: asciiHexDigit low :: resolveEscapes tail
      | _, _ => ch :: resolveEscapes (highCh :: lowCh :: tail)
  -- Too little is left for an escape.
  | ch :: rest => ch :: resolveEscapes rest
  | [] => []

/-- The segments kept so far, and whether the last one seen was a dot segment. -/
structure SegmentWalk where
  kept : List Bytes := []
  endedOnDots : Bool := false

def SegmentWalk.next (walk : SegmentWalk) (segment : Bytes) : SegmentWalk :=
  if segment = dotSegment then { walk with endedOnDots := true }
  else if segment = dotDotSegment then { kept := walk.kept.dropLast, endedOnDots := true }
  else { kept := walk.kept ++ [segment], endedOnDots := false }

def removeDotSegments (path : Bytes) : Bytes :=
  let absolute := path.head? = some slash
  let body := if absolute then path.drop 1 else path
  -- A body that ends in a slash has one more segment, which is empty.
  let walk := (body.splitOn slash).foldl SegmentWalk.next {}
  let kept := if walk.endedOnDots then walk.kept ++ [[]] else walk.kept
  (if absolute then [slash] else []) ++ [slash].intercalate kept

def normalizePath (path : Bytes) : Bytes := removeDotSegments (resolveEscapes path)

/-- Every percent sign opens an escape, of a byte that is allowed. -/
inductive Escaped (allowed : UInt8 → Prop) : Bytes → Prop where
  | nil : Escaped allowed []
  | plain {ch : UInt8} {rest : Bytes} (bare : ch ≠ percent) (tail : Escaped allowed rest) :
      Escaped allowed (ch :: rest)
  | escape {highCh lowCh : UInt8} {high low : Nat} {rest : Bytes}
      (isHigh : asciiHexValue highCh = some high) (isLow : asciiHexValue lowCh = some low)
      (byte : allowed (escapedByte high low)) (tail : Escaped allowed rest) :
      Escaped allowed (percent :: highCh :: lowCh :: rest)

theorem isHexDigit_value {ch : UInt8} (h : isHexDigit ch = true) :
    ∃ value, asciiHexValue ch = some value := by
  have hall : ∀ ch : UInt8, isHexDigit ch = true → (asciiHexValue ch).isSome = true := by
    refine forall_byte ?_
    decide +kernel
  exact Option.isSome_iff_exists.mp (hall ch h)

/-- The parser lets a target through only when all its escapes are well formed. -/
theorem Escaped.of_valid {text : Bytes} (h : hasValidEscapes text = true) :
    Escaped (fun _ => True) text := by
  fun_induction hasValidEscapes text with
  | case1 => exact .nil
  | case2 ch rest bare ih => exact .plain bare (ih h)
  | case3 ch bare high low tail ih =>
    simp only [Bool.and_eq_true] at h
    obtain ⟨_, isHigh⟩ := isHexDigit_value h.1.1
    obtain ⟨_, isLow⟩ := isHexDigit_value h.1.2
    rw [not_not.mp bare]
    exact .escape isHigh isLow trivial (ih h.2)
  | case4 => cases h

/-- A byte that is neither of its digits is found in front of an escape or behind it. -/
theorem escape_cut {x highCh lowCh : UInt8} {tail front back : Bytes} (hhigh : highCh ≠ x)
    (hlow : lowCh ≠ x) (h : percent :: highCh :: lowCh :: tail = front ++ x :: back) :
    (front = [] ∧ percent = x ∧ highCh :: lowCh :: tail = back) ∨
      ∃ rest, front = percent :: highCh :: lowCh :: rest ∧ tail = rest ++ x :: back := by
  rcases front with _ | ⟨_, _ | ⟨_, _ | ⟨_, front⟩⟩⟩
  · obtain ⟨hpercent, hback⟩ := List.cons.inj h
    exact Or.inl ⟨rfl, hpercent, hback⟩
  · simp only [List.cons_append, List.nil_append, List.cons.injEq] at h
    exact absurd h.2.1 hhigh
  · simp only [List.cons_append, List.nil_append, List.cons.injEq] at h
    exact absurd h.2.2.1 hlow
  · simp only [List.cons_append, List.cons.injEq] at h
    obtain ⟨rfl, rfl, rfl, hrest⟩ := h
    exact Or.inr ⟨front, rfl, hrest⟩

/-- A byte that is no part of an escape can be a place to cut. -/
theorem Escaped.cut {allowed : UInt8 → Prop} {x : UInt8} {front back : Bytes}
    (bare : x ≠ percent) (noDigit : asciiHexValue x = none)
    (h : Escaped allowed (front ++ x :: back)) : Escaped allowed front ∧ Escaped allowed back := by
  generalize htext : front ++ x :: back = text at h
  induction h generalizing front with
  | nil => simp at htext
  | plain hch tail ih =>
    cases front with
    | nil =>
      obtain ⟨-, rfl⟩ := List.cons.inj htext
      exact ⟨.nil, tail⟩
    | cons ch front =>
      obtain ⟨rfl, hrest⟩ := List.cons.inj htext
      obtain ⟨hfront, hback⟩ := ih hrest
      exact ⟨.plain hch hfront, hback⟩
  | @escape highCh lowCh high low rest isHigh isLow byte tail ih =>
    have noEscape : ∀ {ch : UInt8} {digit : Nat}, asciiHexValue ch = some digit → ch ≠ x := by
      rintro ch digit isDigit rfl
      rw [noDigit] at isDigit
      cases isDigit
    rcases escape_cut (noEscape isHigh) (noEscape isLow) htext.symm with
      ⟨-, hpercent, -⟩ | ⟨front, rfl, hrest⟩
    · exact absurd hpercent.symm bare
    · obtain ⟨hfront, hback⟩ := ih hrest.symm
      exact ⟨.escape isHigh isLow byte hfront, hback⟩

theorem slash_bare : slash ≠ percent ∧ asciiHexValue slash = none := by decide

theorem Escaped.piece {allowed : UInt8 → Prop} {text piece : Bytes} (h : Escaped allowed text)
    (hpiece : piece ∈ text.splitOn slash) : Escaped allowed piece := by
  induction text using Segments.induction slash with
  | last front fresh =>
    rw [splitOn_piece fresh, List.mem_singleton] at hpiece
    rwa [hpiece]
  | more front rest fresh ih =>
    obtain ⟨hfront, hrest⟩ := h.cut slash_bare.1 slash_bare.2
    rw [splitOn_more fresh] at hpiece
    rcases List.mem_cons.mp hpiece with rfl | hmem
    · exact hfront
    · exact ih hrest hmem

theorem asciiHexValue_digit {value : Nat} (h : value < 16) :
    asciiHexValue (asciiHexDigit value) = some value := by
  have hall : ∀ value : Fin 16, asciiHexValue (asciiHexDigit value) = some value.val := by
    decide
  exact hall ⟨value, h⟩

theorem resolveEscapes_plain {ch : UInt8} (bare : ch ≠ percent) (rest : Bytes) :
    resolveEscapes (ch :: rest) = ch :: resolveEscapes rest := by
  match rest with
  | [] => rfl
  | [_] => rfl
  | _ :: _ :: _ => rw [resolveEscapes, if_pos bare]

/-- The first pass leaves no escape behind that it could have resolved. -/
theorem Escaped.resolve {text : Bytes} (h : Escaped (fun _ => True) text) :
    Escaped (fun byte => asciiUnreserved byte = false) (resolveEscapes text) := by
  induction h with
  | nil => exact .nil
  | @plain ch rest bare tail ih =>
    rw [resolveEscapes_plain bare]
    exact .plain bare ih
  | @escape highCh lowCh high low rest isHigh isLow byte tail ih =>
    simp only [resolveEscapes, ne_eq, not_true_eq_false, if_false, isHigh, isLow]
    split
    · rename_i unreserved
      refine .plain ?_ ih
      rintro heq
      rw [heq] at unreserved
      exact absurd unreserved (by decide)
    · rename_i reserved
      exact .escape (asciiHexValue_digit (asciiHexValue_lt isHigh))
        (asciiHexValue_digit (asciiHexValue_lt isLow)) (by simpa using reserved) ih

/-- A segment that no dot segment is left in. -/
def Walked (segment : Bytes) : Prop := segment ≠ dotSegment ∧ segment ≠ dotDotSegment

theorem Walked.nil : Walked [] := by
  simp [Walked, dotSegment, dotDotSegment, bytes]

/-- What is kept of some segments: segments of the body that are no dot segments. -/
theorem SegmentWalk.next_kept {P : Bytes → Prop} {walk : SegmentWalk} {segment : Bytes}
    (hwalk : ∀ kept ∈ walk.kept, Walked kept ∧ P kept) (hsegment : P segment) :
    ∀ kept ∈ (walk.next segment).kept, Walked kept ∧ P kept := by
  unfold SegmentWalk.next
  split
  · exact hwalk
  split
  · intro kept hkept
    exact hwalk kept (List.mem_of_mem_dropLast hkept)
  · rename_i hdot hdots
    intro kept hkept
    rcases List.mem_append.mp hkept with h | h
    · exact hwalk kept h
    · rw [List.mem_singleton.mp h]
      exact ⟨⟨hdot, hdots⟩, hsegment⟩

theorem SegmentWalk.foldl_kept {P : Bytes → Prop} {segments : List Bytes} {walk : SegmentWalk}
    (hwalk : ∀ kept ∈ walk.kept, Walked kept ∧ P kept) (hsegments : ∀ segment ∈ segments, P segment) :
    ∀ kept ∈ (segments.foldl SegmentWalk.next walk).kept, Walked kept ∧ P kept := by
  induction segments generalizing walk with
  | nil => exact hwalk
  | cons segment segments ih =>
    have hnext := SegmentWalk.next_kept hwalk (hsegments segment List.mem_cons_self)
    exact ih hnext fun s hs => hsegments s (List.mem_cons_of_mem _ hs)

/-- A walk over at least one segment ends on dots or keeps its last segment. -/
theorem SegmentWalk.foldl_nonempty {segments : List Bytes} (walk : SegmentWalk)
    (h : segments ≠ []) : (segments.foldl SegmentWalk.next walk).endedOnDots = true ∨
      (segments.foldl SegmentWalk.next walk).kept ≠ [] := by
  rw [← List.dropLast_append_getLast h, List.foldl_append]
  simp only [List.foldl_cons, List.foldl_nil]
  generalize segments.dropLast.foldl SegmentWalk.next walk = before
  unfold SegmentWalk.next
  split
  · exact Or.inl rfl
  split
  · exact Or.inl rfl
  · exact Or.inr (by simp)

theorem splitOn_slash (rest : Bytes) : (slash :: rest).splitOn slash = [] :: rest.splitOn slash :=
  splitOn_more List.not_mem_nil rest

/-- Behind the second pass the path is cut into kept segments. -/
theorem removeDotSegments_segments {P : Bytes → Prop} {path : Bytes} (empty : P [])
    (h : ∀ segment ∈ path.splitOn slash, P segment) :
    ∀ segment ∈ (removeDotSegments path).splitOn slash, Walked segment ∧ P segment := by
  unfold removeDotSegments
  dsimp only
  generalize hbody : (if path.head? = some slash then path.drop 1 else path) = body
  have hsegments : ∀ segment ∈ body.splitOn slash, slash ∉ segment ∧ P segment := by
    intro segment hsegment
    refine ⟨not_mem_piece hsegment, h segment ?_⟩
    split at hbody
    · rename_i habsolute
      obtain ⟨rest, rfl⟩ := List.head?_eq_some_iff.mp habsolute
      rw [List.drop_one, List.tail_cons] at hbody
      rw [splitOn_slash, hbody]
      exact List.mem_cons_of_mem _ hsegment
    · rwa [hbody]
  have hkept := @SegmentWalk.foldl_kept _ _ {} (by simp) hsegments
  have hends := SegmentWalk.foldl_nonempty {} (List.splitOn_ne_nil slash body)
  generalize (body.splitOn slash).foldl SegmentWalk.next {} = walk at hkept hends
  generalize hjoined : (if walk.endedOnDots = true then walk.kept ++ [[]] else walk.kept) = joined
  have hall : ∀ segment ∈ joined, Walked segment ∧ slash ∉ segment ∧ P segment := by
    have hempty : Walked [] ∧ slash ∉ ([] : Bytes) ∧ P [] := ⟨.nil, by simp, empty⟩
    rw [← hjoined]
    split
    · intro segment hsegment
      rcases List.mem_append.mp hsegment with hold | hnew
      · exact hkept segment hold
      · rwa [List.mem_singleton.mp hnew]
    · exact hkept
  have hne : joined ≠ [] := by
    rw [← hjoined]
    rcases hends with hdots | hsome
    · simp [hdots]
    · split <;> simp [hsome]
  have hsplit : ([slash].intercalate joined).splitOn slash = joined :=
    List.splitOn_intercalate slash (fun segment hsegment => (hall segment hsegment).2.1) hne
  intro segment hsegment
  split at hsegment
  · rw [List.singleton_append, splitOn_slash, hsplit] at hsegment
    rcases List.mem_cons.mp hsegment with rfl | hmem
    · exact ⟨.nil, empty⟩
    · exact ⟨(hall segment hmem).1, (hall segment hmem).2.2⟩
  · rw [List.nil_append, hsplit] at hsegment
    exact ⟨(hall segment hsegment).1, (hall segment hsegment).2.2⟩

/-- The segments of a normalised path: none is a dot segment, and every percent sign left
opens an escape of a byte that is not unreserved. -/
theorem normalizePath_segments {path segment : Bytes} (h : Escaped (fun _ => True) path)
    (hsegment : segment ∈ (normalizePath path).splitOn slash) :
    Walked segment ∧ Escaped (fun byte => asciiUnreserved byte = false) segment :=
  removeDotSegments_segments .nil (fun _ hpiece => h.resolve.piece hpiece) segment hsegment

end Carafe.Http
