import Mathlib.Data.List.Basic

/-!
# Sequences cut at a separator

Cutting at every separator and joining again are inverse to each other; what is
true of every piece is proved piece by piece.
-/

namespace Segments

universe u
variable {α : Type u}

theorem intercalate_cons {x : α} {piece : List α} {pieces : List (List α)} (h : pieces ≠ []) :
    [x].intercalate (piece :: pieces) = piece ++ x :: [x].intercalate pieces := by
  cases pieces with
  | nil => exact False.elim (h rfl)
  | cons => simp [List.intercalate]

@[simp] theorem intercalate_singleton {x : α} (piece : List α) :
    [x].intercalate [piece] = piece := by
  simp [List.intercalate]

section Cut
variable [DecidableEq α]

/-- A sequence is one piece without the separator, or such a piece in front of more. -/
theorem induction {P : List α → Prop} (x : α) (last : ∀ piece, x ∉ piece → P piece)
    (more : ∀ piece rest, x ∉ piece → P rest → P (piece ++ x :: rest)) (xs : List α) : P xs := by
  have hfront : ∀ piece, x ∉ piece → P (piece ++ xs) := by
    induction xs with
    | nil =>
      intro piece fresh
      simpa using last piece fresh
    | cons y xs ih =>
      intro piece fresh
      by_cases hy : y = x
      · subst hy
        have hrest := ih [] (by simp)
        exact more piece xs fresh hrest
      · have hpiece : x ∉ piece ++ [y] := by
          simp only [List.mem_append, List.mem_singleton, not_or]
          exact ⟨fresh, fun h => hy h.symm⟩
        have h := ih (piece ++ [y]) hpiece
        simpa using h
  simpa using hfront [] (by simp)

theorem splitOn_piece {x : α} {piece : List α} (fresh : x ∉ piece) : piece.splitOn x = [piece] :=
  List.splitOn_eq_singleton fresh

theorem splitOn_more {x : α} {piece : List α} (fresh : x ∉ piece) (rest : List α) :
    (piece ++ x :: rest).splitOn x = piece :: rest.splitOn x :=
  List.splitOn_append_cons_self_of_not_mem fresh rest

/-- No piece holds the separator. -/
theorem not_mem_piece {x : α} {xs piece : List α} (h : piece ∈ xs.splitOn x) : x ∉ piece := by
  induction xs using induction x with
  | last front fresh =>
    rw [splitOn_piece fresh, List.mem_singleton] at h
    rwa [h]
  | more front rest fresh ih =>
    rw [splitOn_more fresh] at h
    rcases List.mem_cons.mp h with rfl | h
    · exact fresh
    · exact ih h

/-- The separators of a join: those between the pieces and those inside them. -/
theorem count_intercalate {x : α} {pieces : List (List α)} (h : pieces ≠ []) :
    ([x].intercalate pieces).count x + 1 = pieces.length + pieces.flatten.count x := by
  induction pieces with
  | nil => exact False.elim (h rfl)
  | cons piece pieces ih =>
    by_cases hne : pieces = []
    · subst hne
      rw [intercalate_singleton]
      simp [Nat.add_comm]
    · have hrest := ih hne
      rw [intercalate_cons hne, List.count_append, List.count_cons_self, List.length_cons,
        List.flatten_cons, List.count_append]
      omega

/-- Pieces without separators are joined by one fewer than there are pieces. -/
theorem count_intercalate_fresh {x : α} {pieces : List (List α)} (h : pieces ≠ [])
    (fresh : ∀ piece ∈ pieces, x ∉ piece) :
    ([x].intercalate pieces).count x + 1 = pieces.length := by
  have hzero : pieces.flatten.count x = 0 := by
    rw [List.count_eq_zero, List.mem_flatten]
    rintro ⟨piece, hpiece, hx⟩
    exact fresh piece hpiece hx
  rw [count_intercalate h, hzero, Nat.add_zero]

/-- A join has no more separators than another one of as many pieces without any only if
its pieces have none either. -/
theorem fresh_of_count {x : α} {pieces others : List (List α)} (hne : others ≠ [])
    (length : pieces.length = others.length) (fresh : ∀ piece ∈ others, x ∉ piece)
    (h : ([x].intercalate pieces).count x = ([x].intercalate others).count x) :
    ∀ piece ∈ pieces, x ∉ piece := by
  have hpieces : pieces ≠ [] := by
    rintro rfl
    exact hne (List.length_eq_zero_iff.mp length.symm)
  have hcount := count_intercalate (x := x) hpieces
  have hcount' := count_intercalate_fresh hne fresh
  have hzero : pieces.flatten.count x = 0 := by omega
  intro piece hpiece hx
  exact List.count_eq_zero.mp hzero (List.mem_flatten.mpr ⟨piece, hpiece, hx⟩)

end Cut

end Segments
