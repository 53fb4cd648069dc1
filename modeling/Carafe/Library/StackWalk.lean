import Mathlib.Data.List.Infix
import Mathlib.Data.List.Induction

/-!
# Walks over a stack

A sequence of moves pushes onto a stack, pops it or leaves it alone; popping an
empty stack does nothing. How high the stack gets depends on the kinds of the moves
alone, and its lowest entry is the last one pushed at height zero.
-/

namespace StackWalk

universe u
variable {α : Type u}

inductive Move (α : Type u) where
  | push (entry : α)
  | pop
  | stay

namespace Move

/-- The top of the stack is the end of the list. -/
def apply (stack : List α) : Move α → List α
  | push entry => stack ++ [entry]
  | pop => stack.dropLast
  | stay => stack

def raise (n : Nat) : Move α → Nat
  | push _ => n + 1
  | pop => n - 1
  | stay => n

theorem apply_length (stack : List α) (move : Move α) :
    (move.apply stack).length = move.raise stack.length := by
  cases move <;> simp [apply, raise]

end Move

def run (stack : List α) (moves : List (Move α)) : List α := moves.foldl Move.apply stack

def height (n : Nat) (moves : List (Move α)) : Nat := moves.foldl Move.raise n

@[simp] theorem run_nil (stack : List α) : run stack [] = stack := rfl

@[simp] theorem run_cons (stack : List α) (move : Move α) (moves : List (Move α)) :
    run stack (move :: moves) = run (move.apply stack) moves := rfl

theorem run_append (stack : List α) (moves more : List (Move α)) :
    run stack (moves ++ more) = run (run stack moves) more := List.foldl_append

@[simp] theorem height_nil (n : Nat) : height n ([] : List (Move α)) = n := rfl

@[simp] theorem height_cons (n : Nat) (move : Move α) (moves : List (Move α)) :
    height n (move :: moves) = height (move.raise n) moves := rfl

theorem height_append (n : Nat) (moves more : List (Move α)) :
    height n (moves ++ more) = height (height n moves) more := List.foldl_append

theorem run_length (stack : List α) (moves : List (Move α)) :
    (run stack moves).length = height stack.length moves := by
  induction moves generalizing stack with
  | nil => rfl
  | cons move moves ih => rw [run_cons, height_cons, ih, Move.apply_length]

/-- All that is left on the stack was pushed or there before. -/
theorem mem_run {stack : List α} {moves : List (Move α)} {entry : α} (h : entry ∈ run stack moves) :
    entry ∈ stack ∨ Move.push entry ∈ moves := by
  induction moves generalizing stack with
  | nil => exact Or.inl h
  | cons move moves ih =>
    rcases ih h with hstack | hmoves
    · cases move with
      | push pushed =>
        rcases List.mem_append.mp hstack with hold | hnew
        · exact Or.inl hold
        · rw [List.mem_singleton.mp hnew]
          exact Or.inr List.mem_cons_self
      | pop => exact Or.inl (List.mem_of_mem_dropLast hstack)
      | stay => exact Or.inl hstack
    · exact Or.inr (List.mem_cons_of_mem _ hmoves)

theorem dropLast_head? {stack : List α} (h : 1 < stack.length) :
    stack.dropLast.head? = stack.head? := by
  match stack with
  | [] => rfl
  | [_] => cases h with | step h => cases h
  | _ :: _ :: _ => rfl

/-- The lowest entry stays as long as the stack never empties. -/
theorem run_head {stack : List α} {moves : List (Move α)}
    (h : ∀ front, front <+: moves → 0 < height stack.length front) :
    (run stack moves).head? = stack.head? := by
  induction moves generalizing stack with
  | nil => rfl
  | cons move moves ih =>
    have hpos := h [] List.nil_prefix
    have hfirst := h [move] (List.prefix_append [move] moves)
    have hnext : ∀ front, front <+: moves → 0 < height (move.apply stack).length front := by
      intro front hfront
      have hcons := h (move :: front) (List.prefix_cons_inj move |>.mpr hfront)
      rwa [height_cons, ← Move.apply_length] at hcons
    rw [run_cons, ih hnext]
    cases move with
    | push =>
      obtain ⟨lowest, stack, rfl⟩ := List.exists_cons_of_length_pos hpos
      rfl
    | pop =>
      apply dropLast_head?
      simp only [height_cons, height_nil, Move.raise] at hfirst
      omega
    | stay => rfl

/-- Pushed onto the empty stack, and nothing behind it empties the stack again. -/
def Lowest (moves : List (Move α)) (entry : α) : Prop :=
  ∃ front back, moves = front ++ Move.push entry :: back ∧ height 0 front = 0 ∧
    ∀ part, part <+: back → 0 < height 1 part

theorem Lowest.head {moves : List (Move α)} {entry : α} (h : Lowest moves entry) :
    (run [] moves).head? = some entry := by
  obtain ⟨front, back, rfl, hfront, hback⟩ := h
  have hempty : run [] front = [] := by
    rw [← List.length_eq_zero_iff, run_length]
    exact hfront
  rw [run_append, hempty, run_cons]
  exact @run_head _ [entry] _ hback

theorem Lowest.concat {moves : List (Move α)} {entry : α} (h : Lowest moves entry)
    {move : Move α} (stays : 0 < move.raise (run [] moves).length) :
    Lowest (moves ++ [move]) entry := by
  obtain ⟨front, back, rfl, hfront, hback⟩ := h
  have hlength : (run [] (front ++ Move.push entry :: back)).length = height 1 back := by
    rw [run_length, height_append, List.length_nil, hfront]
    rfl
  refine ⟨front, back ++ [move], by simp, hfront, ?_⟩
  intro part hpart
  rcases List.prefix_concat_iff.mp hpart with rfl | hshort
  · rw [height_append, ← hlength]
    exact stays
  · exact hback part hshort

theorem lowest_of_head {moves : List (Move α)} {entry : α}
    (h : (run [] moves).head? = some entry) : Lowest moves entry := by
  induction moves using List.reverseRecOn with
  | nil => cases h
  | append_singleton moves move ih =>
    rw [run_append] at h
    cases move with
    | push pushed =>
      by_cases hempty : run [] moves = []
      · have hentry : pushed = entry := by simpa [Move.apply, hempty] using h
        subst hentry
        have hzero := run_length [] moves
        rw [hempty] at hzero
        refine ⟨moves, [], rfl, hzero.symm, ?_⟩
        intro part hpart
        rw [List.prefix_nil.mp hpart]
        exact Nat.one_pos
      · obtain ⟨lowest, rest, hcons⟩ := List.exists_cons_of_ne_nil hempty
        have hbefore : (run [] moves).head? = some entry := by
          simpa [Move.apply, hcons] using h
        exact (ih hbefore).concat (Nat.succ_pos _)
    | pop =>
      have hlong : 1 < (run [] moves).length := by
        match hrun : run [] moves with
        | [] => simp [Move.apply, hrun] at h
        | [_] => simp [Move.apply, hrun] at h
        | _ :: _ :: _ => simp
      have hbefore : (run [] moves).head? = some entry := by
        rw [← dropLast_head? hlong]
        exact h
      exact (ih hbefore).concat (Nat.sub_pos_of_lt hlong)
    | stay =>
      have hlong : 0 < (run [] moves).length := by
        apply List.length_pos_of_ne_nil
        rintro hnil
        simp [Move.apply, hnil] at h
      exact (ih h).concat hlong

theorem head_run_iff {moves : List (Move α)} {entry : α} :
    (run [] moves).head? = some entry ↔ Lowest moves entry :=
  ⟨lowest_of_head, Lowest.head⟩

end StackWalk
