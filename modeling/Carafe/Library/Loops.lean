import Mathlib.Data.Nat.Basic

/-!
# Loops that run until a round answers

A loop is given by one round of it: the state behind the round, and the answer that
ends the loop if there is one. How many rounds it may take is a bound and nothing
else: whatever is answered within one bound is answered within every larger one.
-/

namespace Loops

universe u v
variable {σ : Type u} {ρ : Type v} {round : σ → σ × Option ρ}

/-- At most `n` rounds, and nothing if none of them answers. -/
def rounds (round : σ → σ × Option ρ) : Nat → σ → Option (σ × ρ)
  | 0, _ => none
  | n + 1, s =>
    match round s with
    | (next, some answer) => some (next, answer)
    | (next, none) => rounds round n next

theorem rounds_answer {s next : σ} {answer : ρ} (h : round s = (next, some answer)) (n : Nat) :
    rounds round (n + 1) s = some (next, answer) := by
  simp only [rounds, h]

theorem rounds_silent {s next : σ} (h : round s = (next, none)) (n : Nat) :
    rounds round (n + 1) s = rounds round n next := by
  simp only [rounds, h]

theorem rounds_mono {s : σ} {last : σ × ρ} {n m : Nat} (h : rounds round n s = some last)
    (hle : n ≤ m) : rounds round m s = some last := by
  induction n generalizing s m with
  | zero => cases h
  | succ n ih =>
    obtain ⟨m, rfl⟩ : ∃ k, m = k + 1 := ⟨m - 1, by omega⟩
    rcases hround : round s with ⟨next, _ | answer⟩
    · rw [rounds_silent hround] at h ⊢
      exact ih h (by omega)
    · rwa [rounds_answer hround] at h ⊢

/-- The bound decides whether there is an answer, not which. -/
theorem rounds_unique {s : σ} {first second : σ × ρ} {n m : Nat}
    (h : rounds round n s = some first) (h' : rounds round m s = some second) :
    first = second := by
  rcases Nat.le_total n m with hle | hle
  · exact Option.some.inj ((rounds_mono h hle).symm.trans h')
  · exact Option.some.inj (h.symm.trans (rounds_mono h' hle))

/-- Silent rounds that keep to an invariant and make a measure smaller come to an end. -/
theorem rounds_enough (Holds : σ → Prop) (measure : σ → Nat)
    (goes : ∀ s next, Holds s → round s = (next, none) →
      Holds next ∧ measure next < measure s)
    {s : σ} (h : Holds s) {n : Nat} (enough : measure s < n) :
    ∃ last, rounds round n s = some last := by
  induction n generalizing s with
  | zero => omega
  | succ n ih =>
    rcases hround : round s with ⟨next, _ | answer⟩
    · obtain ⟨hnext, hless⟩ := goes s next h hround
      rw [rounds_silent hround]
      exact ih hnext (by omega)
    · exact ⟨_, rounds_answer hround n⟩

end Loops
