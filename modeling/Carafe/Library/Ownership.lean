import Mathlib.Data.List.Count
import Mathlib.Logic.Function.Basic

/-!
# Sole owners

Resources that are acquired and given back, and owners that hold one at most and hand
it on. The log keeps the acquisitions and the returns; a resource may be acquired again
once it is back.
-/

namespace Ownership

universe u v
variable {κ : Type u} {ρ : Type v} [DecidableEq ρ]

inductive Event (ρ : Type v) where
  | acquired (resource : ρ)
  | released (resource : ρ)
  deriving DecidableEq

/-- Acquired once more than it was given back. -/
def Out (log : List (Event ρ)) (r : ρ) : Prop :=
  log.count (.acquired r) = log.count (.released r) + 1

/-- Given back as often as it was acquired. -/
def Back (log : List (Event ρ)) (r : ρ) : Prop :=
  log.count (.acquired r) = log.count (.released r)

/-- Nothing is given back but what is out. -/
def Fair (log : List (Event ρ)) : Prop :=
  ∀ before r after, log = before ++ .released r :: after → Out before r

/-- What is out has one owner, and what is back has none. -/
structure Owned (holds : κ → Option ρ) (log : List (Event ρ)) : Prop where
  sole : ∀ {a b : κ} {r : ρ}, holds a = some r → holds b = some r → a = b
  out : ∀ {a : κ} {r : ρ}, holds a = some r → Out log r
  back : ∀ {r : ρ}, (∀ a, holds a ≠ some r) → Back log r
  fair : Fair log

section Logs
variable {log : List (Event ρ)} {r : ρ}

theorem Back.acquired (h : Back log r) : Out (log ++ [.acquired r]) r := by
  unfold Out Back at *
  simp [h]

theorem Out.released (h : Out log r) : Back (log ++ [.released r]) r := by
  unfold Out Back at *
  simp [h]

theorem Out.other (h : Out log r) {event : Event ρ} (acquired : event ≠ .acquired r)
    (released : event ≠ .released r) : Out (log ++ [event]) r := by
  unfold Out at *
  simp [h, acquired, released]

theorem Back.other (h : Back log r) {event : Event ρ} (acquired : event ≠ .acquired r)
    (released : event ≠ .released r) : Back (log ++ [event]) r := by
  unfold Back at *
  simp [h, acquired, released]

/-- One more event is fair if it gives back only what is out. -/
theorem Fair.concat (h : Fair log) {event : Event ρ}
    (due : ∀ r, event = .released r → Out log r) : Fair (log ++ [event]) := by
  intro before r after hcut
  rcases List.eq_nil_or_concat after with rfl | ⟨after, last, rfl⟩
  · obtain ⟨rfl, hevent⟩ := List.append_inj' hcut rfl
    exact due r (List.cons.inj hevent).1
  · have hsame : log ++ [event] = (before ++ .released r :: after) ++ [last] := by
      simpa [List.concat_eq_append] using hcut
    exact h before r after (List.append_inj' hsame rfl).1

end Logs

namespace Owned

theorem start : Owned (fun _ : κ => none) ([] : List (Event ρ)) where
  sole h := by cases h
  out h := by cases h
  back _ := rfl
  fair := by
    intro before r after hcut
    simp at hcut

variable {holds : κ → Option ρ} {log : List (Event ρ)} {a b : κ} {r : ρ}

variable [DecidableEq κ]

/-- An owner of nothing takes what nobody holds. -/
theorem acquire (h : Owned holds log) (free : holds a = none) (fresh : ∀ b, holds b ≠ some r) :
    Owned (Function.update holds a (some r)) (log ++ [.acquired r]) where
  sole := by
    intro b c s hb hc
    have hold : ∀ {x}, x ≠ a → Function.update holds a (some r) x = some s →
        holds x = some s ∧ s ≠ r := by
      intro x hx hs
      rw [Function.update_of_ne hx] at hs
      refine ⟨hs, ?_⟩
      rintro rfl
      exact fresh x hs
    by_cases hba : b = a
    · by_cases hca : c = a
      · rw [hba, hca]
      · rw [hba, Function.update_self] at hb
        exact absurd (Option.some.inj hb).symm (hold hca hc).2
    · by_cases hca : c = a
      · rw [hca, Function.update_self] at hc
        exact absurd (Option.some.inj hc).symm (hold hba hb).2
      · exact h.sole (hold hba hb).1 (hold hca hc).1
  out := by
    intro b s hb
    by_cases hba : b = a
    · rw [hba, Function.update_self] at hb
      obtain rfl := Option.some.inj hb
      exact (h.back fresh).acquired
    · rw [Function.update_of_ne hba] at hb
      have hne : r ≠ s := by
        rintro rfl
        exact fresh b hb
      exact (h.out hb).other (by simpa using hne) (by simp)
  back := by
    intro s hs
    have hne : r ≠ s := by
      intro heq
      exact hs a (by rw [Function.update_self, heq])
    have hfree : ∀ b, holds b ≠ some s := by
      intro b hb
      by_cases hba : b = a
      · rw [hba, free] at hb
        cases hb
      · exact hs b (by rw [Function.update_of_ne hba, hb])
    exact (h.back hfree).other (by simpa using hne) (by simp)
  fair := h.fair.concat (by simp)

/-- The owner gives back what it holds. -/
theorem release (h : Owned holds log) (held : holds a = some r) :
    Owned (Function.update holds a none) (log ++ [.released r]) where
  sole := by
    intro b c s hb hc
    have hold : ∀ {x}, Function.update holds a none x = some s → holds x = some s := by
      intro x hx
      by_cases hxa : x = a
      · rw [hxa, Function.update_self] at hx
        cases hx
      · rwa [Function.update_of_ne hxa] at hx
    exact h.sole (hold hb) (hold hc)
  out := by
    intro b s hb
    by_cases hba : b = a
    · rw [hba, Function.update_self] at hb
      cases hb
    · rw [Function.update_of_ne hba] at hb
      have hne : r ≠ s := by
        rintro rfl
        exact hba (h.sole hb held)
      exact (h.out hb).other (by simp) (by simpa using hne)
  back := by
    intro s hs
    by_cases hne : r = s
    · rw [← hne]
      exact (h.out held).released
    · have hfree : ∀ b, holds b ≠ some s := by
        intro b hb
        by_cases hba : b = a
        · rw [hba, held] at hb
          exact hne (Option.some.inj hb)
        · exact hs b (by rw [Function.update_of_ne hba, hb])
      exact (h.back hfree).other (by simp) (by simpa using hne)
  fair := h.fair.concat (by
    intro s hs
    cases hs
    exact h.out held)

/-- An owner of nothing takes over what another one holds. -/
theorem move (h : Owned holds log) (free : holds a = none) :
    Owned (Function.update (Function.update holds b none) a (holds b)) log := by
  have hold : ∀ {x s}, Function.update (Function.update holds b none) a (holds b) x = some s →
      (x = a ∧ holds b = some s) ∨ (x ≠ b ∧ holds x = some s) := by
    intro x s hx
    by_cases hxa : x = a
    · rw [hxa, Function.update_self] at hx
      exact .inl ⟨hxa, hx⟩
    · rw [Function.update_of_ne hxa] at hx
      by_cases hxb : x = b
      · rw [hxb, Function.update_self] at hx
        cases hx
      · rw [Function.update_of_ne hxb] at hx
        exact .inr ⟨hxb, hx⟩
  refine ⟨?_, ?_, ?_, h.fair⟩
  · intro x y s hx hy
    rcases hold hx with ⟨hxa, hbx⟩ | ⟨hxb, hox⟩ <;> rcases hold hy with ⟨hya, hby⟩ | ⟨hyb, hoy⟩
    · rw [hxa, hya]
    · exact absurd (h.sole hoy hbx) hyb
    · exact absurd (h.sole hox hby) hxb
    · exact h.sole hox hoy
  · intro x s hx
    rcases hold hx with ⟨-, hbx⟩ | ⟨-, hox⟩
    · exact h.out hbx
    · exact h.out hox
  · intro s hs
    refine h.back fun x hx => ?_
    by_cases hxb : x = b
    · exact hs a (by rw [Function.update_self, ← hxb, hx])
    · have hxa : x ≠ a := by
        rintro rfl
        rw [free] at hx
        cases hx
      exact hs x (by rw [Function.update_of_ne hxa, Function.update_of_ne hxb, hx])

end Owned

end Ownership
