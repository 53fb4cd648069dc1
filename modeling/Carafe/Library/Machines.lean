import Mathlib.Data.List.Basic

/-!
# Machines that answer calls

A machine takes one call after another, answers each and goes on in a new state, or
faults. One machine is invisible behind another if a relation between their states
is kept by every call, with the same answer and no fault on either side.
-/

namespace Machines

universe u v w x y
variable {ι : Type u} {ο : Type v} {σ : Type w} {τ : Type x} {υ : Type y}

/-- The state behind some calls, and the answers to them. -/
def run (step : σ → ι → Option (σ × ο)) (s : σ) : List ι → Option (σ × List ο)
  | [] => some (s, [])
  | call :: calls =>
    (step s call).bind fun next =>
      (run step next.1 calls).map fun last => (last.1, next.2 :: last.2)

theorem run_cons {step : σ → ι → Option (σ × ο)} {s next last : σ} {call : ι} {calls : List ι}
    {answer : ο} {answers : List ο} (first : step s call = some (next, answer))
    (rest : run step next calls = some (last, answers)) :
    run step s (call :: calls) = some (last, answer :: answers) := by
  simp only [run, first, Option.bind_some, rest, Option.map_some]

/-- Every call is answered alike on both sides, and leads to related states again. -/
def Simulates (Related : σ → τ → Prop) (concrete : σ → ι → Option (σ × ο))
    (abstract : τ → ι → Option (τ × ο)) : Prop :=
  ∀ s t call, Related s t → ∃ s' t' answer, concrete s call = some (s', answer) ∧
    abstract t call = some (t', answer) ∧ Related s' t'

namespace Simulates

variable {Related : σ → τ → Prop} {concrete : σ → ι → Option (σ × ο)}
  {abstract : τ → ι → Option (τ × ο)}

theorem run (sim : Simulates Related concrete abstract) (calls : List ι) {s : σ} {t : τ}
    (h : Related s t) : ∃ s' t' answers, Machines.run concrete s calls = some (s', answers) ∧
      Machines.run abstract t calls = some (t', answers) ∧ Related s' t' := by
  induction calls generalizing s t with
  | nil => exact ⟨s, t, [], rfl, rfl, h⟩
  | cons call calls ih =>
    obtain ⟨s₁, t₁, answer, hs, ht, hnext⟩ := sim s t call h
    obtain ⟨s₂, t₂, answers, hs', ht', hlast⟩ := ih hnext
    exact ⟨s₂, t₂, answer :: answers, run_cons hs hs', run_cons ht ht', hlast⟩

/-- One layer behind the other. -/
theorem comp {Related' : τ → υ → Prop} {top : υ → ι → Option (υ × ο)}
    (lower : Simulates Related concrete abstract) (upper : Simulates Related' abstract top) :
    Simulates (fun s r => ∃ t, Related s t ∧ Related' t r) concrete top := by
  rintro s r call ⟨t, hst, htr⟩
  obtain ⟨s', t', answer, hs, ht, hst'⟩ := lower s t call hst
  obtain ⟨t'', r', answer', ht', hr, htr'⟩ := upper t r call htr
  obtain ⟨rfl, rfl⟩ : t' = t'' ∧ answer = answer' := by
    rw [ht] at ht'
    exact Prod.mk.inj (Option.some.inj ht')
  exact ⟨s', r', answer, hs, hr, t', hst', htr'⟩

end Simulates

end Machines
