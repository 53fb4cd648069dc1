import Mathlib.Algebra.GroupWithZero.Nat
import Mathlib.Data.List.Count

/-!
# Runs with a history

A system that moves from state to state, with the list of the events that led to
each one. A step may depend on the events ahead of it.
-/

namespace History

universe u v
variable {ε : Type u} {σ : Type v}

inductive Run (start : σ → Prop) (step : List ε → σ → ε → σ → Prop) : List ε → σ → Prop where
  | start {s : σ} (h : start s) : Run start step [] s
  | step {past : List ε} {s t : σ} {event : ε} (h : Run start step past s)
      (next : step past s event t) : Run start step (past ++ [event]) t

namespace Run

variable {start : σ → Prop} {step : List ε → σ → ε → σ → Prop} {past : List ε} {s : σ}

theorem invariant (Holds : List ε → σ → Prop) (initially : ∀ s, start s → Holds [] s)
    (preserved : ∀ past s event t, Run start step past s → Holds past s →
      step past s event t → Holds (past ++ [event]) t)
    (h : Run start step past s) : Holds past s := by
  induction h with
  | start h => exact initially _ h
  | step h next ih => exact preserved _ _ _ _ h ih next

/-- The step that an event of the history stands for. -/
theorem around (h : Run start step past s) {event : ε} (mem : event ∈ past) :
    ∃ before after s t, past = before ++ event :: after ∧ Run start step before s ∧
      step before s event t := by
  induction h with
  | start => cases mem
  | @step past s t last h next ih =>
    rcases List.mem_append.mp mem with earlier | now
    · obtain ⟨before, after, s', t', rfl, hrun, hstep⟩ := ih earlier
      refine ⟨before, after ++ [last], s', t', ?_, hrun, hstep⟩
      simp
    · cases List.mem_singleton.mp now
      exact ⟨past, [], s, t, rfl, h, next⟩

/-- The step at a given place of the history. -/
theorem split {before after : List ε} {event : ε}
    (h : Run start step (before ++ event :: after) s) :
    ∃ s t, Run start step before s ∧ step before s event t := by
  generalize hwhole : before ++ event :: after = whole at h
  induction h generalizing after with
  | start => simp at hwhole
  | @step past s t last h next ih =>
    rcases List.eq_nil_or_concat after with rfl | ⟨after, last', rfl⟩
    · obtain ⟨rfl, hlast⟩ := List.append_inj' hwhole rfl
      cases hlast
      exact ⟨s, t, h, next⟩
    · have hsame : (before ++ event :: after) ++ [last'] = past ++ [last] := by
        simpa [List.concat_eq_append] using hwhole
      exact ih (List.append_inj' hsame rfl).1

end Run

theorem filterMap_concat {α : Type*} (f : ε → Option α) (past : List ε) (event : ε) :
    (past ++ [event]).filterMap f = past.filterMap f ++ (f event).toList := by
  rw [List.filterMap_append]
  cases h : f event <;> simp [h]

section Levels
universe w x
variable {ε' : Type w} {σ' : Type x} {start : σ → Prop} {step : List ε → σ → ε → σ → Prop}
  {start' : σ' → Prop} {step' : List ε' → σ' → ε' → σ' → Prop}

/-- A lower system whose steps show as steps of an upper one, or do not show at all. -/
structure Refines (start : σ → Prop) (step : List ε → σ → ε → σ → Prop) (start' : σ' → Prop)
    (step' : List ε' → σ' → ε' → σ' → Prop) (shown : ε → Option ε') (view : σ → σ') : Prop where
  starts : ∀ s, start s → start' (view s)
  shows : ∀ past s event t event', Run start step past s → step past s event t →
    shown event = some event' → step' (past.filterMap shown) (view s) event' (view t)
  hides : ∀ past s event t, Run start step past s → step past s event t →
    shown event = none → view t = view s

theorem Refines.run {shown : ε → Option ε'} {view : σ → σ'}
    (refines : Refines start step start' step' shown view) {past : List ε} {s : σ}
    (h : Run start step past s) : Run start' step' (past.filterMap shown) (view s) := by
  induction h with
  | start h => exact .start (refines.starts _ h)
  | @step past s t event h next ih =>
    rw [filterMap_concat]
    cases hshown : shown event with
    | none =>
      rw [refines.hides _ _ _ _ h next hshown]
      simpa using ih
    | some event' => exact ih.step (refines.shows _ _ _ _ _ h next hshown)

end Levels

theorem sum_map_toNat {α : Type*} (p : α → Bool) (l : List α) :
    (l.map fun a => (p a).toNat).sum = l.countP p := by
  induction l with
  | nil => rfl
  | cons a l ih =>
    rw [List.map_cons, List.sum_cons, ih, Nat.add_comm]
    cases h : p a <;> simp [h]

/-- Where a step costs no more than the weight it takes away and the credit it brings,
a run costs no more than the weight it began with and its credit. -/
theorem Run.paid {start : σ → Prop} {step : List ε → σ → ε → σ → Prop} (weight : σ → Nat)
    (cost credit : ε → Nat) {begun : Nat} (initially : ∀ s, start s → weight s ≤ begun)
    (paid : ∀ past s event t, Run start step past s → step past s event t →
      weight t + cost event ≤ weight s + credit event) {past : List ε} {s : σ}
    (h : Run start step past s) :
    weight s + (past.map cost).sum ≤ begun + (past.map credit).sum := by
  refine h.invariant
    (fun past s => weight s + (past.map cost).sum ≤ begun + (past.map credit).sum) ?_ ?_
  · intro s hs
    simpa using initially s hs
  · intro past s event t hrun ih hstep
    have := paid past s event t hrun hstep
    simp only [List.map_append, List.sum_append, List.map_cons, List.map_nil, List.sum_cons,
      List.sum_nil]
    omega

section Functions
variable (next : σ → ε → σ) (cost : σ → ε → Nat)

/-- What a run of a function costs. -/
def spent : σ → List ε → Nat
  | _, [] => 0
  | s, event :: events => cost s event + spent (next s event) events

/-- The same rule where the step is a function and its cost depends on the state. -/
theorem spent_le (Holds : σ → Prop) (weight : σ → Nat) (credit : ε → Nat)
    (kept : ∀ s event, Holds s → Holds (next s event))
    (paid : ∀ s event, Holds s →
      weight (next s event) + cost s event ≤ weight s + credit event)
    (s : σ) (h : Holds s) (events : List ε) :
    weight (events.foldl next s) + spent next cost s events ≤
      weight s + (events.map credit).sum := by
  induction events generalizing s with
  | nil => simp [spent]
  | cons event events ih =>
    have hrest := ih (next s event) (kept s event h)
    have hstep := paid s event h
    simp only [List.foldl_cons, spent, List.map_cons, List.sum_cons]
    omega

end Functions

end History
