import Mathlib.Data.List.Count
import Carafe.Library.History

/-!
# Tokens that move between places

Each event of a run takes at most one token from its place to another one; a token
that comes from nowhere is new, and one that goes nowhere is gone. Across the border
of any region of places, what has come in is still inside or has gone out again.
-/

namespace TokenFlow
open History

universe u v w x
variable {P : Type u} {T : Type v}

structure Move (P : Type u) (T : Type v) where
  token : T
  source : Option P
  target : Option P

def stationed (token : T) (place : Option P) : List (P × T) := place.toList.map (·, token)

inductive Moved : Option (Move P T) → List (P × T) → List (P × T) → Prop where
  | still {before after : List (P × T)} (h : before.Perm after) : Moved none before after
  | moved {move : Move P T} {before after : List (P × T)} (rest : List (P × T))
      (taken : before.Perm (stationed move.token move.source ++ rest))
      (put : after.Perm (stationed move.token move.target ++ rest)) :
      Moved (some move) before after

theorem Moved.length {move : Option (Move P T)} {before after : List (P × T)}
    (h : Moved move before after) :
    after.length + (move.bind Move.source).toList.length =
      before.length + (move.bind Move.target).toList.length := by
  cases h with
  | still h => simp [h.length_eq]
  | moved rest taken put =>
    simp only [taken.length_eq, put.length_eq, List.length_append, stationed, List.length_map,
      Option.bind_some]
    omega

section Border
variable [DecidableEq T] (region : P → Bool) (token : T)

def inside (entry : P × T) : Bool := region entry.1 && decide (entry.2 = token)

def within (place : Option P) : Bool := place.any region

namespace Move

def enters (move : Move P T) : Bool :=
  decide (move.token = token) && !within region move.source && within region move.target

def leaves (move : Move P T) : Bool :=
  decide (move.token = token) && within region move.source && !within region move.target

end Move

def comesIn (move : Option (Move P T)) : Bool := move.any (Move.enters region token)

def goesOut (move : Option (Move P T)) : Bool := move.any (Move.leaves region token)

theorem countP_entry {α : Type w} (p : α → Bool) (entry : α) (rest : List α) :
    (entry :: rest).countP p = rest.countP p + (p entry).toNat := by
  cases h : p entry <;> simp [h]

theorem countP_concat {α : Type w} (p : α → Bool) (front : List α) (last : α) :
    (front ++ [last]).countP p = front.countP p + (p last).toNat := by
  rw [List.countP_append, countP_entry, List.countP_nil, Nat.zero_add]

theorem countP_stationed (place : Option P) (other : T) :
    (stationed other place).countP (inside region token) =
      (decide (other = token) && within region place).toNat := by
  cases place with
  | none => simp [stationed, within]
  | some place =>
    have hone := countP_entry (inside region token) (place, other) []
    simpa [stationed, within, inside, Bool.and_comm] using hone

theorem Moved.border {move : Option (Move P T)} {before after : List (P × T)}
    (h : Moved move before after) :
    after.countP (inside region token) + (goesOut region token move).toNat =
      before.countP (inside region token) + (comesIn region token move).toNat := by
  cases h with
  | still h => simp [h.countP_eq, goesOut, comesIn]
  | @moved move before after rest taken put =>
    rw [taken.countP_eq, put.countP_eq, List.countP_append, List.countP_append,
      countP_stationed, countP_stationed]
    simp only [goesOut, comesIn, Option.any_some, Move.leaves, Move.enters]
    generalize within region move.source = source
    generalize within region move.target = target
    cases decide (move.token = token) <;> cases source <;> cases target <;> simp <;> omega

variable {ε : Type w} {σ : Type x} {start : σ → Prop} {step : List ε → σ → ε → σ → Prop}
  {moves : ε → Option (Move P T)} {tokens : σ → List (P × T)}

/-- What has come into a region is in it or has left it. -/
theorem border (empty : ∀ s, start s → tokens s = [])
    (moved : ∀ past s event t, step past s event t → Moved (moves event) (tokens s) (tokens t))
    {past : List ε} {s : σ} (h : Run start step past s) :
    past.countP (fun event => comesIn region token (moves event)) =
      (tokens s).countP (inside region token) +
        past.countP (fun event => goesOut region token (moves event)) := by
  refine h.invariant (fun past s =>
    past.countP (fun event => comesIn region token (moves event)) =
      (tokens s).countP (inside region token) +
        past.countP (fun event => goesOut region token (moves event))) ?_ ?_
  · intro s hs
    simp [empty s hs]
  · intro past s event t _ ih hstep
    have hborder := Moved.border region token (moved past s event t hstep)
    rw [countP_concat, countP_concat]
    omega

end Border

/-- Two kinds of events that are both of a third kind. -/
theorem countP_add_le {ε : Type w} {p q r : ε → Bool}
    (h : ∀ event, (p event).toNat + (q event).toNat ≤ (r event).toNat) (past : List ε) :
    past.countP p + past.countP q ≤ past.countP r := by
  induction past with
  | nil => exact Nat.le_refl _
  | cons event past ih =>
    rw [countP_entry, countP_entry, countP_entry]
    have := h event
    omega

end TokenFlow
