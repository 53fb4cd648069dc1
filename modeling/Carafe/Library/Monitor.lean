import Mathlib.Data.List.Count

/-!
# Threads that share a mutex

Each thread has a point it has got to, and at some points it holds the mutex. What a
holder has found out about the shared state stays so, as long as only a holder changes
that state.
-/

namespace Monitor

universe u v
variable {θ : Type u} {γ : Type v}

structure Protocol (θ : Type u) (γ : Type v) where
  holds : θ → Bool
  /-- What a thread has found out about the shared state. -/
  Relies : γ → θ → Prop
  unheld : ∀ shared thread, holds thread = false → Relies shared thread

structure Sound (P : Protocol θ γ) (locked : Bool) (shared : γ) (threads : List θ) : Prop where
  held : threads.countP P.holds = locked.toNat
  relied : ∀ thread ∈ threads, P.Relies shared thread

/-- What one thread may do to the mutex and the shared state. -/
inductive Move (P : Protocol θ γ) : Bool → γ → θ → Bool → γ → θ → Prop where
  | outside {locked : Bool} {shared : γ} {thread next : θ} (before : P.holds thread = false)
      (after : P.holds next = false) : Move P locked shared thread locked shared next
  | acquire {shared : γ} {thread next : θ} (before : P.holds thread = false)
      (after : P.holds next = true) (relies : P.Relies shared next) :
      Move P false shared thread true shared next
  | inside {locked : Bool} {shared changed : γ} {thread next : θ} (before : P.holds thread = true)
      (after : P.holds next = true) (relies : P.Relies changed next) :
      Move P locked shared thread locked changed next
  | release {locked : Bool} {shared : γ} {thread next : θ} (before : P.holds thread = true)
      (after : P.holds next = false) : Move P locked shared thread false shared next

theorem countP_at (p : θ → Bool) (front back : List θ) (thread : θ) :
    (front ++ thread :: back).countP p =
      front.countP p + back.countP p + (p thread).toNat := by
  cases h : p thread <;> simp [h, Nat.add_assoc]

theorem mem_replace {front back : List θ} {new thread : θ} (old : θ)
    (h : thread ∈ front ++ new :: back) : thread = new ∨ thread ∈ front ++ old :: back := by
  simp only [List.mem_append, List.mem_cons] at h ⊢
  tauto

/-- What comes ahead of the first change is as it was. -/
theorem take_replace {front back : List θ} {old : θ} (new : θ) {n : Nat}
    (h : old ∉ (front ++ old :: back).take n) :
    (front ++ new :: back).take n = (front ++ old :: back).take n := by
  have hle : n ≤ front.length := by
    by_contra hlt
    refine h ?_
    rw [List.take_append]
    refine List.mem_append_right _ ?_
    obtain ⟨more, hmore⟩ : ∃ more, n - front.length = more + 1 := ⟨n - front.length - 1, by omega⟩
    rw [hmore, List.take_succ_cons]
    exact List.mem_cons_self
  rw [List.take_append_of_le_length hle, List.take_append_of_le_length hle]

namespace Sound

variable {P : Protocol θ γ} {locked : Bool} {shared : γ} {front back threads : List θ}
  {thread : θ}

theorem one (h : Sound P locked shared threads) : threads.countP P.holds ≤ 1 := by
  have := h.held
  have := Bool.toNat_le locked
  omega

/-- Beside a holder there is no other one. -/
theorem alone (h : Sound P locked shared (front ++ thread :: back))
    (holds : P.holds thread = true) : ∀ other ∈ front ++ back, P.holds other = false := by
  have hone := h.one
  rw [countP_at, holds, Bool.toNat_true] at hone
  have hnone : (front ++ back).countP P.holds = 0 := by
    rw [List.countP_append]
    omega
  intro other hmem
  simpa using List.countP_eq_zero.mp hnone other hmem

theorem locked_of_holds (h : Sound P locked shared threads) (mem : thread ∈ threads)
    (holds : P.holds thread = true) : locked = true := by
  have hpos : 0 < threads.countP P.holds := List.countP_pos_iff.mpr ⟨thread, mem, holds⟩
  have hheld := h.held
  cases locked with
  | true => rfl
  | false =>
    rw [Bool.toNat_false] at hheld
    omega

/-- While the mutex is taken, some thread holds it. -/
theorem holder (h : Sound P true shared threads) : ∃ thread ∈ threads, P.holds thread = true := by
  have hheld := h.held
  rw [Bool.toNat_true] at hheld
  exact List.countP_pos_iff.mp (by omega)

/-- With no holder, the shared state may change at will. -/
theorem change (h : Sound P locked shared threads)
    (none : ∀ thread ∈ threads, P.holds thread = false) (changed : γ) :
    Sound P locked changed threads :=
  ⟨h.held, fun thread hmem => P.unheld _ _ (none thread hmem)⟩

theorem move {locked' : Bool} {shared' : γ} {next : θ}
    (h : Sound P locked shared (front ++ thread :: back))
    (moved : Move P locked shared thread locked' shared' next) :
    Sound P locked' shared' (front ++ next :: back) := by
  have hheld := h.held
  rw [countP_at] at hheld
  have others : ∀ other ∈ front ++ back, P.Relies shared' other := by
    intro other hmem
    cases moved with
    | outside | acquire | release =>
      exact h.relied other (by simp at hmem ⊢; tauto)
    | inside before => exact P.unheld _ _ (h.alone before other hmem)
  have itself : P.Relies shared' next := by
    cases moved with
    | outside before after | release before after => exact P.unheld _ _ after
    | acquire before after relies | inside before after relies => exact relies
  constructor
  · rw [countP_at]
    have := Bool.toNat_le locked
    cases moved with
    | outside before after | acquire before after | release before after
    | inside before after =>
      simp only [before, after, Bool.toNat_true, Bool.toNat_false] at hheld ⊢
      omega
  · intro other hmem
    rcases List.mem_append.mp hmem with hfront | hrest
    · exact others other (List.mem_append_left _ hfront)
    · rcases List.mem_cons.mp hrest with rfl | hback
      · exact itself
      · exact others other (List.mem_append_right _ hback)

theorem move_head {locked' : Bool} {shared' : γ} {next : θ}
    (h : Sound P locked shared (thread :: back))
    (moved : Move P locked shared thread locked' shared' next) :
    Sound P locked' shared' (next :: back) := by
  have hnone : Sound P locked shared ([] ++ thread :: back) := h
  exact hnone.move moved

theorem alone_head (h : Sound P locked shared (thread :: back))
    (holds : P.holds thread = true) : ∀ other ∈ back, P.holds other = false := by
  have hnone : Sound P locked shared ([] ++ thread :: back) := h
  exact hnone.alone holds

/-- A change of the threads that no holder notices. -/
theorem map (h : Sound P locked shared threads) (f : θ → θ)
    (holds : ∀ thread, P.holds (f thread) = P.holds thread)
    (same : ∀ thread, P.holds thread = true → f thread = thread) :
    Sound P locked shared (threads.map f) := by
  constructor
  · rw [List.countP_map, ← h.held]
    congr 1
    funext thread
    exact holds thread
  · intro thread hmem
    obtain ⟨other, hother, rfl⟩ := List.mem_map.mp hmem
    cases hholds : P.holds other with
    | true => exact (same other hholds).symm ▸ h.relied other hother
    | false => exact P.unheld _ _ ((holds other).trans hholds)

end Sound

end Monitor
