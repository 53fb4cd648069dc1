import Carafe.Library.Monitor
import Carafe.Server.Threads

/-!
# One thread in a guarded section

The points at which a thread holds the pool's mutex, what it has found out there, and
how far the accepting thread has got with taking the pool down.
-/

namespace Carafe.Server
open Http Net History

variable {κ : Type} {limits : PoolLimits}

namespace Acceptor

def holds : Acceptor κ → Bool
  | testing _ | pushing _ | pushed _ | moved | notified | refusing _ | setting | flagged => true
  | _ => false

def Relies (limits : PoolLimits) (pool : ConnectionPool κ) : Acceptor κ → Prop
  | pushing _ => pool.stopping = false ∧ pool.queue.length < limits.queued
  | pushed _ => ∃ queue queuedAt, pool.queue = queue ++ [⟨none, queuedAt⟩]
  | _ => True

end Acceptor

namespace Thread

def holds : Thread κ → Bool
  | testing | holding | leaving | popping _ | unlocking _ => true
  | _ => false

def Relies (pool : ConnectionPool κ) : Thread κ → Prop
  | holding => pool.stopping = true ∨ pool.queue ≠ []
  | popping job => ∃ rest, pool.queue = { job with client := none } :: rest
  | _ => True

end Thread

abbrev Party (κ : Type) := Acceptor κ ⊕ Thread κ

def protocol (limits : PoolLimits) : Monitor.Protocol (Party κ) (ConnectionPool κ) where
  holds := Sum.elim Acceptor.holds Thread.holds
  Relies pool := Sum.elim (Acceptor.Relies limits pool) (Thread.Relies pool)
  unheld := by
    rintro pool (acceptor | thread) hholds
    · cases acceptor with
      | pushing | pushed => cases hholds
      | _ => trivial
    · cases thread with
      | holding | popping => cases hholds
      | _ => trivial

def parties (acceptor : Acceptor κ) (workers : List (Thread κ)) : List (Party κ) :=
  .inl acceptor :: workers.map .inr

theorem parties_at (acceptor : Acceptor κ) (front back : List (Thread κ)) (thread : Thread κ) :
    parties acceptor (front ++ thread :: back) =
      (.inl acceptor :: front.map .inr) ++ .inr thread :: back.map .inr := by
  simp [parties]

/-- The mutex is with one thread at most, and what that thread has found out is so. -/
def Process.Sound (limits : PoolLimits) (process : Process κ) : Prop :=
  Monitor.Sound (protocol limits) process.shared.locked process.shared.pool
    (parties process.acceptor process.workers)

theorem Thread.Step.move {now : TimePoint} {shared shared' : Shared κ} {thread next : Thread κ}
    {act : Act κ} (h : thread.Step limits now shared act shared' next) :
    Monitor.Move (protocol limits) shared.locked shared.pool (.inr thread)
      shared'.locked shared'.pool (.inr next) := by
  cases h with
  | locked unlocked =>
    rw [unlocked]
    exact .acquire rfl rfl trivial
  | blocked | left | unlocked => exact .release rfl rfl
  | tested ready => exact .inside rfl rfl ready
  | leaves => exact .inside rfl rfl trivial
  | took => exact .inside rfl rfl ⟨_, rfl⟩
  | popped => exact .inside rfl rfl trivial
  | overdue | started | turnedAway | ended | closed => exact .outside rfl rfl

theorem Acceptor.Step.move {past : List (Act κ)} {now : TimePoint} {shared shared' : Shared κ}
    {acceptor next : Acceptor κ} {act : Act κ}
    (h : acceptor.Step limits past now shared act shared' next) :
    Monitor.Move (protocol limits) shared.locked shared.pool (.inl acceptor)
      shared'.locked shared'.pool (.inl next) := by
  cases h with
  | locked unlocked | stopLocked unlocked =>
    rw [unlocked]
    exact .acquire rfl rfl trivial
  | tested running room => exact .inside rfl rfl ⟨running, room⟩
  | pushed => exact .inside rfl rfl ⟨_, _, rfl⟩
  | full | threw | moved | stopped => exact .inside rfl rfl trivial
  | unlocked | letGo | stopUnlocked => exact .release rfl rfl
  | accepted | interrupted | gaveUp | pauses | retries | paused | answered | closed =>
    exact .outside rfl rfl

namespace Process.Sound

variable {process : Process κ} {front back : List (Thread κ)} {thread next : Thread κ}
  {locked : Bool} {pool : ConnectionPool κ}

theorem acceptor {next : Acceptor κ} (h : process.Sound limits)
    (moved : Monitor.Move (protocol limits) process.shared.locked process.shared.pool
      (.inl process.acceptor) locked pool (.inl next)) :
    Monitor.Sound (protocol limits) locked pool (parties next process.workers) :=
  Monitor.Sound.move_head h moved

theorem worker (h : process.Sound limits) (workers : process.workers = front ++ thread :: back)
    (moved : Monitor.Move (protocol limits) process.shared.locked process.shared.pool
      (.inr thread) locked pool (.inr next)) :
    Monitor.Sound (protocol limits) locked pool
      (parties process.acceptor (front ++ next :: back)) := by
  unfold Process.Sound at h
  rw [workers, parties_at] at h
  rw [parties_at]
  exact h.move moved

end Process.Sound

/-- Every thread of a pool that is being destroyed has been joined. -/
def Process.Joined (process : Process κ) : Prop :=
  process.acceptor = .destroying → ∀ thread ∈ process.workers, thread = .left

theorem parties_map_wake (acceptor : Acceptor κ) (workers : List (Thread κ)) :
    parties acceptor (workers.map Thread.wake) =
      (parties acceptor workers).map (Sum.map id Thread.wake) := by
  simp [parties]

theorem Thread.holds_wake (thread : Thread κ) : thread.wake.holds = thread.holds := by
  cases thread <;> rfl

theorem Thread.wake_of_holds {thread : Thread κ} (h : thread.holds = true) :
    thread.wake = thread := by
  cases thread <;> first | rfl | cases h

theorem Process.Step.sound {past : List (Act κ)} {process next : Process κ} {act : Act κ}
    (moved : process.Step limits past act next) (h : process.Sound limits)
    (joined : process.Joined) : next.Sound limits := by
  cases moved with
  | accepts step => exact h.acceptor step.move
  | works workers step => exact h.worker workers step.move
  | spawned acceptor started workers => exact h.worker workers (.outside rfl rfl)
  | woken workers => exact h.worker workers (.outside rfl rfl)
  | constructed acceptor | joined acceptor | allJoined acceptor | returned acceptor =>
    exact h.acceptor (acceptor ▸ .outside rfl rfl)
  | notifiedNone acceptor => exact h.acceptor (acceptor ▸ .inside rfl rfl trivial)
  | @notified front back acceptor workers =>
    have hwoken : Process.Sound limits { process with workers := front ++ .locking :: back } :=
      h.worker workers (.outside rfl rfl)
    exact hwoken.acceptor (acceptor ▸ .inside rfl rfl trivial)
  | notifiedAll acceptor =>
    have hahead : Monitor.Sound (protocol limits) process.shared.locked process.shared.pool
        (parties (.joining 0) process.workers) := h.acceptor (acceptor ▸ .outside rfl rfl)
    have hwoken := hahead.map (Sum.map id Thread.wake) ?_ ?_
    · rwa [← parties_map_wake] at hwoken
    · rintro (acceptor | thread)
      · rfl
      · exact thread.holds_wake
    · rintro (acceptor | thread) hholds
      · rfl
      · exact congrArg Sum.inr (Thread.wake_of_holds hholds)
  | dropped acceptor queue =>
    refine Monitor.Sound.change h ?_ _
    intro party hmem
    rcases List.mem_cons.mp hmem with rfl | hmem
    · rw [acceptor]
      rfl
    · obtain ⟨thread, hthread, rfl⟩ := List.mem_map.mp hmem
      rw [joined acceptor thread hthread]
      rfl
  | elapsed time => exact h

/-- Past the section of `stop` that sets the flag. -/
def Acceptor.stopped : Acceptor κ → Bool
  | flagged | notifying | joining _ | destroying | returned => true
  | _ => false

/-- A worker that has seen the flag. -/
def Thread.leaves : Thread κ → Bool
  | leaving | left => true
  | _ => false

structure Process.Phased (process : Process κ) : Prop where
  stopping : process.shared.pool.stopping = process.acceptor.stopped
  unstarted : .unstarted ∈ process.workers → process.acceptor = .constructing
  leaves : ∀ thread ∈ process.workers, thread.leaves = true →
    process.shared.pool.stopping = true
  joining : ∀ joined, process.acceptor = .joining joined →
    joined ≤ process.workers.length ∧ ∀ thread ∈ process.workers.take joined, thread = .left
  joined : process.acceptor = .destroying ∨ process.acceptor = .returned →
    ∀ thread ∈ process.workers, thread = .left
  emptied : process.acceptor = .returned → process.shared.pool.queue = []

/-- What a worker's step keeps to, and how a worker comes to leave. -/
theorem Thread.Step.kept {now : TimePoint} {shared shared' : Shared κ} {thread next : Thread κ}
    {act : Act κ} (h : thread.Step limits now shared act shared' next) :
    shared'.pool.stopping = shared.pool.stopping ∧ thread ≠ .left ∧ next ≠ .unstarted ∧
      (next.leaves = true → thread.leaves = true ∨ shared.pool.stopping = true) := by
  cases h with
  | leaves stopping => exact ⟨rfl, nofun, nofun, fun _ => .inr stopping⟩
  | left => exact ⟨rfl, nofun, nofun, fun _ => .inl rfl⟩
  | _ => exact ⟨rfl, nofun, nofun, nofun⟩

/-- The accepting thread's own steps end short of the joins. -/
theorem Acceptor.Step.kept {past : List (Act κ)} {now : TimePoint} {shared shared' : Shared κ}
    {acceptor next : Acceptor κ} {act : Act κ}
    (h : acceptor.Step limits past now shared act shared' next)
    (stopping : shared.pool.stopping = acceptor.stopped) :
    shared'.pool.stopping = next.stopped ∧ (shared.pool.stopping = true →
      shared'.pool.stopping = true) ∧ acceptor ≠ .constructing ∧
      (∀ joined, next ≠ .joining joined) ∧ next ≠ .destroying ∧ next ≠ .returned := by
  cases h with
  | stopped => exact ⟨rfl, fun _ => rfl, nofun, nofun, nofun, nofun⟩
  | _ => exact ⟨stopping, id, nofun, nofun, nofun, nofun⟩

theorem Thread.eq_of_wake {thread other : Thread κ} (h : thread.wake = other)
    (asleep : other ≠ .locking) : thread = other := by
  cases thread with
  | blocked => exact absurd h.symm asleep
  | _ => exact h

namespace Process.Phased

variable {process : Process κ} {front back : List (Thread κ)} {thread next : Thread κ}

theorem stopping_at (h : process.Phased) {acceptor : Acceptor κ}
    (here : process.acceptor = acceptor) : process.shared.pool.stopping = acceptor.stopped :=
  here ▸ h.stopping

/-- Another thread in the place of one that has not left. -/
theorem replace (h : process.Phased) {shared : Shared κ}
    (workers : process.workers = front ++ thread :: back)
    (same : shared.pool.stopping = process.shared.pool.stopping) (here : thread ≠ .left)
    (started : next = .unstarted → thread = .unstarted)
    (leaves : next.leaves = true → thread.leaves = true ∨ process.shared.pool.stopping = true)
    (running : process.acceptor ≠ .destroying ∧ process.acceptor ≠ .returned) :
    Process.Phased { process with shared := shared, workers := front ++ next :: back } where
  stopping := same.trans h.stopping
  unstarted := by
    intro hmem
    refine h.unstarted (workers ▸ ?_)
    rcases Monitor.mem_replace thread hmem with hnext | hmem
    · rw [started hnext.symm]
      simp
    · exact hmem
  leaves := by
    intro other hmem hleaves
    rw [same]
    rcases Monitor.mem_replace thread hmem with rfl | hmem
    · rcases leaves hleaves with hthread | hstopping
      · exact h.leaves thread (workers ▸ by simp) hthread
      · exact hstopping
    · exact h.leaves other (workers ▸ hmem) hleaves
  joining := by
    intro joined hjoining
    obtain ⟨hle, hleft⟩ := h.joining joined hjoining
    rw [workers] at hle hleft
    refine ⟨by simpa using hle, ?_⟩
    rwa [Monitor.take_replace next fun hmem => here (hleft thread hmem)]
  joined := by
    rintro (hdestroying | hreturned)
    · exact absurd hdestroying running.1
    · exact absurd hreturned running.2
  emptied hreturned := absurd hreturned running.2

/-- Workers that have not left are worked for. -/
theorem running (h : process.Phased) (workers : process.workers = front ++ thread :: back)
    (here : thread ≠ .left) :
    process.acceptor ≠ .destroying ∧ process.acceptor ≠ .returned := by
  have hmem : thread ∈ process.workers := workers ▸ by simp
  constructor
  · intro hdestroying
    exact here (h.joined (.inl hdestroying) thread hmem)
  · intro hreturned
    exact here (h.joined (.inr hreturned) thread hmem)

/-- The accepting thread at another point short of the joins. -/
theorem ahead (h : process.Phased) {shared : Shared κ} {acceptor : Acceptor κ}
    (stopping : shared.pool.stopping = acceptor.stopped)
    (kept : process.shared.pool.stopping = true → shared.pool.stopping = true)
    (constructed : process.acceptor ≠ .constructing ∨ .unstarted ∉ process.workers)
    (unjoined : ∀ joined, acceptor ≠ .joining joined)
    (short : acceptor ≠ .destroying ∧ acceptor ≠ .returned) :
    Process.Phased { process with shared := shared, acceptor := acceptor } where
  stopping := stopping
  unstarted := by
    intro hmem
    rcases constructed with hother | hnone
    · exact absurd (h.unstarted hmem) hother
    · exact absurd hmem hnone
  leaves other hmem hleaves := kept (h.leaves other hmem hleaves)
  joining joined hjoining := absurd hjoining (unjoined joined)
  joined := by
    rintro (hdestroying | hreturned)
    · exact absurd hdestroying short.1
    · exact absurd hreturned short.2
  emptied hreturned := absurd hreturned short.2

/-- The accepting thread further on in the destructor. -/
theorem behind (h : process.Phased) {acceptor : Acceptor κ}
    (stopping : process.shared.pool.stopping = acceptor.stopped)
    (constructed : process.acceptor ≠ .constructing)
    (joining : ∀ joined, acceptor = .joining joined →
      joined ≤ process.workers.length ∧ ∀ thread ∈ process.workers.take joined, thread = .left)
    (joined : acceptor = .destroying ∨ acceptor = .returned →
      ∀ thread ∈ process.workers, thread = .left)
    (emptied : acceptor = .returned → process.shared.pool.queue = []) :
    Process.Phased { process with acceptor := acceptor } where
  stopping := stopping
  unstarted hmem := absurd (h.unstarted hmem) constructed
  leaves := h.leaves
  joining := joining
  joined := joined
  emptied := emptied

end Process.Phased

theorem Process.Step.phased {past : List (Act κ)} {process next : Process κ} {act : Act κ}
    (moved : process.Step limits past act next) (h : process.Phased) : next.Phased := by
  cases moved with
  | accepts step =>
    obtain ⟨stopping, kept, constructed, unjoined, undestroyed, unreturned⟩ :=
      step.kept h.stopping
    exact h.ahead stopping kept (.inl constructed) unjoined ⟨undestroyed, unreturned⟩
  | works workers step =>
    obtain ⟨same, here, started, leaves⟩ := step.kept
    exact h.replace workers same here (fun hnext => absurd hnext started) leaves
      (h.running workers here)
  | spawned acceptor started workers | woken workers =>
    exact h.replace workers rfl nofun nofun nofun (h.running workers nofun)
  | constructed acceptor started =>
    have hstopping := h.stopping_at acceptor
    exact h.ahead hstopping id (.inr started) nofun ⟨nofun, nofun⟩
  | notified acceptor workers =>
    have hstopping := h.stopping_at acceptor
    have hahead : Process.Phased { process with acceptor := .notified } :=
      h.ahead hstopping id (.inl (by simp [acceptor])) nofun ⟨nofun, nofun⟩
    exact hahead.replace workers rfl nofun nofun nofun ⟨nofun, nofun⟩
  | notifiedNone acceptor =>
    have hstopping := h.stopping_at acceptor
    exact h.ahead hstopping id (.inl (by simp [acceptor])) nofun ⟨nofun, nofun⟩
  | notifiedAll acceptor =>
    have hstopping := h.stopping_at acceptor
    constructor
    · exact hstopping
    · intro hmem
      obtain ⟨thread, hthread, hwake⟩ := List.mem_map.mp hmem
      cases Thread.eq_of_wake hwake nofun
      exact absurd (h.unstarted hthread) (by simp [acceptor])
    · intro thread hmem hleaves
      exact hstopping
    · rintro joined ⟨⟩
      exact ⟨Nat.zero_le _, nofun⟩
    · rintro (hdestroying | hreturned)
      · cases hdestroying
      · cases hreturned
    · exact nofun
  | @joined joined acceptor left =>
    have hstopping := h.stopping_at acceptor
    refine h.behind hstopping (by simp [acceptor]) ?_ ?_ nofun
    · rintro _ ⟨⟩
      obtain ⟨hlt, -⟩ := List.getElem?_eq_some_iff.mp left
      refine ⟨hlt, fun thread hmem => ?_⟩
      rw [List.take_add_one, left] at hmem
      rcases List.mem_append.mp hmem with hmem | hmem
      · exact (h.joining joined acceptor).2 thread hmem
      · simpa using hmem
    · rintro (hdestroying | hreturned)
      · cases hdestroying
      · cases hreturned
  | @allJoined joined acceptor all =>
    have hstopping := h.stopping_at acceptor
    have hleft := (h.joining joined acceptor).2
    rw [all, List.take_length] at hleft
    exact h.behind hstopping (by simp [acceptor]) nofun (fun _ => hleft) nofun
  | dropped acceptor queue =>
    constructor
    · exact h.stopping
    · exact h.unstarted
    · exact h.leaves
    · exact h.joining
    · exact h.joined
    · intro hreturned
      exact absurd hreturned (by simp [acceptor])
  | returned acceptor queue =>
    have hstopping := h.stopping_at acceptor
    exact h.behind hstopping (by simp [acceptor]) nofun (fun _ => h.joined (.inl acceptor))
      fun _ => queue
  | elapsed time => exact ⟨h.stopping, h.unstarted, h.leaves, h.joining, h.joined, h.emptied⟩

variable {past : List (Act κ)} {process : Process κ}

theorem ProcessRun.phased (h : ProcessRun limits past process) : process.Phased := by
  refine h.invariant (fun _ process => process.Phased) ?_ ?_
  · intro process ⟨workers, now, threads⟩
    refine ⟨rfl, fun _ => rfl, ?_, nofun, ?_, nofun⟩
    · intro thread hmem hleaves
      cases (List.mem_replicate.mp hmem).2
      cases hleaves
    · rintro (hdestroying | hreturned)
      · cases hdestroying
      · cases hreturned
  · intro past process act next _ ih hstep
    exact hstep.phased ih

theorem ProcessRun.sound (h : ProcessRun limits past process) : process.Sound limits := by
  refine h.invariant (fun _ process => process.Sound limits) ?_ ?_
  · intro process ⟨workers, now, threads⟩
    constructor
    · rw [Bool.toNat_false, List.countP_eq_zero]
      intro party hmem
      rcases List.mem_cons.mp hmem with rfl | hmem
      · exact nofun
      · obtain ⟨thread, hthread, rfl⟩ := List.mem_map.mp hmem
        cases (List.mem_replicate.mp hthread).2
        exact nofun
    · intro party hmem
      rcases List.mem_cons.mp hmem with rfl | hmem
      · trivial
      · obtain ⟨thread, hthread, rfl⟩ := List.mem_map.mp hmem
        cases (List.mem_replicate.mp hthread).2
        trivial
  · intro past process act next hrun ih hstep
    exact hstep.sound ih fun hdestroying => (ProcessRun.phased hrun).joined (.inl hdestroying)

end Carafe.Server
