import Carafe.Server.Interleaving

/-!
# No wakeup is lost

A worker that sleeps has nothing to wake up for: every connection in the queue has a
worker that is on its way to it, or the accepting thread is about to wake one up. So
whatever the threads wait for comes from outside.
-/

namespace Carafe.Server
open Http Net History

variable {κ : Type} {limits : PoolLimits}

/-- A `notify_one` is to come. -/
def Acceptor.owes : Acceptor κ → Bool
  | pushed _ | moved => true
  | _ => false

/-- The `notify_all` is to come. -/
def Acceptor.warns : Acceptor κ → Bool
  | flagged | notifying => true
  | _ => false

/-- Looks at the queue before it sleeps. -/
def Thread.awake : Thread κ → Bool
  | locking | testing | holding | popping _ => true
  | _ => false

structure Process.Covered (process : Process κ) : Prop where
  queued : .blocked ∈ process.workers → process.shared.pool.stopping = false →
    process.shared.pool.queue.length ≤
      process.workers.countP Thread.awake + process.acceptor.owes.toNat
  stopped : .blocked ∈ process.workers → process.shared.pool.stopping = true →
    process.acceptor.warns = true

/-- A worker goes to sleep on an empty queue, or takes no more off the queue than it was
on its way to. -/
theorem Thread.Step.covers {now : TimePoint} {shared shared' : Shared κ} {thread next : Thread κ}
    {act : Act κ} (h : thread.Step limits now shared act shared' next)
    (relies : thread.Relies shared.pool) :
    (shared'.pool.queue = [] ∧ shared'.pool.stopping = false) ∨
      (next ≠ .blocked ∧ (shared.pool.stopping = true ∨
        shared'.pool.queue.length + thread.awake.toNat ≤
          shared.pool.queue.length + next.awake.toNat)) := by
  cases h with
  | blocked running empty => exact .inl ⟨empty, running⟩
  | leaves stopping => exact .inr ⟨nofun, .inl stopping⟩
  | took running queue => exact .inr ⟨nofun, .inr (by rw [queue]; exact Nat.le_refl _)⟩
  | popped =>
    obtain ⟨rest, hqueue⟩ := relies
    exact .inr ⟨nofun, .inr (by rw [hqueue]; exact Nat.le_refl _)⟩
  | locked | tested | left | unlocked | overdue | started | turnedAway | ended | closed =>
    exact .inr ⟨nofun, .inr (by simp [Thread.awake])⟩

theorem ConnectionPool.moveIntoBack_length {queue : List (Waiting κ)} (client : Socket κ) :
    (moveIntoBack queue client).length = queue.length := by
  rcases List.eq_nil_or_concat queue with rfl | ⟨front, last, rfl⟩
  · rfl
  · rw [List.concat_eq_append, moveIntoBack_concat]
    simp

/-- The accepting thread leaves a notification due for what it puts into the queue. -/
theorem Acceptor.Step.covers {past : List (Act κ)} {now : TimePoint} {shared shared' : Shared κ}
    {acceptor next : Acceptor κ} {act : Act κ}
    (h : acceptor.Step limits past now shared act shared' next)
    (stopping : shared.pool.stopping = acceptor.stopped) :
    shared'.pool.queue.length + acceptor.owes.toNat ≤
        shared.pool.queue.length + next.owes.toNat ∧
      (shared'.pool.stopping = false → shared.pool.stopping = false) ∧
      (shared'.pool.stopping = true → next.warns = true) := by
  cases h with
  | pushed => exact ⟨by simp [Acceptor.owes], id, fun h => by simp_all [Acceptor.stopped]⟩
  | moved =>
    refine ⟨?_, id, fun h => by simp_all [Acceptor.stopped]⟩
    simp [ConnectionPool.moveIntoBack_length, Acceptor.owes]
  | stopped => exact ⟨Nat.le_refl _, nofun, fun _ => rfl⟩
  | stopUnlocked => exact ⟨Nat.le_refl _, id, fun _ => rfl⟩
  | _ => exact ⟨Nat.le_refl _, id, fun h => by simp_all [Acceptor.stopped]⟩

namespace Process.Covered

variable {process : Process κ} {front back : List (Thread κ)} {thread next : Thread κ}

/-- A worker that is woken up, or started. -/
theorem wakes (h : process.Covered) (workers : process.workers = front ++ thread :: back)
    (awake : thread.awake = false) :
    Process.Covered { process with workers := front ++ .locking :: back } := by
  have hmem : .blocked ∈ front ++ .locking :: back → .blocked ∈ process.workers := by
    intro hmem
    rcases Monitor.mem_replace thread hmem with heq | hmem
    · cases heq
    · exact workers ▸ hmem
  constructor
  · intro hblocked running
    have hqueued := h.queued (hmem hblocked) running
    rw [workers, Monitor.countP_at, awake] at hqueued
    rw [Monitor.countP_at]
    simp only [Thread.awake, Bool.toNat_true, Bool.toNat_false] at hqueued ⊢
    omega
  · intro hblocked stopping
    exact h.stopped (hmem hblocked) stopping

theorem none (blocked : .blocked ∉ process.workers) : process.Covered :=
  ⟨fun hmem => absurd hmem blocked, fun hmem => absurd hmem blocked⟩

/-- Nobody sleeps once everybody has been woken up. -/
theorem unblocked (h : process.Covered) (phased : process.Phased)
    (stopped : process.acceptor.stopped = true) (warned : process.acceptor.warns = false) :
    .blocked ∉ process.workers := by
  intro hmem
  have hwarns := h.stopped hmem (phased.stopping.trans stopped)
  rw [warned] at hwarns
  cases hwarns

end Process.Covered

theorem Process.Step.covered {past : List (Act κ)} {process next : Process κ} {act : Act κ}
    (moved : process.Step limits past act next) (h : process.Covered)
    (sound : process.Sound limits) (phased : process.Phased) : next.Covered := by
  cases moved with
  | accepts step =>
    obtain ⟨queue, running, warns⟩ := step.covers phased.stopping
    constructor
    · intro hblocked hrunning
      have hqueued := h.queued hblocked (running hrunning)
      simp only at queue ⊢
      omega
    · intro _ stopping
      exact warns stopping
  | @works act shared front back thread next workers step =>
    obtain ⟨same, -, -, -⟩ := step.kept
    have relies : thread.Relies process.shared.pool :=
      sound.relied (.inr thread) (by simp [parties, workers])
    rcases step.covers relies with ⟨empty, running⟩ | ⟨awake, queue⟩
    · constructor
      · intro _ _
        simp [empty]
      · intro _ stopping
        simp [running] at stopping
    · have hmem : .blocked ∈ front ++ next :: back → .blocked ∈ process.workers := by
        intro hmem
        rcases Monitor.mem_replace thread hmem with heq | hmem
        · exact absurd heq.symm awake
        · exact workers ▸ hmem
      constructor
      · intro hblocked running
        have hrunning := same.symm.trans running
        have hqueued := h.queued (hmem hblocked) hrunning
        have hqueue := queue.resolve_left (by simp [hrunning])
        rw [workers, Monitor.countP_at] at hqueued
        simp only [Monitor.countP_at] at hqueue ⊢
        omega
      · intro hblocked stopping
        exact h.stopped (hmem hblocked) (same.symm.trans stopping)
  | spawned acceptor started workers | woken workers => exact h.wakes workers rfl
  | constructed acceptor started =>
    have hstopping := phased.stopping_at acceptor
    constructor
    · intro hblocked running
      simpa [acceptor, Acceptor.owes] using h.queued hblocked running
    · intro _ stopping
      exact absurd (hstopping.symm.trans stopping) Bool.false_ne_true
  | @notified front back acceptor workers =>
    have hstopping := phased.stopping_at acceptor
    have hmem : .blocked ∈ process.workers := workers ▸ by simp
    constructor
    · intro _ running
      have hqueued := h.queued hmem running
      rw [workers, Monitor.countP_at, acceptor] at hqueued
      simp only [Monitor.countP_at, Acceptor.owes, Thread.awake, Bool.toNat_true,
        Bool.toNat_false] at hqueued ⊢
      omega
    · intro _ stopping
      exact absurd (hstopping.symm.trans stopping) Bool.false_ne_true
  | notifiedNone acceptor workers => exact .none workers
  | notifiedAll acceptor =>
    refine .none ?_
    intro hmem
    obtain ⟨thread, -, hwake⟩ := List.mem_map.mp hmem
    cases Thread.eq_of_wake hwake (by simp)
    cases hwake
  | joined acceptor | allJoined acceptor | dropped acceptor | returned acceptor =>
    exact .none (h.unblocked phased (by rw [acceptor]; rfl) (by rw [acceptor]; rfl))
  | elapsed time => exact ⟨h.queued, h.stopped⟩

variable {past : List (Act κ)} {process : Process κ}

theorem ProcessRun.covered (h : ProcessRun limits past process) : process.Covered := by
  refine h.invariant (fun _ process => process.Covered) ?_ ?_
  · intro process ⟨workers, now, threads⟩
    exact ⟨fun _ _ => Nat.zero_le _, nofun⟩
  · intro past process act next hrun ih hstep
    exact hstep.covered ih (ProcessRun.sound hrun) (ProcessRun.phased hrun)

/-- An act that waits for nobody outside the process, and that somebody asked for. -/
def Act.inside : Act κ → Bool
  | inner | paused => true
  | pool (.called _) | pool (.ended _) | pool (.elapsed _) => false
  | pool _ => true
  | interrupted | failed _ | woken => false

def Thread.serves : Thread κ → Bool
  | serving _ => true
  | _ => false

/-- The points from which a worker goes on without the mutex, or with the one it has. -/
def Thread.ready : Thread κ → Bool
  | unstarted | locking | blocked | serving _ | left => false
  | _ => true

/-- The threads that do not stand still wait for a connection, for the end of one that is
served, or for nothing any more. -/
inductive Process.Waits (process : Process κ) : Prop where
  | accept (acceptor : process.acceptor = .accepting)
      (workers : ∀ thread ∈ process.workers, thread = .blocked ∨ thread.serves = true)
      (queue : .blocked ∈ process.workers → process.shared.pool.queue = [])
  | join {joined : Nat} (acceptor : process.acceptor = .joining joined)
      (serving : ∃ thread ∈ process.workers, thread.serves = true)
      (workers : ∀ thread ∈ process.workers, thread = .left ∨ thread.serves = true)
  | returned (acceptor : process.acceptor = .returned)

theorem Thread.advances {thread : Thread κ} (ready : thread.ready = true) (limits : PoolLimits)
    (now : TimePoint) {shared : Shared κ} (relies : thread.Relies shared.pool) :
    ∃ act shared' next, act.inside = true ∧ thread.Step limits now shared act shared' next := by
  cases thread with
  | testing =>
    by_cases hready : shared.pool.stopping = true ∨ shared.pool.queue ≠ []
    · exact ⟨_, _, _, rfl, .tested hready⟩
    · simp only [not_or, Bool.not_eq_true, not_not] at hready
      exact ⟨_, _, _, rfl, .blocked hready.1 hready.2⟩
  | holding =>
    cases hstopping : shared.pool.stopping with
    | true => exact ⟨_, _, _, rfl, .leaves hstopping⟩
    | false =>
      have hqueue := relies.resolve_left (by simp [hstopping])
      obtain ⟨job, rest, hqueue⟩ := List.exists_cons_of_ne_nil hqueue
      exact ⟨_, _, _, rfl, .took hstopping hqueue⟩
  | leaving => exact ⟨_, _, _, rfl, .left⟩
  | popping job => exact ⟨_, _, _, rfl, .popped⟩
  | unlocking job => exact ⟨_, _, _, rfl, .unlocked⟩
  | picked job =>
    by_cases hlate : job.overdue limits now
    · exact ⟨_, _, _, rfl, .overdue hlate⟩
    · exact ⟨_, _, _, rfl, .started hlate⟩
  | overdue client => exact ⟨_, _, _, rfl, .turnedAway 0⟩
  | closing client => exact ⟨_, _, _, rfl, .closed⟩
  | _ => cases ready

/-- A worker at one of these points holds the mutex, or wants it. -/
theorem Thread.ready_of_holds {thread : Thread κ} (h : thread.holds = true) :
    thread.ready = true := by
  cases thread <;> first | rfl | cases h

theorem Thread.standing {thread : Thread κ} (ready : thread.ready = false)
    (away : thread ≠ .locking) :
    thread = .unstarted ∨ thread = .blocked ∨ thread = .left ∨ thread.serves = true := by
  cases thread <;> simp_all [Thread.ready, serves]

theorem Thread.awake_of_serves {thread : Thread κ} (h : thread.serves = true) :
    thread.awake = false := by
  cases thread with
  | serving => rfl
  | _ => cases h

theorem Acceptor.advances {acceptor : Acceptor κ} (holds : acceptor.holds = true)
    (sent : acceptor ≠ .moved) (limits : PoolLimits) (past : List (Act κ)) (now : TimePoint)
    (shared : Shared κ) :
    ∃ act shared' next, act.inside = true ∧
      acceptor.Step limits past now shared act shared' next := by
  cases acceptor with
  | testing client =>
    by_cases hroom : shared.pool.stopping = false ∧ shared.pool.queue.length < limits.queued
    · exact ⟨_, _, _, rfl, .tested hroom.1 hroom.2⟩
    · exact ⟨_, _, _, rfl, .full hroom⟩
  | pushing client => exact ⟨_, _, _, rfl, .threw⟩
  | pushed client => exact ⟨_, _, _, rfl, .moved⟩
  | moved => exact absurd rfl sent
  | notified => exact ⟨_, _, _, rfl, .unlocked⟩
  | refusing client => exact ⟨_, _, _, rfl, .letGo⟩
  | setting => exact ⟨_, _, _, rfl, .stopped⟩
  | flagged => exact ⟨_, _, _, rfl, .stopUnlocked⟩
  | _ => cases holds

/-- Some thread can go on by itself. -/
def Process.Enabled (limits : PoolLimits) (past : List (Act κ)) (process : Process κ) : Prop :=
  ∃ act next, act.inside = true ∧ process.Step limits past act next

theorem Process.Enabled.worker {thread : Thread κ} (mem : thread ∈ process.workers)
    (h : ∃ act shared next, act.inside = true ∧
      thread.Step limits process.now process.shared act shared next) :
    process.Enabled limits past := by
  obtain ⟨front, back, hworkers⟩ := List.mem_iff_append.mp mem
  obtain ⟨act, shared, next, hinside, hstep⟩ := h
  exact ⟨act, _, hinside, .works hworkers hstep⟩

theorem Process.Enabled.acceptor {acceptor : Acceptor κ} (here : process.acceptor = acceptor)
    (h : ∃ act shared next, act.inside = true ∧
      acceptor.Step limits past process.now process.shared act shared next) :
    process.Enabled limits past := by
  obtain ⟨act, shared, next, hinside, hstep⟩ := h
  exact ⟨act, _, hinside, .accepts (here ▸ hstep)⟩

/-- Whoever has the mutex goes on. -/
theorem ProcessRun.enabled_of_locked (h : ProcessRun limits past process)
    (locked : process.shared.locked = true) : process.Enabled limits past := by
  have hsound : Monitor.Sound _ _ _ _ := h.sound
  rw [locked] at hsound
  obtain ⟨party, hmem, hholds⟩ := hsound.holder
  rcases List.mem_cons.mp hmem with rfl | hworker
  · by_cases hsent : process.acceptor = .moved
    · by_cases hblocked : .blocked ∈ process.workers
      · obtain ⟨front, back, hworkers⟩ := List.mem_iff_append.mp hblocked
        exact ⟨_, _, rfl, .notified hsent hworkers⟩
      · exact ⟨_, _, rfl, .notifiedNone hsent hblocked⟩
    · exact .acceptor rfl (Acceptor.advances hholds hsent _ _ _ _)
  · obtain ⟨thread, hthread, rfl⟩ := List.mem_map.mp hworker
    exact .worker hthread
      (Thread.advances (Thread.ready_of_holds hholds) _ _ (hsound.relied _ hmem))

/-- No worker that stands still is one that will look at the queue. -/
theorem Process.none_awake
    (standing : ∀ thread ∈ process.workers, thread = .unstarted ∨ thread = .blocked ∨
      thread = .left ∨ thread.serves = true) : process.workers.countP Thread.awake = 0 := by
  rw [List.countP_eq_zero]
  intro thread hmem
  rcases standing thread hmem with rfl | rfl | rfl | hthread
  · exact nofun
  · exact nofun
  · exact nofun
  · simp [Thread.awake_of_serves hthread]

/-- The joins go on, unless there is a worker that serves. -/
theorem ProcessRun.joins_or_waits (h : ProcessRun limits past process) {joined : Nat}
    (here : process.acceptor = .joining joined)
    (standing : ∀ thread ∈ process.workers, thread = .blocked ∨ thread = .left ∨
      thread.serves = true) : process.Enabled limits past ∨ process.Waits := by
  have hblocked := h.covered.unblocked h.phased (by rw [here]; rfl) (by rw [here]; rfl)
  have gone : ∀ thread ∈ process.workers, thread = .left ∨ thread.serves = true := by
    intro thread hmem
    rcases standing thread hmem with rfl | hthread
    · exact absurd hmem hblocked
    · exact hthread
  by_cases hserving : ∃ thread ∈ process.workers, thread.serves = true
  · exact .inr (.join here hserving gone)
  · left
    have hleft : ∀ thread ∈ process.workers, thread = .left := by
      intro thread hmem
      exact (gone thread hmem).resolve_right fun hthread => hserving ⟨thread, hmem, hthread⟩
    obtain ⟨hle, -⟩ := h.phased.joining joined here
    rcases Nat.lt_or_eq_of_le hle with hlt | hall
    · have hget := List.getElem?_eq_getElem hlt
      rw [hleft _ (List.getElem_mem hlt)] at hget
      exact ⟨_, _, rfl, .joined here hget⟩
    · exact ⟨_, _, rfl, .allJoined here hall⟩

/-- With the mutex free and no worker on its way, the accepting thread goes on or waits. -/
theorem ProcessRun.enabled_or_waits_of_standing (h : ProcessRun limits past process)
    (unlocked : process.shared.locked = false)
    (standing : ∀ thread ∈ process.workers, thread = .unstarted ∨ thread = .blocked ∨
      thread = .left ∨ thread.serves = true) :
    process.Enabled limits past ∨ process.Waits := by
  have phased := h.phased
  have started : process.acceptor ≠ .constructing → ∀ thread ∈ process.workers,
      thread = .blocked ∨ thread = .left ∨ thread.serves = true := by
    intro hother thread hmem
    rcases standing thread hmem with rfl | hthread
    · exact absurd (phased.unstarted hmem) hother
    · exact hthread
  have released : process.acceptor.holds = false := by
    cases hholds : process.acceptor.holds with
    | false => rfl
    | true =>
      have hlocked := Monitor.Sound.locked_of_holds h.sound List.mem_cons_self hholds
      rw [unlocked] at hlocked
      cases hlocked
  cases hhere : process.acceptor with
  | constructing =>
    left
    by_cases hmem : .unstarted ∈ process.workers
    · obtain ⟨front, back, hworkers, hfront⟩ := List.eq_append_cons_of_mem hmem
      exact ⟨_, _, rfl, .spawned hhere hfront hworkers⟩
    · exact ⟨_, _, rfl, .constructed hhere hmem⟩
  | accepting =>
    right
    have running := phased.stopping
    rw [hhere] at running
    refine .accept hhere ?_ ?_
    · intro thread hmem
      rcases started (by simp [hhere]) thread hmem with hthread | rfl | hthread
      · exact .inl hthread
      · exact absurd (running.symm.trans (phased.leaves _ hmem rfl)) nofun
      · exact .inr hthread
    · intro hblocked
      have hqueued := h.covered.queued hblocked running
      rw [Process.none_awake standing, hhere] at hqueued
      exact List.eq_nil_of_length_eq_zero (Nat.le_zero.mp hqueued)
  | pausing => exact .inl (.acceptor hhere ⟨_, _, _, rfl, .paused⟩)
  | entering client => exact .inl (.acceptor hhere ⟨_, _, _, rfl, .locked unlocked⟩)
  | refused client => exact .inl (.acceptor hhere ⟨_, _, _, rfl, .answered 0⟩)
  | answered client => exact .inl (.acceptor hhere ⟨_, _, _, rfl, .closed⟩)
  | stopping => exact .inl (.acceptor hhere ⟨_, _, _, rfl, .stopLocked unlocked⟩)
  | notifying => exact .inl ⟨_, _, rfl, .notifiedAll hhere⟩
  | joining joined => exact h.joins_or_waits hhere (started (by simp [hhere]))
  | destroying =>
    left
    cases hqueue : process.shared.pool.queue with
    | nil => exact ⟨_, _, rfl, .returned hhere hqueue⟩
    | cons job rest => exact ⟨_, _, rfl, @Process.Step.dropped _ _ _ _ [] rest job hhere hqueue⟩
  | returned => exact .inr (.returned hhere)
  | testing | pushing | pushed | moved | notified | refusing | setting | flagged =>
    rw [hhere] at released
    cases released

theorem ProcessRun.enabled_or_waits (h : ProcessRun limits past process) :
    process.Enabled limits past ∨ process.Waits := by
  cases hlocked : process.shared.locked with
  | true => exact .inl (h.enabled_of_locked hlocked)
  | false =>
    by_cases hready : ∃ thread ∈ process.workers, thread.ready = true
    · obtain ⟨thread, hmem, hready⟩ := hready
      exact .inl (.worker hmem (Thread.advances hready _ _
        (Monitor.Sound.relied h.sound (.inr thread) (by simpa [parties] using hmem))))
    by_cases hlocking : .locking ∈ process.workers
    · exact .inl (.worker hlocking ⟨_, _, _, rfl, .locked hlocked⟩)
    refine h.enabled_or_waits_of_standing hlocked fun thread hmem => ?_
    refine Thread.standing ?_ fun hthread => hlocking (hthread ▸ hmem)
    simpa using fun hthread => hready ⟨thread, hmem, hthread⟩

/-- While a worker sleeps, each connection in the queue has a worker that is awake and
will look for one, or the notification that it came is still due; while one sleeps on a
pool that stops, so is the notification for all. -/
theorem ProcessRun.no_wakeup_lost (h : ProcessRun limits past process)
    (asleep : .blocked ∈ process.workers) :
    (process.shared.pool.stopping = false → process.shared.pool.queue.length ≤
      process.workers.countP Thread.awake + process.acceptor.owes.toNat) ∧
    (process.shared.pool.stopping = true → process.acceptor.warns = true) :=
  ⟨h.covered.queued asleep, h.covered.stopped asleep⟩

/-- A worker asleep while a connection is pushed. -/
theorem ProcessRun.no_wakeup_lost_pushed : ∃ past, ∃ process : Process Nat,
    ProcessRun {} past process ∧ process.shared.pool.queue.length = 1 ∧
      (process.shared.pool.stopping = false → process.shared.pool.queue.length ≤
        process.workers.countP Thread.awake + process.acceptor.owes.toNat) := by
  have hstart : ProcessRun {} ([] : List (Act Nat)) _ := .start (.constructing 1 5 (by decide))
  have hspawned := hstart.step (@Process.Step.spawned _ _ _ _ [] [] rfl nofun rfl)
  have htaken := hspawned.step (@Process.Step.works _ _ _ _ _ _ [] [] _ _ rfl (.locked rfl))
  have hasleep := htaken.step (@Process.Step.works _ _ _ _ _ _ [] [] _ _ rfl (.blocked rfl rfl))
  have hconstructed := hasleep.step (.constructed rfl nofun)
  have haccepted := hconstructed.step (.accepts (.accepted (0 : Nat) (by simp)))
  have hlocked := haccepted.step (.accepts (.locked rfl))
  have htested := hlocked.step (.accepts (.tested rfl (by decide)))
  have hpushed := htested.step (.accepts .pushed)
  exact ⟨_, _, hpushed, rfl, (ProcessRun.no_wakeup_lost hpushed (by simp)).1⟩

/-- The threads never wait for each other. When none of them can go on, `serve_forever`
has returned; or it waits for a connection, with all workers serving or none queued; or
it waits for a worker that serves one. -/
theorem ProcessRun.rests_outside (h : ProcessRun limits past process)
    (rests : ¬ process.Enabled limits past) :
    process.acceptor = .returned ∨
    (process.acceptor = .accepting ∧
      ((∀ thread ∈ process.workers, thread.serves = true) ∨ process.shared.pool.queue = [])) ∨
    ((∃ joined, process.acceptor = .joining joined) ∧
      ∃ thread ∈ process.workers, thread.serves = true) := by
  rcases h.enabled_or_waits.resolve_left rests with
    ⟨hhere, hworkers, hqueue⟩ | ⟨hhere, hserving, -⟩ | ⟨hhere⟩
  · by_cases hblocked : .blocked ∈ process.workers
    · exact .inr (.inl ⟨hhere, .inr (hqueue hblocked)⟩)
    · refine .inr (.inl ⟨hhere, .inl fun thread hmem => ?_⟩)
      exact (hworkers thread hmem).resolve_left fun hthread => hblocked (hthread ▸ hmem)
  · exact .inr (.inr ⟨⟨_, hhere⟩, hserving⟩)
  · exact .inl hhere

/-- With every worker asleep or serving, a thread in `accept` has nobody but a client to wait for. -/
theorem Process.rests_accepting (accepting : process.acceptor = .accepting)
    (workers : ∀ thread ∈ process.workers, thread = .blocked ∨ thread.serves = true) :
    ¬ process.Enabled limits past := by
  rintro ⟨act, next, hinside, hstep⟩
  cases hstep with
  | accepts step =>
    rw [accepting] at step
    cases step <;> cases hinside
  | @works _ _ front back thread next hworkers step =>
    rcases workers thread (by simp [hworkers]) with rfl | hserves
    · cases step
    · cases thread with
      | serving client =>
        cases step
        cases hinside
      | _ => cases hserves
  | woken | elapsed => cases hinside
  | spawned acceptor | constructed acceptor | notified acceptor | notifiedNone acceptor
  | notifiedAll acceptor | joined acceptor | allJoined acceptor | dropped acceptor
  | returned acceptor =>
    rw [accepting] at acceptor
    cases acceptor

/-- One worker serves a connection, and the other one is asleep. -/
theorem ProcessRun.rests_outside_serving : ∃ past, ∃ process : Process Nat,
    ProcessRun {} past process ∧ .blocked ∈ process.workers ∧
      .serving (some 0) ∈ process.workers ∧ (process.acceptor = .returned ∨
      (process.acceptor = .accepting ∧
        ((∀ thread ∈ process.workers, thread.serves = true) ∨
          process.shared.pool.queue = [])) ∨
      ((∃ joined, process.acceptor = .joining joined) ∧
        ∃ thread ∈ process.workers, thread.serves = true)) := by
  have hstart : ProcessRun {} ([] : List (Act Nat)) _ := .start (.constructing 2 5 (by decide))
  have hfirst := hstart.step (@Process.Step.spawned _ _ _ _ [] [.unstarted] rfl nofun rfl)
  have hsecond := hfirst.step (@Process.Step.spawned _ _ _ _ [.locking] [] rfl (by simp) rfl)
  have hconstructed := hsecond.step (.constructed rfl (by simp))
  have hqueued := ProcessRun.queues hconstructed rfl rfl rfl (by decide) (by simp) 0 (by simp)
  have hserved := @ProcessRun.serves _ _ _ _ [] [.locking] _ _ hqueued rfl rfl rfl rfl (by decide)
  have hlocked := hserved.step
    (@Process.Step.works _ _ _ _ _ _ [.serving (some 0)] [] _ _ rfl (.locked rfl))
  have hasleep := hlocked.step
    (@Process.Step.works _ _ _ _ _ _ [.serving (some 0)] [] _ _ rfl (.blocked rfl rfl))
  refine ⟨_, _, hasleep, by simp, by simp,
    ProcessRun.rests_outside hasleep (Process.rests_accepting rfl ?_)⟩
  simp [Thread.serves]

end Carafe.Server
