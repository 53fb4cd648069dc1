import Carafe.Server.Wakeups

/-!
# How the threads come to rest

What the threads do is paid for by the connections that are accepted, so without new
ones they come to rest. Where the accept loop has given up, they rest when the pool is
gone and every connection is closed.
-/

namespace Carafe.Server
open Http Net History

variable {κ : Type} {limits : PoolLimits}

/-- How many acts a worker is away from its next sleep, short of a job. -/
def Thread.weight : Thread κ → Nat
  | unstarted | closing _ => 5
  | locking => 4
  | testing => 3
  | holding => 2
  | leaving | popping _ => 1
  | unlocking _ => 8
  | picked _ => 7
  | overdue _ | serving _ => 6
  | blocked | left => 0

/-- A connection is worth its place in the queue and a wakeup; taking the pool down is
worth a wakeup and a join for each worker. -/
def Acceptor.weight (workers : Nat) : Acceptor κ → Nat
  | constructing => 5 * workers + 7
  | accepting => 5 * workers + 6
  | pausing => 5 * workers + 7
  | entering _ => 5 * workers + 24
  | testing _ => 5 * workers + 23
  | pushing _ => 5 * workers + 22
  | pushed _ => 5 * workers + 13
  | moved => 5 * workers + 12
  | notified => 5 * workers + 7
  | refusing _ => 5 * workers + 9
  | refused _ => 5 * workers + 8
  | answered _ => 5 * workers + 7
  | stopping => 5 * workers + 6
  | setting => 5 * workers + 5
  | flagged => 5 * workers + 4
  | notifying => 5 * workers + 3
  | joining joined => workers - joined + 2
  | destroying => 1
  | returned => 0

def Process.weight (process : Process κ) : Nat :=
  (process.workers.map Thread.weight).sum + 8 * process.shared.pool.queue.length +
    process.acceptor.weight process.workers.length

/-- An act of the threads, and not of what they wait for. -/
def Act.own : Act κ → Bool
  | inner | paused => true
  | pool (.called _) | pool (.elapsed _) => false
  | pool _ => true
  | interrupted | failed _ | woken => false

/-- How many acts of the threads may come of what they wait for. -/
def Act.credit : Act κ → Nat
  | pool (.called _) => 18
  | failed _ => 1
  | woken => 4
  | _ => 0

theorem sum_weight_at (front back : List (Thread κ)) (thread : Thread κ) :
    ((front ++ thread :: back).map Thread.weight).sum =
      ((front ++ back).map Thread.weight).sum + thread.weight := by
  simp only [List.map_append, List.map_cons, List.sum_append, List.sum_cons]
  omega

theorem sum_weight_wake (workers : List (Thread κ)) :
    ((workers.map Thread.wake).map Thread.weight).sum ≤
      (workers.map Thread.weight).sum + 4 * workers.length := by
  induction workers with
  | nil => exact Nat.le_refl _
  | cons thread workers ih =>
    have hwake : thread.wake.weight ≤ thread.weight + 4 := by
      cases thread <;> simp [Thread.wake, Thread.weight]
    simp only [List.map_cons, List.sum_cons, List.length_cons]
    omega

theorem Thread.Step.paid {now : TimePoint} {shared shared' : Shared κ} {thread next : Thread κ}
    {act : Act κ} (h : thread.Step limits now shared act shared' next)
    (relies : thread.Relies shared.pool) :
    next.weight + 8 * shared'.pool.queue.length + act.own.toNat ≤
      thread.weight + 8 * shared.pool.queue.length + act.credit := by
  cases h with
  | took running queue =>
    simp only [queue, List.length_cons, weight, Act.own, Act.credit, Bool.toNat_true]
    omega
  | popped =>
    obtain ⟨rest, hqueue⟩ := relies
    simp only [hqueue, List.tail_cons, List.length_cons, weight, Act.own, Act.credit,
      Bool.toNat_true]
    omega
  | _ =>
    simp only [weight, Act.own, Act.credit, Bool.toNat_true]
    omega

theorem Acceptor.Step.paid {past : List (Act κ)} {now : TimePoint} {shared shared' : Shared κ}
    {acceptor next : Acceptor κ} {act : Act κ}
    (h : acceptor.Step limits past now shared act shared' next) (workers : Nat) :
    next.weight workers + 8 * shared'.pool.queue.length + act.own.toNat ≤
      acceptor.weight workers + 8 * shared.pool.queue.length + act.credit := by
  cases h with
  | pushed =>
    simp only [List.length_append, List.length_singleton, weight, Act.own, Act.credit,
      Bool.toNat_true]
    omega
  | moved =>
    simp only [ConnectionPool.moveIntoBack_length, weight, Act.own, Act.credit, Bool.toNat_true]
    omega
  | stopped =>
    simp only [ConnectionPool.stop, weight, Act.own, Act.credit, Bool.toNat_true]
    omega
  | _ =>
    simp only [weight, Act.own, Act.credit, Bool.toNat_true, Bool.toNat_false]
    omega

theorem Process.Step.paid {past : List (Act κ)} {process next : Process κ} {act : Act κ}
    (moved : process.Step limits past act next) (sound : process.Sound limits) :
    next.weight + act.own.toNat ≤ process.weight + act.credit := by
  cases moved with
  | accepts step =>
    have hpaid := step.paid process.workers.length
    simp only [weight]
    omega
  | @works act shared front back thread next workers step =>
    have hpaid := step.paid (sound.relied (.inr thread) (by simp [parties, workers]))
    simp only [weight, workers, sum_weight_at, List.length_append, List.length_cons]
    omega
  | spawned acceptor started workers | woken workers =>
    simp only [weight, workers, sum_weight_at, List.length_append, List.length_cons,
      Thread.weight, Act.own, Act.credit, Bool.toNat_true, Bool.toNat_false]
    omega
  | constructed acceptor | notifiedNone acceptor =>
    simp only [weight, acceptor, Acceptor.weight, Act.own, Act.credit, Bool.toNat_true]
    omega
  | notified acceptor workers =>
    simp only [weight, acceptor, workers, sum_weight_at, List.length_append, List.length_cons,
      Acceptor.weight, Thread.weight, Act.own, Act.credit, Bool.toNat_true]
    omega
  | notifiedAll acceptor =>
    have hwake := sum_weight_wake process.workers
    simp only [weight, acceptor, List.length_map, Acceptor.weight, Act.own, Act.credit,
      Bool.toNat_true]
    omega
  | joined acceptor left =>
    obtain ⟨hlt, -⟩ := List.getElem?_eq_some_iff.mp left
    simp only [weight, acceptor, Acceptor.weight, Act.own, Act.credit, Bool.toNat_true]
    omega
  | allJoined acceptor all =>
    simp only [weight, acceptor, Acceptor.weight, Act.own, Act.credit, Bool.toNat_true]
    omega
  | dropped acceptor queue =>
    simp only [weight, queue, List.length_append, List.length_cons, Act.own, Act.credit,
      Bool.toNat_true]
    omega
  | returned acceptor queue =>
    simp only [weight, acceptor, Acceptor.weight, Act.own, Act.credit, Bool.toNat_true]
    omega
  | elapsed time => exact Nat.le_refl _

variable {past : List (Act κ)} {process : Process κ}

theorem ProcessRun.work_paid (h : ProcessRun limits past process) :
    process.weight + past.countP Act.own ≤
      10 * limits.workers + 7 + (past.map Act.credit).sum := by
  rw [← sum_map_toNat]
  refine h.paid Process.weight (fun act => act.own.toNat) Act.credit ?_ ?_
  · rintro process ⟨workers, now, threads⟩
    simp only [Process.weight, List.map_replicate, Thread.weight, List.sum_replicate_nat,
      List.length_replicate, List.length_nil, Acceptor.weight]
    omega
  · intro past process act next hrun hstep
    exact hstep.paid (ProcessRun.sound hrun)

/-- Nothing spins: the threads do no more than the connections and failures that `accept`
came back with, the wakeups nobody asked for and the end of the pool make them do. -/
theorem ProcessRun.work_bounded (h : ProcessRun limits past process) :
    past.countP Act.own ≤ 10 * limits.workers + 7 + (past.map Act.credit).sum := by
  have := h.work_paid
  omega

/-- The first acts of a server with one worker. -/
theorem ProcessRun.work_bounded_start : ∃ process : Process Nat,
    ProcessRun {} [.inner, .inner, .pool (.called 0)] process ∧
    [Act.inner, .inner, .pool (.called 0)].countP Act.own ≤
      10 * 64 + 7 + ([Act.inner, .inner, .pool (.called 0)].map Act.credit).sum := by
  have hstart : ProcessRun {} ([] : List (Act Nat)) _ := .start (.constructing 1 5 (by decide))
  have hspawned := hstart.step (@Process.Step.spawned _ _ _ _ [] [] rfl nofun rfl)
  have hconstructed := hspawned.step (.constructed rfl nofun)
  have haccepted := hconstructed.step (.accepts (.accepted (0 : Nat) (by simp)))
  exact ⟨_, haccepted, ProcessRun.work_bounded haccepted⟩

/-- In or past `~ConnectionPool`. -/
def Acceptor.ends : Acceptor κ → Bool
  | stopping | setting | flagged | notifying | joining _ | destroying | returned => true
  | _ => false

def Acceptor.pauses : Acceptor κ → Bool
  | pausing => true
  | _ => false

namespace Act

/-- A failure of `accept` that is answered in the given way. -/
def failsWith (retry : AcceptRetry) : Act κ → Bool
  | failed osError => osError ≠ eintr ∧ acceptRetryFor osError = retry
  | _ => false

def pauses : Act κ → Bool
  | paused => true
  | _ => false

/-- What the loop does, as long as it goes on. -/
def loops : Act κ → Bool
  | pool (.called _) | interrupted | failed _ | paused => true
  | _ => false

end Act

/-- What an act does to the accept loop. -/
structure Loops (acceptor : Acceptor κ) (act : Act κ) (next : Acceptor κ) : Prop where
  ends : next.ends = (acceptor.ends || act.failsWith .never)
  pauses : (act.pauses).toNat + next.pauses.toNat =
    acceptor.pauses.toNat + (act.failsWith .afterAPause).toNat
  ended : acceptor.ends = true → act.loops = false
  failed : ∀ osError, act = .failed osError → osError ≠ eintr

theorem Acceptor.Step.loops {past : List (Act κ)} {now : TimePoint} {shared shared' : Shared κ}
    {acceptor next : Acceptor κ} {act : Act κ}
    (h : acceptor.Step limits past now shared act shared' next) : Loops acceptor act next := by
  cases h with
  | gaveUp failed retry | pauses failed retry | retries failed retry =>
    constructor
    · simp [ends, Act.failsWith, failed, retry]
    · simp [Acceptor.pauses, Act.pauses, Act.failsWith, failed, retry]
    · exact nofun
    · rintro _ ⟨⟩
      exact failed
  | _ => exact ⟨rfl, rfl, by simp [ends, Act.loops], nofun⟩

theorem Thread.Step.loops {now : TimePoint} {shared shared' : Shared κ} {thread next : Thread κ}
    {act : Act κ} (h : thread.Step limits now shared act shared' next) (acceptor : Acceptor κ) :
    Loops acceptor act acceptor := by
  cases h <;> exact ⟨by simp [Act.failsWith], by simp [Act.failsWith, Act.pauses], fun _ => rfl,
    nofun⟩

theorem Process.Step.loops {past : List (Act κ)} {process next : Process κ} {act : Act κ}
    (moved : process.Step limits past act next) :
    Loops process.acceptor act next.acceptor := by
  cases moved with
  | accepts step => exact step.loops
  | works workers step => exact step.loops _
  | constructed acceptor | notified acceptor | notifiedNone acceptor | notifiedAll acceptor
  | joined acceptor | allJoined acceptor | returned acceptor | spawned acceptor
  | dropped acceptor =>
    rw [acceptor]
    exact ⟨rfl, rfl, fun _ => rfl, nofun⟩
  | woken | elapsed =>
    exact ⟨by simp [Act.failsWith], by simp [Act.failsWith, Act.pauses], fun _ => rfl, nofun⟩

theorem ProcessRun.ends (h : ProcessRun limits past process) :
    process.acceptor.ends = past.any (Act.failsWith .never) := by
  refine h.invariant (fun past process => process.acceptor.ends = past.any (Act.failsWith .never))
    ?_ ?_
  · rintro process ⟨workers, now, threads⟩
    rfl
  · intro past process act next _ ih hstep
    rw [hstep.loops.ends, ih]
    simp

theorem ProcessRun.pauses (h : ProcessRun limits past process) :
    past.countP Act.pauses + process.acceptor.pauses.toNat =
      past.countP (Act.failsWith .afterAPause) := by
  refine h.invariant (fun past process =>
    past.countP Act.pauses + process.acceptor.pauses.toNat =
      past.countP (Act.failsWith .afterAPause)) ?_ ?_
  · rintro process ⟨workers, now, threads⟩
    rfl
  · intro past process act next _ ih hstep
    have hpauses := hstep.loops.pauses
    simp only [TokenFlow.countP_concat]
    omega

/-- Only the listener ends the loop, at once and for good; a server out of descriptors or
memory pauses each time it is told so, and a signal goes unnoticed. -/
theorem ProcessRun.loop_decided (h : ProcessRun limits past process) :
    process.acceptor.ends = past.any (Act.failsWith .never) ∧
    past.countP Act.pauses + process.acceptor.pauses.toNat =
      past.countP (Act.failsWith .afterAPause) ∧
    (∀ before after act, past = before ++ act :: after →
      before.any (Act.failsWith .never) = true → act.loops = false) ∧
    .failed eintr ∉ past := by
  refine ⟨h.ends, h.pauses, ?_, ?_⟩
  · rintro before after act rfl ended
    obtain ⟨reached, next, hrun, hstep⟩ := h.split
    exact hstep.loops.ended ((ProcessRun.ends hrun).trans ended)
  · intro hmem
    obtain ⟨before, after, reached, next, rfl, hrun, hstep⟩ := h.around hmem
    exact hstep.loops.failed eintr rfl rfl

/-- A server that runs out of descriptors and then loses its listener. -/
theorem ProcessRun.loop_decided_closed : ∃ process : Process Nat,
    ProcessRun {} [.inner, .failed emfile, .paused, .failed 9] process ∧
      process.acceptor.ends = true := by
  have hstart : ProcessRun {} ([] : List (Act Nat)) _ := .start (.constructing 0 5 (by decide))
  have hconstructed := hstart.step (.constructed rfl nofun)
  have hfull := hconstructed.step
    (.accepts (@Acceptor.Step.pauses _ _ _ _ _ emfile (by decide) (by decide)))
  have hpaused := hfull.step (.accepts .paused)
  have hclosed := hpaused.step
    (.accepts (@Acceptor.Step.gaveUp _ _ _ _ _ 9 (by decide) (by decide)))
  exact ⟨_, hclosed, (ProcessRun.loop_decided hclosed).1.trans (by decide)⟩

theorem ProcessRun.finished_shown (past : List (Act κ)) :
    (past.filterMap Act.shown).filterMap Event.finished = past.filterMap Act.finished :=
  List.filterMap_filterMap

theorem ProcessRun.called_shown {conn : κ} (h : .pool (.called conn) ∈ past) :
    .called conn ∈ past.filterMap Act.shown :=
  List.mem_filterMap.mpr ⟨_, h, rfl⟩

/-- Where `serve_forever` has returned, it has closed each connection that it accepted once. -/
theorem ProcessRun.closes_returned [DecidableEq κ] (h : ProcessRun limits past process)
    (returned : process.acceptor = .returned) :
    (∀ thread ∈ process.workers, thread = .left) ∧ process.shared.pool.queue = [] ∧
      ∀ conn, .pool (.called conn) ∈ past →
        (past.filterMap Act.finished).count (some conn) = 1 := by
  have hleft := h.phased.joined (.inr returned)
  have hqueue := h.phased.emptied returned
  refine ⟨hleft, hqueue, fun conn called => ?_⟩
  have hone := h.pool.in_one_place (ProcessRun.called_shown called)
  rw [ProcessRun.finished_shown] at hone
  have hcalls : process.view.calls = [] := by simp [Process.view, returned, Acceptor.call]
  have hshown : process.view.pool.queue = [] := by
    simp [Process.view, Process.queue, returned, Acceptor.filled, hqueue]
  have hworkers : (process.view.workers.map Worker.client).count (some conn) = 0 := by
    rw [List.count_eq_zero]
    simp only [Process.view, List.map_map, List.mem_map, not_exists, not_and]
    intro thread hmem hclient
    rw [hleft thread hmem] at hclient
    cases hclient
  rw [hcalls, hshown, hworkers] at hone
  simpa using hone

/-- With the accept loop over, nobody served any more and no thread able to go on,
`serve_forever` has returned, and it has closed each connection that it accepted once. -/
theorem ProcessRun.closes_all [DecidableEq κ] (h : ProcessRun limits past process)
    (ended : past.any (Act.failsWith .never) = true)
    (unserved : ∀ thread ∈ process.workers, thread.serves = false)
    (rests : ¬ process.Enabled limits past) :
    process.acceptor = .returned ∧ (∀ thread ∈ process.workers, thread = .left) ∧
      process.shared.pool.queue = [] ∧ ∀ conn, .pool (.called conn) ∈ past →
        (past.filterMap Act.finished).count (some conn) = 1 := by
  have hends := h.ends.trans ended
  have hreturned : process.acceptor = .returned := by
    rcases h.enabled_or_waits.resolve_left rests with ⟨hhere, -, -⟩ | ⟨-, hserving, -⟩ | ⟨hhere⟩
    · rw [hhere] at hends
      cases hends
    · obtain ⟨thread, hmem, hserves⟩ := hserving
      rw [unserved thread hmem] at hserves
      cases hserves
    · exact hhere
  exact ⟨hreturned, h.closes_returned hreturned⟩

/-- The listener goes while a connection is in the queue. -/
theorem ProcessRun.closes_all_queued : ∃ past, ∃ process : Process Nat,
    ProcessRun {} past process ∧ .pool (.called 0) ∈ past ∧
      (past.filterMap Act.finished).count (some 0) = 1 := by
  have hstart : ProcessRun {} ([] : List (Act Nat)) _ := .start (.constructing 0 5 (by decide))
  have hconstructed := hstart.step (.constructed rfl nofun)
  have haccepted := hconstructed.step (.accepts (.accepted (0 : Nat) (by simp)))
  have hlocked := haccepted.step (.accepts (.locked rfl))
  have htested := hlocked.step (.accepts (.tested rfl (by decide)))
  have hpushed := htested.step (.accepts .pushed)
  have hmoved := hpushed.step (.accepts .moved)
  have hnotified := hmoved.step (.notifiedNone rfl nofun)
  have hunlocked := hnotified.step (.accepts .unlocked)
  have hgone := hunlocked.step
    (.accepts (@Acceptor.Step.gaveUp _ _ _ _ _ 9 (by decide) (by decide)))
  have hstopping := hgone.step (.accepts (.stopLocked rfl))
  have hstopped := hstopping.step (.accepts .stopped)
  have hreleased := hstopped.step (.accepts .stopUnlocked)
  have hwarned := hreleased.step (.notifiedAll rfl)
  have hjoined := hwarned.step (.allJoined rfl rfl)
  have hdropped := hjoined.step (@Process.Step.dropped _ _ _ _ [] [] _ rfl rfl)
  have hreturned := hdropped.step (.returned rfl rfl)
  refine ⟨_, _, hreturned, by simp, ?_⟩
  refine (ProcessRun.closes_all hreturned (by decide) nofun ?_).2.2.2 0 (by simp)
  rintro ⟨act, next, hinside, hstep⟩
  cases hstep with
  | accepts step => cases step
  | works workers | spawned acceptor started workers | notified acceptor workers
  | woken workers => simp at workers
  | elapsed => cases hinside
  | constructed acceptor | notifiedNone acceptor | notifiedAll acceptor | joined acceptor
  | allJoined acceptor | dropped acceptor | returned acceptor => cases acceptor

end Carafe.Server
