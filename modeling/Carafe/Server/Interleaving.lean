import Carafe.Server.Accounting
import Carafe.Server.Exclusion

/-!
# The threads keep to the pool

What the threads do between them is a run of the pool whose guarded sections happen at
once. A connection is in the queue from the moment its node is, and a job has left it
from the moment it is taken out of its node.
-/

namespace Carafe.Server
open Http Net History

variable {κ : Type} {limits : PoolLimits}

namespace Acceptor

def call : Acceptor κ → Option (Call κ)
  | entering client | testing client | pushing client => some (.entered client)
  | refusing client | refused client => some (.refused client)
  | answered client => some (.answered client)
  | _ => none

/-- The queue with the connection that is on its way into the last node. -/
def filled (queue : List (Waiting κ)) : Acceptor κ → List (Waiting κ)
  | pushed client => moveIntoBack queue client
  | _ => queue

end Acceptor

namespace Thread

def shown : Thread κ → Worker κ
  | unstarted | locking | testing | blocked | holding => .idle
  | popping job | unlocking job | picked job => .picked job
  | overdue client => .overdue client
  | serving client => .serving client
  | closing client => .closing client
  | leaving | left => .left

/-- The front node is empty and about to go. -/
def pops : Thread κ → Bool
  | popping _ => true
  | _ => false

end Thread

def Act.shown : Act κ → Option (Event κ)
  | pool event => some event
  | _ => none

namespace Process

def queue (process : Process κ) : List (Waiting κ) :=
  process.acceptor.filled
    (if process.workers.any Thread.pops then process.shared.pool.queue.tail
      else process.shared.pool.queue)

def view (process : Process κ) : State κ where
  pool := ⟨process.queue, process.shared.pool.stopping⟩
  calls := process.acceptor.call.toList
  workers := process.workers.map Thread.shown
  now := process.now

end Process

theorem Acceptor.filled_unheld {acceptor : Acceptor κ} (h : acceptor.holds = false)
    (queue : List (Waiting κ)) : acceptor.filled queue = queue := by
  cases acceptor with
  | pushed => cases h
  | _ => rfl

theorem Thread.pops_unheld {thread : Thread κ} (h : thread.holds = false) :
    thread.pops = false := by
  cases thread with
  | popping => cases h
  | _ => rfl

theorem any_pops_at (front back : List (Thread κ)) (thread : Thread κ) :
    (front ++ thread :: back).any Thread.pops =
      (thread.pops || (front ++ back).any Thread.pops) := by
  simp only [List.any_append, List.any_cons, Bool.or_left_comm]

namespace Process.Sound

variable {process : Process κ} {front back : List (Thread κ)} {thread : Thread κ}

/-- While the accepting thread has the mutex, no worker has. -/
theorem none_pops (h : process.Sound limits) (holds : process.acceptor.holds = true) :
    process.workers.any Thread.pops = false := by
  rw [List.any_eq_false]
  intro thread hmem
  have hother := Monitor.Sound.alone_head h holds (.inr thread) (List.mem_map_of_mem hmem)
  simp [Thread.pops_unheld hother]

/-- While a worker has the mutex, nobody else has. -/
theorem worker_alone (h : process.Sound limits)
    (workers : process.workers = front ++ thread :: back) (holds : thread.holds = true) :
    process.acceptor.holds = false ∧ (front ++ back).any Thread.pops = false := by
  unfold Process.Sound at h
  rw [workers, parties_at] at h
  have halone := h.alone holds
  constructor
  · exact halone (.inl process.acceptor) (by simp)
  · rw [List.any_eq_false]
    intro other hmem
    have hother := halone (.inr other) (by simpa using hmem)
    simp [Thread.pops_unheld hother]

end Process.Sound

namespace Process

variable {process : Process κ} {front back : List (Thread κ)} {thread next : Thread κ}

theorem queue_of_acceptor (h : process.Sound limits) (holds : process.acceptor.holds = true) :
    process.queue = process.acceptor.filled process.shared.pool.queue := by
  simp [queue, h.none_pops holds]

theorem queue_of_worker (h : process.Sound limits)
    (workers : process.workers = front ++ thread :: back) (holds : thread.holds = true) :
    process.queue =
      if thread.pops then process.shared.pool.queue.tail else process.shared.pool.queue := by
  obtain ⟨hacceptor, hpops⟩ := h.worker_alone workers holds
  unfold queue
  rw [Acceptor.filled_unheld hacceptor, workers, any_pops_at, hpops, Bool.or_false]

/-- A worker that is elsewhere, with the pool as it was. -/
theorem view_replace (workers : process.workers = front ++ thread :: back) {shared : Shared κ}
    (same : shared.pool = process.shared.pool) (pops : next.pops = thread.pops) :
    view { process with shared := shared, workers := front ++ next :: back } =
      { process.view with
        workers := front.map Thread.shown ++ next.shown :: back.map Thread.shown } := by
  have hany : (front ++ next :: back).any Thread.pops = process.workers.any Thread.pops := by
    rw [workers, any_pops_at, any_pops_at, pops]
  simp [view, queue, same, hany]

/-- A worker that is elsewhere, and shows as it did. -/
theorem view_same (workers : process.workers = front ++ thread :: back) {shared : Shared κ}
    (same : shared.pool = process.shared.pool) (pops : next.pops = thread.pops)
    (shown : next.shown = thread.shown) :
    view { process with shared := shared, workers := front ++ next :: back } = process.view := by
  rw [view_replace workers same pops, shown]
  simp [view, workers]

theorem view_workers (workers : process.workers = front ++ thread :: back) :
    process.view.workers = front.map Thread.shown ++ thread.shown :: back.map Thread.shown := by
  simp [view, workers]

/-- The accepting thread elsewhere, with the pool as it was. -/
theorem view_ahead {shared : Shared κ} {acceptor : Acceptor κ}
    (same : shared.pool = process.shared.pool)
    (filled : ∀ queue, acceptor.filled queue = process.acceptor.filled queue) :
    view { process with shared := shared, acceptor := acceptor } =
      { process.view with calls := acceptor.call.toList } := by
  simp [view, queue, same, filled]

end Process

/-- What an act of the threads is to the pool. -/
def Shows (limits : PoolLimits) (past : List (Act κ)) (process : Process κ) (act : Act κ)
    (next : Process κ) : Prop :=
  (∀ event, act.shown = some event →
    Server.Step limits (past.filterMap Act.shown) process.view event next.view) ∧
  (act.shown = none → next.view = process.view)

theorem Shows.event {past : List (Act κ)} {process next : Process κ} {event : Event κ}
    (shown : State κ) (view : next.view = shown)
    (h : Server.Step limits (past.filterMap Act.shown) process.view event shown) :
    Shows limits past process (.pool event) next := by
  constructor
  · rintro event ⟨⟩
    exact view ▸ h
  · exact nofun

theorem Shows.nothing {past : List (Act κ)} {process next : Process κ} {act : Act κ}
    (hidden : act.shown = none) (view : next.view = process.view) :
    Shows limits past process act next :=
  ⟨fun event hevent => by simp [hidden] at hevent, fun _ => view⟩

theorem Thread.Step.shows {past : List (Act κ)} {process : Process κ} {front back : List (Thread κ)}
    {thread next : Thread κ} {act : Act κ} {shared : Shared κ}
    (step : thread.Step limits process.now process.shared act shared next)
    (workers : process.workers = front ++ thread :: back) (sound : process.Sound limits) :
    Shows limits past process act
      { process with shared := shared, workers := front ++ next :: back } := by
  have hworkers := Process.view_workers workers
  cases step with
  | locked | blocked | tested | left | unlocked =>
    exact .nothing rfl (Process.view_same workers rfl rfl rfl)
  | leaves stopping =>
    refine .event _ (Process.view_replace workers rfl rfl) (.left hworkers ?_)
    simp [ConnectionPool.pickUp, Process.view, stopping]
  | @took job rest running queue =>
    have hqueue := Process.queue_of_worker sound workers rfl
    obtain ⟨hacceptor, hpops⟩ := sound.worker_alone workers rfl
    refine .event { process.view with
      pool := { process.view.pool with queue := rest }
      workers := front.map Thread.shown ++ .picked job :: back.map Thread.shown } ?_
      (.pickedUp hworkers ?_)
    · simp [Process.view, Process.queue, Acceptor.filled_unheld hacceptor, Thread.pops,
        Thread.shown]
    · simp [ConnectionPool.pickUp, Process.view, running, hqueue, queue, Thread.pops]
  | @popped job =>
    obtain ⟨hacceptor, hpops⟩ := sound.worker_alone workers rfl
    refine .nothing rfl ?_
    simp only [List.any_append, Bool.or_eq_false_iff] at hpops
    simp [Process.view, Process.queue, Acceptor.filled_unheld hacceptor, workers, hpops,
      Thread.pops, Thread.shown]
  | overdue late =>
    exact .event _ (Process.view_replace workers rfl rfl) (.overdue hworkers late)
  | started early =>
    exact .event _ (Process.view_replace workers rfl rfl) (.started hworkers early)
  | turnedAway taken =>
    exact .event _ (Process.view_replace workers rfl rfl) (.turnedAway taken hworkers)
  | ended =>
    exact .event _ (Process.view_replace workers rfl rfl) (.ended hworkers)
  | closed =>
    exact .event _ (Process.view_replace workers rfl rfl) (.closed hworkers)

theorem ConnectionPool.submit_full (pool : ConnectionPool κ) (limits : PoolLimits)
    (now : TimePoint) (client : Socket κ) :
    pool.submit limits now false client = (pool, some client) := by
  unfold submit pushBack
  split <;> rfl

theorem Acceptor.Step.shows {past : List (Act κ)} {process : Process κ}
    {acceptor next : Acceptor κ} {act : Act κ} {shared : Shared κ}
    (step : acceptor.Step limits past process.now process.shared act shared next)
    (here : process.acceptor = acceptor) (sound : process.Sound limits) :
    Shows limits past process act { process with shared := shared, acceptor := next } := by
  have hcalls : process.view.calls = acceptor.call.toList := by simp [Process.view, here]
  have same : ∀ {shared : Shared κ} {next : Acceptor κ},
      shared.pool = process.shared.pool →
      (∀ queue, next.filled queue = acceptor.filled queue) → next.call = acceptor.call →
      Process.view { process with shared := shared, acceptor := next } = process.view := by
    intro shared next hpool hfilled hcall
    rw [Process.view_ahead hpool (here ▸ hfilled), hcall, ← hcalls]
  have elsewhere : ∀ {shared : Shared κ} {next : Acceptor κ},
      shared.pool = process.shared.pool →
      (∀ queue, next.filled queue = acceptor.filled queue) →
      Process.view { process with shared := shared, acceptor := next } =
        { process.view with calls := next.call.toList } := by
    intro shared next hpool hfilled
    exact Process.view_ahead hpool (here ▸ hfilled)
  cases step with
  | accepted conn new =>
    refine .event _ (elsewhere rfl fun _ => rfl) ?_
    have hnew : .called conn ∉ past.filterMap Act.shown := by
      intro hmem
      obtain ⟨act, hact, hshown⟩ := List.mem_filterMap.mp hmem
      cases act with
      | pool event =>
        cases hshown
        exact new hact
      | _ => cases hshown
    have hcall : Server.Step limits _ process.view _ _ := .call conn hnew
    rwa [hcalls] at hcall
  | interrupted | gaveUp | pauses | retries | paused | locked | tested | unlocked | letGo
  | stopLocked | stopUnlocked => exact .nothing rfl (same rfl (fun _ => rfl) rfl)
  | @full client | @threw client =>
    exact .event _ (elsewhere rfl fun _ => rfl) (@Server.Step.refused _ _ _ _ [] [] client _ _ false
      hcalls (process.view.pool.submit_full limits process.view.now client))
  | @pushed client =>
    have hqueue := Process.queue_of_acceptor sound (here ▸ rfl)
    have hpops := sound.none_pops (here ▸ rfl)
    obtain ⟨running, room⟩ := here ▸ sound.relied (.inl process.acceptor) List.mem_cons_self
    refine .event { process.view with
      pool := { process.view.pool with queue := process.view.pool.queue ++ [⟨client, process.now⟩] }
      calls := [] } ?_ (@Server.Step.queued _ _ _ _ [] [] client _ true hcalls ?_)
    · simp [Process.view, Process.queue, hpops, here, Acceptor.filled, Acceptor.call,
        ConnectionPool.moveIntoBack_concat]
    · simp [ConnectionPool.submit, pushBack, Process.view, hqueue, here, Acceptor.filled, running,
        room, ConnectionPool.moveIntoBack_concat]
  | @moved client =>
    have hpops := sound.none_pops (here ▸ rfl)
    refine .nothing rfl ?_
    simp [Process.view, Process.queue, hpops, here, Acceptor.filled, Acceptor.call]
  | @answered client taken =>
    exact .event _ (elsewhere rfl fun _ => rfl)
      (@Server.Step.answered _ _ _ _ [] [] client taken hcalls)
  | @closed client =>
    exact .event _ (elsewhere rfl fun _ => rfl) (@Server.Step.returned _ _ _ _ [] [] client hcalls)
  | stopped =>
    have hpops := sound.none_pops (here ▸ rfl)
    refine .event _ ?_ .stop
    simp [Process.view, Process.queue, hpops, here, Acceptor.filled, Acceptor.call,
      ConnectionPool.stop]

theorem Thread.shown_wake (thread : Thread κ) : thread.wake.shown = thread.shown := by
  cases thread <;> rfl

theorem Thread.pops_wake (thread : Thread κ) : thread.wake.pops = thread.pops := by
  cases thread <;> rfl

theorem any_pops_of_left {workers : List (Thread κ)} (h : ∀ thread ∈ workers, thread = .left) :
    workers.any Thread.pops = false := by
  rw [List.any_eq_false]
  intro thread hmem
  rw [h thread hmem]
  exact nofun

theorem Process.Step.shows {past : List (Act κ)} {process next : Process κ} {act : Act κ}
    (moved : process.Step limits past act next) (sound : process.Sound limits)
    (phased : process.Phased) : Shows limits past process act next := by
  cases moved with
  | accepts step => exact step.shows rfl sound
  | works workers step => exact step.shows workers sound
  | spawned acceptor started workers =>
    exact .nothing rfl (Process.view_same workers rfl rfl rfl)
  | woken workers => exact .nothing rfl (Process.view_same workers rfl rfl rfl)
  | constructed acceptor | notifiedNone acceptor | joined acceptor | allJoined acceptor
  | returned acceptor =>
    refine .nothing rfl ?_
    simp [Process.view, Process.queue, acceptor, Acceptor.call, Acceptor.filled]
  | @notified front back acceptor workers =>
    have hview : Process.view { process with acceptor := .notified } = process.view := by
      simp [Process.view, Process.queue, acceptor, Acceptor.call, Acceptor.filled]
    refine .nothing rfl (hview ▸ ?_)
    exact @Process.view_same _ { process with acceptor := .notified } _ _ _ _ workers _ rfl rfl rfl
  | notifiedAll acceptor =>
    refine .nothing rfl ?_
    simp [Process.view, Process.queue, acceptor, Acceptor.call, Acceptor.filled, Thread.shown_wake,
      Thread.pops_wake, Function.comp_def]
  | @dropped front back job acceptor queue =>
    have hleft := phased.joined (.inl acceptor)
    have hpops := any_pops_of_left hleft
    refine .event { process.view with
      pool := { process.view.pool with queue := front ++ back } } ?_ (.dropped ?_ ?_ ?_ ?_)
    · simp [Process.view, Process.queue, acceptor, Acceptor.filled, hpops]
    · exact phased.stopping.trans (by rw [acceptor]; rfl)
    · intro worker hmem
      obtain ⟨thread, hthread, rfl⟩ := List.mem_map.mp hmem
      rw [hleft thread hthread]
      rfl
    · simp [Process.view, acceptor, Acceptor.call]
    · simp [Process.view, Process.queue, acceptor, Acceptor.filled, hpops, queue]
  | elapsed time => exact .event _ rfl (.elapsed time)

/-- However the threads are interleaved, the pool sees its sections happen at once. -/
theorem threads_refine : Refines (Process.Started limits) (@Process.Step κ limits) Started
    (Step limits) Act.shown Process.view where
  starts := by
    rintro _ ⟨workers, now, threads⟩
    let process : Process κ := { workers := List.replicate workers .unstarted, now := now }
    have hview : process.view = { workers := List.replicate workers .idle, now := now } := by
      simp [process, Process.view, Process.queue, Acceptor.call, Acceptor.filled, Thread.shown,
        Thread.pops]
    exact hview ▸ .constructed workers now
  shows past process act next event h step shown :=
    (step.shows (ProcessRun.sound h) (ProcessRun.phased h)).1 event shown
  hides past process act next h step hidden :=
    (step.shows (ProcessRun.sound h) (ProcessRun.phased h)).2 hidden

theorem ProcessRun.pool {past : List (Act κ)} {process : Process κ}
    (h : ProcessRun limits past process) :
    PoolRun limits (past.filterMap Act.shown) process.view :=
  threads_refine.run h

/-- The threads exclude each other, and what they do is what the pool does when each of
its sections happens at once; in between, the pool is as they left it. -/
theorem ProcessRun.linearizes {past : List (Act κ)} {process : Process κ}
    (h : ProcessRun limits past process) :
    (parties process.acceptor process.workers).countP (protocol limits).holds ≤ 1 ∧
    PoolRun limits (past.filterMap Act.shown) process.view ∧
    (process.shared.locked = false → process.view.pool = process.shared.pool) := by
  refine ⟨Monitor.Sound.one h.sound, h.pool, fun unlocked => ?_⟩
  have hnone : ∀ party ∈ parties process.acceptor process.workers,
      (protocol limits).holds party = false := by
    intro party hmem
    cases hholds : (protocol limits).holds party with
    | false => rfl
    | true => exact absurd (Monitor.Sound.locked_of_holds h.sound hmem hholds) (by simp [unlocked])
  have hpops : process.workers.any Thread.pops = false := by
    rw [List.any_eq_false]
    intro thread hmem
    simp [Thread.pops_unheld (hnone (.inr thread) (by simpa [parties] using hmem))]
  simp [Process.view, Process.queue, hpops,
    Acceptor.filled_unheld (hnone (.inl process.acceptor) List.mem_cons_self)]

/-- A connection on its way into its node, while a worker waits for the mutex. -/
theorem ProcessRun.linearizes_pushed : ∃ process : Process Nat,
    ProcessRun {} [.inner, .inner, .pool (.called 0), .inner, .inner, .pool (.queued (some 0) 5)]
      process ∧
    PoolRun {} [.called 0, .queued (some 0) 5] process.view := by
  have hstart : ProcessRun {} ([] : List (Act Nat)) _ := .start (.constructing 1 5 (by decide))
  have hspawned := hstart.step (@Process.Step.spawned _ _ _ _ [] [] rfl nofun rfl)
  have hconstructed := hspawned.step (.constructed rfl nofun)
  have haccepted := hconstructed.step (.accepts (.accepted (0 : Nat) (by simp)))
  have hlocked := haccepted.step (.accepts (.locked rfl))
  have htested := hlocked.step (.accepts (.tested rfl (by decide)))
  have hpushed := htested.step (.accepts .pushed)
  exact ⟨_, hpushed, (ProcessRun.linearizes hpushed).2.1⟩

def Event.accepts : Event κ → Bool
  | called _ => true
  | _ => false

def Act.accepts (act : Act κ) : Bool := act.shown.any Event.accepts

/-- An act after which the process no longer has the connection. -/
def Act.finished (act : Act κ) : Option (Socket κ) := act.shown.bind Event.finished

theorem Event.balanced (event : Event κ) :
    (event.move.bind TokenFlow.Move.target).toList.length + event.finished.isSome.toNat =
      (event.move.bind TokenFlow.Move.source).toList.length + event.accepts.toNat := by
  cases event <;> rfl

/-- What has been accepted and is not closed is at one of the pool's stages. -/
theorem PoolRun.held {past : List (Event κ)} {state : State κ} (h : PoolRun limits past state) :
    state.tokens.length + past.countP (fun event => event.finished.isSome) =
      past.countP Event.accepts := by
  refine h.invariant (fun past state =>
    state.tokens.length + past.countP (fun event => event.finished.isSome) =
      past.countP Event.accepts) ?_ ?_
  · intro state ⟨workers, now⟩
    simp [State.tokens, tokensOf, Worker.stage, TokenFlow.stationed]
  · intro past state event next _ ih hstep
    have hlength := hstep.moved.length
    have hbalanced := event.balanced
    simp only [TokenFlow.countP_concat]
    omega

theorem countP_shown (p : Event κ → Bool) (past : List (Act κ)) :
    (past.filterMap Act.shown).countP p = past.countP fun act => act.shown.any p := by
  induction past with
  | nil => rfl
  | cons act past ih =>
    rw [List.filterMap_cons, TokenFlow.countP_entry, ← ih]
    cases act.shown with
    | none => rfl
    | some event => exact TokenFlow.countP_entry _ _ _

theorem length_tokens_le (state : State κ) :
    state.tokens.length ≤ state.calls.length + state.pool.queue.length + state.workers.length := by
  have hworkers : (state.workers.flatMap
      fun worker => TokenFlow.stationed worker.client worker.stage).length ≤
        state.workers.length := by
    induction state.workers with
    | nil => exact Nat.le_refl _
    | cons worker workers ih =>
      have hone : (TokenFlow.stationed worker.client worker.stage).length ≤ 1 := by
        cases worker <;> simp [TokenFlow.stationed, Worker.stage]
      simp only [List.flatMap_cons, List.length_append, List.length_cons]
      omega
  simp only [State.tokens, tokensOf, List.length_append, List.length_map]
  omega

variable {past : List (Act κ)} {process : Process κ}

theorem Process.Step.workers_length {next : Process κ} {act : Act κ}
    (moved : process.Step limits past act next) :
    next.workers.length = process.workers.length := by
  cases moved with
  | works workers | spawned acceptor started workers | notified acceptor workers
  | woken workers => simp [workers]
  | notifiedAll => simp
  | _ => rfl

theorem ProcessRun.workers_length (h : ProcessRun limits past process) :
    process.workers.length ≤ limits.workers := by
  refine h.invariant (fun _ process => process.workers.length ≤ limits.workers) ?_ ?_
  · rintro process ⟨workers, now, threads⟩
    simpa using threads
  · intro past process act next _ ih hstep
    rwa [hstep.workers_length]

/-- However many clients connect, the process has no more of their connections open than
there are workers and places in the queue, and the one that `submit` has. -/
theorem ProcessRun.holds_few (h : ProcessRun limits past process) :
    past.countP Act.accepts ≤
      past.countP (fun act => act.finished.isSome) + limits.workers + limits.queued + 1 := by
  have hheld := h.pool.held
  have hlength := length_tokens_le process.view
  have hqueue : process.view.pool.queue.length ≤ limits.queued := PoolRun.queue_length h.pool
  have hworkers := h.workers_length
  have hcalls : process.view.calls.length ≤ 1 := by
    simp only [Process.view]
    cases process.acceptor.call <;> simp
  have hfinished : (fun act : Act κ => act.shown.any fun event => event.finished.isSome) =
      fun act => act.finished.isSome := by
    funext act
    simp only [Act.finished]
    cases act.shown <;> rfl
  rw [countP_shown, countP_shown, hfinished] at hheld
  have hview : process.view.workers.length = process.workers.length := by simp [Process.view]
  simp only [show Act.accepts = fun act : Act κ => act.shown.any Event.accepts from rfl]
  omega

/-- One connection with the only worker, one in the only place of the queue, and one that has
just come. -/
theorem ProcessRun.holds_few_full : ∃ past, ∃ process : Process Nat,
    ProcessRun ⟨1, 1, 5000⟩ past process ∧ past.countP Act.accepts = 3 ∧
      past.countP Act.accepts ≤ past.countP (fun act => act.finished.isSome) + 1 + 1 + 1 := by
  have hstart : ProcessRun ⟨1, 1, 5000⟩ ([] : List (Act Nat)) _ :=
    .start (.constructing 1 5 (by decide))
  have hspawned := hstart.step (@Process.Step.spawned _ _ _ _ [] [] rfl nofun rfl)
  have hconstructed := hspawned.step (.constructed rfl nofun)
  have hqueued := ProcessRun.queues hconstructed rfl rfl rfl (by decide) nofun 0 (by simp)
  have hserved := @ProcessRun.serves _ _ _ _ [] [] _ _ hqueued rfl rfl rfl rfl (by decide)
  have hfull := ProcessRun.queues hserved rfl rfl rfl (by decide) (by simp) 1 (by simp)
  have haccepted := hfull.step (.accepts (.accepted (2 : Nat) (by simp)))
  exact ⟨_, _, haccepted, by decide, ProcessRun.holds_few haccepted⟩

end Carafe.Server
