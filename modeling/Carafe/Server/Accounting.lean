import Carafe.Server.Pool
import Carafe.Library.TokenFlow

/-!
# The pool accounts for its connections

A socket that `submit` is called with goes from stage to stage: into the queue, to a
worker, to `serve_connection` or the refusal, and to its end. Every step of the pool
moves one socket on, so what has come into a set of stages is there or has left it.
-/

namespace Carafe.Server
open Http Net History TokenFlow

variable {κ : Type}

inductive Stage where
  | entered
  | queued
  | picked
  | refused
  | serving
  | closing
  deriving DecidableEq

namespace Call

def stage : Call κ → Stage
  | entered _ => .entered
  | refused _ => .refused
  | answered _ => .closing

def client : Call κ → Socket κ
  | entered client | refused client | answered client => client

end Call

namespace Worker

def stage : Worker κ → Option Stage
  | idle | left => none
  | picked _ => some .picked
  | overdue _ => some .refused
  | serving _ => some .serving
  | closing _ => some .closing

def client : Worker κ → Socket κ
  | idle | left => none
  | picked job => job.client
  | overdue client | serving client | closing client => client

end Worker

namespace Event

/-- The stage a socket leaves and the one it comes to. -/
def move : Event κ → Option (Move Stage (Socket κ))
  | called conn => some ⟨some conn, none, some .entered⟩
  | queued client _ => some ⟨client, some .entered, some .queued⟩
  | refused client => some ⟨client, some .entered, some .refused⟩
  | wrote client _ => some ⟨client, some .refused, some .closing⟩
  | pickedUp job _ => some ⟨job.client, some .queued, some .picked⟩
  | overdue client => some ⟨client, some .picked, some .refused⟩
  | started client => some ⟨client, some .picked, some .serving⟩
  | ended client => some ⟨client, some .serving, some .closing⟩
  | closed client => some ⟨client, some .closing, none⟩
  | dropped client => some ⟨client, some .queued, none⟩
  | left | stopped | elapsed _ => none

/-- The socket that the event closes. -/
def finished : Event κ → Option (Socket κ)
  | closed client | dropped client => some client
  | _ => none

def queuedClient : Event κ → Option (Socket κ)
  | queued client _ => some client
  | _ => none

def pickedClient : Event κ → Option (Socket κ)
  | pickedUp job _ => some job.client
  | _ => none

variable [DecidableEq κ] (conn : κ)

def calls : Event κ → Bool
  | called conn' => conn' = conn
  | _ => false

def queues (event : Event κ) : Bool := event.queuedClient = some (some conn)

def refuses : Event κ → Bool
  | refused client => client = some conn
  | _ => false

def starts : Event κ → Bool
  | started client => client = some conn
  | _ => false

def writes : Event κ → Bool
  | wrote client _ => client = some conn
  | _ => false

end Event

def tokensOf (calls : List (Call κ)) (queue : List (Waiting κ)) (workers : List (Worker κ)) :
    List (Stage × Socket κ) :=
  calls.map (fun call => (call.stage, call.client)) ++
    (queue.map (fun job => (.queued, job.client)) ++
      workers.flatMap (fun worker => stationed worker.client worker.stage))

def State.tokens (state : State κ) : List (Stage × Socket κ) :=
  tokensOf state.calls state.pool.queue state.workers

theorem tokensOf_call (front back : List (Call κ)) (call : Call κ) (queue : List (Waiting κ))
    (workers : List (Worker κ)) :
    (tokensOf (front ++ call :: back) queue workers).Perm
      (stationed call.client (some call.stage) ++ tokensOf (front ++ back) queue workers) := by
  simp only [tokensOf, List.map_append, List.map_cons, List.append_assoc, List.cons_append]
  exact List.perm_middle

theorem tokensOf_job (calls : List (Call κ)) (front back : List (Waiting κ)) (job : Waiting κ)
    (workers : List (Worker κ)) :
    (tokensOf calls (front ++ job :: back) workers).Perm
      (stationed job.client (some .queued) ++ tokensOf calls (front ++ back) workers) := by
  simp only [tokensOf, List.map_append, List.map_cons, List.append_assoc, List.cons_append]
  rw [← List.append_assoc]
  refine List.perm_middle.trans ?_
  simp [stationed]

theorem tokensOf_worker (calls : List (Call κ)) (queue : List (Waiting κ))
    (front back : List (Worker κ)) (worker : Worker κ) :
    (tokensOf calls queue (front ++ worker :: back)).Perm
      (stationed worker.client worker.stage ++ tokensOf calls queue (front ++ back)) := by
  simp only [tokensOf, List.flatMap_append, List.flatMap_cons]
  have past_front := List.perm_append_comm_assoc
    (front.flatMap (fun worker => stationed worker.client worker.stage))
    (stationed worker.client worker.stage)
    (back.flatMap (fun worker => stationed worker.client worker.stage))
  have past_queue := (past_front.append_left _).trans (List.perm_append_comm_assoc
    (queue.map (fun job => (Stage.queued, job.client))) _ _)
  exact (past_queue.append_left _).trans (List.perm_append_comm_assoc _ _ _)

theorem Step.moved {limits : PoolLimits} {past : List (Event κ)} {state next : State κ}
    {event : Event κ} (h : Step limits past state event next) :
    Moved event.move state.tokens next.tokens := by
  unfold State.tokens
  cases h with
  | call conn accepted =>
    refine .moved (tokensOf state.calls state.pool.queue state.workers) (List.Perm.refl _) ?_
    exact (tokensOf_call state.calls [] (.entered (some conn)) _ _).trans (by simp; rfl)
  | queued grows calls guarded =>
    obtain ⟨-, -, rfl⟩ := ConnectionPool.submit_queued guarded
    rw [calls]
    refine .moved _ (tokensOf_call _ _ _ _ _) ?_
    exact (tokensOf_job _ state.pool.queue [] _ _).trans (by simp)
  | refused grows calls guarded =>
    obtain ⟨rfl, rfl⟩ := ConnectionPool.submit_refused guarded
    rw [calls]
    exact .moved _ (tokensOf_call _ _ _ _ _) (tokensOf_call _ _ _ _ _)
  | answered taken calls =>
    rw [calls]
    exact .moved _ (tokensOf_call _ _ _ _ _) (tokensOf_call _ _ _ _ _)
  | returned calls =>
    rw [calls]
    exact .moved _ (tokensOf_call _ _ _ _ _) (List.Perm.refl _)
  | pickedUp workers guarded =>
    obtain ⟨-, queue, -⟩ := ConnectionPool.pickUp_job guarded
    rw [queue, workers]
    refine .moved _ ((tokensOf_job _ [] _ _ _).trans ?_) (tokensOf_worker _ _ _ _ _)
    exact List.Perm.append_left _ (tokensOf_worker _ _ _ _ .idle)
  | left workers guarded =>
    obtain ⟨rfl, -⟩ := ConnectionPool.pickUp_left guarded
    rw [workers]
    exact .still ((tokensOf_worker _ _ _ _ .idle).trans (tokensOf_worker _ _ _ _ .left).symm)
  | overdue workers | started workers | turnedAway taken workers | ended workers
  | closed workers =>
    rw [workers]
    exact .moved _ (tokensOf_worker _ _ _ _ _) (tokensOf_worker _ _ _ _ _)
  | stop => exact .still (List.Perm.refl _)
  | dropped stopping joined uncalled queue =>
    rw [queue]
    exact .moved _ (tokensOf_job _ _ _ _ _) (List.Perm.refl _)
  | elapsed time => exact .still (List.Perm.refl _)

variable {limits : PoolLimits} {past : List (Event κ)} {state : State κ}

section Counts
variable [DecidableEq κ]

theorem PoolRun.border (h : PoolRun limits past state) (region : Stage → Bool)
    (client : Socket κ) :
    past.countP (fun event => comesIn region client event.move) =
      state.tokens.countP (inside region client) +
        past.countP (fun event => goesOut region client event.move) := by
  refine TokenFlow.border region client ?_ ?_ h
  · intro state ⟨workers, now⟩
    simp [State.tokens, tokensOf, Worker.stage, stationed]
  · intro past state event next hstep
    exact hstep.moved

theorem PoolRun.called_once (h : PoolRun limits past state) (conn : κ) :
    past.countP (Event.calls conn) ≤ 1 := by
  refine h.invariant (fun past _ => past.countP (Event.calls conn) ≤ 1) ?_ ?_
  · intro _ _
    simp
  · intro past state event next _ ih hstep
    rw [countP_concat]
    cases hstep with
    | call conn' accepted =>
      by_cases same : conn' = conn
      · have hnone : past.countP (Event.calls conn) = 0 := by
          rw [List.countP_eq_zero]
          intro event hmem hcalls
          cases event with
          | called other =>
            have hother : other = conn := by simpa [Event.calls] using hcalls
            subst hother same
            exact accepted hmem
          | _ => cases hcalls
        simp [Event.calls, same, hnone]
      · simpa [Event.calls, same] using ih
    | _ => simpa [Event.calls] using ih

theorem count_eq_countP (clients : List (Socket κ)) (conn : κ) :
    clients.count (some conn) = clients.countP fun client => decide (client = some conn) := by
  rw [List.count]
  congr 1
  funext client
  exact beq_eq_decide client (some conn)

theorem countP_workers (conn : κ) (workers : List (Worker κ)) :
    (workers.flatMap fun worker => stationed worker.client worker.stage).countP
      (inside (fun _ => true) (some conn)) = (workers.map Worker.client).count (some conn) := by
  induction workers with
  | nil => rfl
  | cons worker workers ih =>
    rw [List.flatMap_cons, List.countP_append, countP_stationed, ih, count_eq_countP,
      count_eq_countP, List.map_cons, countP_entry, Nat.add_comm]
    congr 2
    cases worker <;> simp [Worker.client, Worker.stage, within]

theorem State.countP_tokens (state : State κ) (conn : κ) :
    state.tokens.countP (inside (fun _ => true) (some conn)) =
      (state.calls.map Call.client).count (some conn) +
        (state.pool.queue.map Waiting.client).count (some conn) +
          (state.workers.map Worker.client).count (some conn) := by
  simp only [State.tokens, tokensOf, List.countP_append, countP_workers]
  simp only [count_eq_countP, List.countP_map, ← Nat.add_assoc]
  rfl

/-- Where the connections are that `submit` has been called with. -/
theorem PoolRun.placed (h : PoolRun limits past state) (conn : κ) :
    (state.calls.map Call.client).count (some conn) +
      (state.pool.queue.map Waiting.client).count (some conn) +
        (state.workers.map Worker.client).count (some conn) +
          (past.filterMap Event.finished).count (some conn) = past.countP (Event.calls conn) := by
  have hborder := h.border (fun _ => true) (some conn)
  have hcalled : past.countP (fun event => comesIn (fun _ => true) (some conn) event.move) =
      past.countP (Event.calls conn) := by
    congr 1
    funext event
    cases event <;> simp [comesIn, Event.move, Event.calls, Move.enters, within]
  have hfinished : past.countP (fun event => goesOut (fun _ => true) (some conn) event.move) =
      (past.filterMap Event.finished).count (some conn) := by
    rw [count_eq_countP, List.countP_filterMap]
    congr 1
    funext event
    cases event <;> simp [goesOut, Event.move, Event.finished, Move.leaves, within]
  rw [hcalled, hfinished, state.countP_tokens] at hborder
  exact hborder.symm

/-- A connection is with its call of `submit`, in the queue, at a worker or closed. -/
theorem PoolRun.in_one_place (h : PoolRun limits past state) {conn : κ}
    (submitted : .called conn ∈ past) :
    (state.calls.map Call.client).count (some conn) +
      (state.pool.queue.map Waiting.client).count (some conn) +
        (state.workers.map Worker.client).count (some conn) +
          (past.filterMap Event.finished).count (some conn) = 1 := by
  have hone : 0 < past.countP (Event.calls conn) :=
    List.countP_pos_iff.mpr ⟨_, submitted, by simp [Event.calls]⟩
  have honce := h.called_once conn
  rw [h.placed conn]
  omega

/-- What is closed was accepted, and is closed once. -/
theorem PoolRun.finished_once (h : PoolRun limits past state) (conn : κ) :
    (past.filterMap Event.finished).count (some conn) ≤ 1 ∧
      (some conn ∈ past.filterMap Event.finished → .called conn ∈ past) := by
  have hplaced := h.placed conn
  have honce := h.called_once conn
  refine ⟨by omega, fun hmem => ?_⟩
  have hcalled : 0 < past.countP (Event.calls conn) := by
    have hpos := List.count_pos_iff.mpr hmem
    omega
  obtain ⟨event, hevent, hcalls⟩ := List.countP_pos_iff.mp hcalled
  cases event with
  | called other =>
    obtain rfl : other = conn := by simpa [Event.calls] using hcalls
    exact hevent
  | _ => cases hcalls

/-- What leaves a region that connections only come into by `submit`. -/
theorem PoolRun.leave_once (h : PoolRun limits past state) (conn : κ) {p q : Event κ → Bool}
    (region : Stage → Bool)
    (enter : ∀ event : Event κ,
      comesIn region (some conn) event.move = true → event.calls conn = true)
    (leave : ∀ event : Event κ, (p event).toNat + (q event).toNat ≤
      (goesOut region (some conn) event.move).toNat) :
    past.countP p + past.countP q ≤ 1 := by
  have hborder := h.border region (some conn)
  have honce := h.called_once conn
  have henter : past.countP (fun event => comesIn region (some conn) event.move) ≤
      past.countP (Event.calls conn) := List.countP_mono_left fun event _ => enter event
  have hleave := countP_add_le leave past
  omega

theorem PoolRun.started_or_answered (h : PoolRun limits past state) (conn : κ) :
    past.countP (Event.starts conn) + past.countP (Event.writes conn) ≤ 1 := by
  refine h.leave_once conn (fun stage => stage ≠ .serving ∧ stage ≠ .closing) ?_ ?_
  · intro event
    cases event <;> simp [comesIn, Event.move, Move.enters, within, Event.calls]
  · intro event
    cases event <;> simp [goesOut, Event.move, Move.leaves, within, Event.starts, Event.writes]

theorem PoolRun.queued_or_refused (h : PoolRun limits past state) (conn : κ) :
    past.countP (Event.queues conn) + past.countP (Event.refuses conn) ≤ 1 := by
  refine h.leave_once conn (fun stage => stage = .entered) ?_ ?_
  · intro event
    cases event <;> simp [comesIn, Event.move, Move.enters, within, Event.calls]
  · intro event
    cases event <;>
      simp [goesOut, Event.move, Move.leaves, within, Event.queues, Event.queuedClient, Event.refuses]

/-- Every connection in the queue was put there. -/
theorem PoolRun.count_queue (h : PoolRun limits past state) (conn : κ) :
    (state.pool.queue.map Waiting.client).count (some conn) ≤ past.countP (Event.queues conn) := by
  have hborder := h.border (fun stage => stage = .queued) (some conn)
  have hqueued : past.countP (fun event => comesIn (fun stage => decide (stage = .queued))
      (some conn) event.move) = past.countP (Event.queues conn) := by
    congr 1
    funext event
    cases event <;> simp [comesIn, Event.move, Event.queues, Event.queuedClient, Move.enters, within]
  have hinside : (state.pool.queue.map Waiting.client).count (some conn) ≤
      state.tokens.countP (inside (fun stage => decide (stage = .queued)) (some conn)) := by
    simp only [State.tokens, tokensOf, List.countP_append, count_eq_countP, List.countP_map]
    refine Nat.le_trans ?_ (Nat.le_add_left _ _)
    refine Nat.le_trans (Nat.le_of_eq ?_) (Nat.le_add_right _ _)
    rfl
  omega

end Counts

/-- What is picked up is what was queued first. After `stop` only the destructor takes
anything out of the queue. -/
structure Ordered (past : List (Event κ)) (state : State κ) : Prop where
  first : past.filterMap Event.pickedClient <+: past.filterMap Event.queuedClient
  kept : (∀ client, .dropped client ∉ past) → past.filterMap Event.queuedClient =
    past.filterMap Event.pickedClient ++ state.pool.queue.map Waiting.client
  undropped : state.pool.stopping = false → ∀ client, .dropped client ∉ past

theorem Ordered.still {past : List (Event κ)} {state next : State κ} {event : Event κ}
    (h : Ordered past state) (picked : event.pickedClient = none)
    (queued : event.queuedClient = none) (dropped : ∀ client, event ≠ .dropped client)
    (queue : next.pool.queue = state.pool.queue)
    (stopping : next.pool.stopping = false → state.pool.stopping = false) :
    Ordered (past ++ [event]) next := by
  have hpicked : (past ++ [event]).filterMap Event.pickedClient =
      past.filterMap Event.pickedClient := by simp [picked]
  have hqueued : (past ++ [event]).filterMap Event.queuedClient =
      past.filterMap Event.queuedClient := by simp [queued]
  have hdropped (client : Socket κ) : .dropped client ∈ past ++ [event] ↔ .dropped client ∈ past := by
    simp [(dropped client).symm]
  constructor
  · rw [hpicked, hqueued]
    exact h.first
  · intro undropped
    rw [hpicked, hqueued, queue]
    exact h.kept fun client hmem => undropped client ((hdropped client).mpr hmem)
  · intro running client hmem
    exact h.undropped (stopping running) client ((hdropped client).mp hmem)

theorem Ordered.step {past : List (Event κ)} {state next : State κ} {event : Event κ}
    (h : Ordered past state) (moved : Step limits past state event next) :
    Ordered (past ++ [event]) next := by
  cases moved with
  | queued grows calls guarded =>
    obtain ⟨running, -, rfl⟩ := ConnectionPool.submit_queued guarded
    have hkept := h.kept (h.undropped running)
    constructor
    · rw [filterMap_concat, filterMap_concat]
      simpa only [Event.pickedClient, Option.toList_none, List.append_nil] using
        h.first.trans (List.prefix_append _ _)
    · intro _
      rw [filterMap_concat, filterMap_concat, hkept]
      simp [Event.pickedClient, Event.queuedClient]
    · intro _ client hmem
      simpa using h.undropped running client (by simpa using hmem)
  | @pickedUp _ _ pool _ workers guarded =>
    obtain ⟨running, queue, same⟩ := ConnectionPool.pickUp_job guarded
    have hkept := h.kept (h.undropped running)
    rw [queue] at hkept
    constructor
    · rw [filterMap_concat, filterMap_concat, hkept]
      exact ⟨pool.queue.map Waiting.client, by simp [Event.pickedClient, Event.queuedClient]⟩
    · intro _
      rw [filterMap_concat, filterMap_concat, hkept]
      simp [Event.pickedClient, Event.queuedClient]
    · intro _ client hmem
      simpa using h.undropped running client (by simpa using hmem)
  | refused grows calls guarded =>
    obtain ⟨rfl, rfl⟩ := ConnectionPool.submit_refused guarded
    exact h.still rfl rfl (fun _ => nofun) rfl id
  | left workers guarded =>
    obtain ⟨rfl, -⟩ := ConnectionPool.pickUp_left guarded
    exact h.still rfl rfl (fun _ => nofun) rfl id
  | stop => exact h.still rfl rfl (fun _ => nofun) rfl fun running => by cases running
  | @dropped _ _ job stopping joined uncalled queue =>
    constructor
    · rw [filterMap_concat, filterMap_concat]
      simpa only [Event.pickedClient, Event.queuedClient, Option.toList_none, List.append_nil] using
        h.first
    · intro undropped
      exact absurd (by simp) (undropped job.client)
    · intro running
      exact absurd running (by simp [stopping])
  | _ => exact h.still rfl rfl (fun _ => nofun) rfl id

theorem PoolRun.ordered (h : PoolRun limits past state) : Ordered past state := by
  refine h.invariant Ordered ?_ ?_
  · intro state ⟨workers, now⟩
    exact ⟨List.prefix_rfl, fun _ => rfl, fun _ client hmem => by cases hmem⟩
  · intro past state event next _ ih hstep
    exact ih.step hstep

theorem PoolRun.queue_length (h : PoolRun limits past state) :
    state.pool.queue.length ≤ limits.queued := by
  refine h.invariant (fun _ state => state.pool.queue.length ≤ limits.queued) ?_ ?_
  · intro state ⟨workers, now⟩
    exact Nat.zero_le _
  · intro past state event next _ ih hstep
    cases hstep with
    | queued grows calls guarded =>
      obtain ⟨-, room, rfl⟩ := ConnectionPool.submit_queued guarded
      rw [List.length_append]
      exact room
    | refused grows calls guarded =>
      obtain ⟨rfl, -⟩ := ConnectionPool.submit_refused guarded
      exact ih
    | pickedUp workers guarded =>
      obtain ⟨-, queue, -⟩ := ConnectionPool.pickUp_job guarded
      rw [queue] at ih
      exact Nat.le_of_succ_le ih
    | left workers guarded =>
      obtain ⟨rfl, -⟩ := ConnectionPool.pickUp_left guarded
      exact ih
    | dropped stopping joined uncalled queue =>
      rw [queue] at ih
      simp only [List.length_append, List.length_cons] at ih ⊢
      omega
    | _ => exact ih

/-- The job was queued, and picked up while the pool was not stopping. -/
def PickedUp (past : List (Event κ)) (job : Waiting κ) (pickedAt : TimePoint) : Prop :=
  ∃ before after, past = before ++ .pickedUp job pickedAt :: after ∧ .stopped ∉ before ∧
    .queued job.client job.queuedAt ∈ before

theorem PickedUp.later {job : Waiting κ} {pickedAt : TimePoint}
    (h : PickedUp past job pickedAt) (rest : List (Event κ)) :
    PickedUp (past ++ rest) job pickedAt := by
  obtain ⟨before, after, rfl, running, queued⟩ := h
  exact ⟨before, after ++ rest, by simp, running, queued⟩

structure Timely (past : List (Event κ)) (state : State κ) : Prop where
  queued : ∀ job ∈ state.pool.queue, .queued job.client job.queuedAt ∈ past
  picked : ∀ job, .picked job ∈ state.workers →
    ∃ pickedAt, PickedUp past job pickedAt ∧ pickedAt ≤ state.now
  running : state.pool.stopping = false → .stopped ∉ past

theorem Timely.still {past : List (Event κ)} {state next : State κ} {event : Event κ}
    (h : Timely past state) (queue : ∀ job ∈ next.pool.queue, job ∈ state.pool.queue)
    (workers : ∀ job, .picked job ∈ next.workers → .picked job ∈ state.workers)
    (now : state.now ≤ next.now)
    (stopping : next.pool.stopping = false → state.pool.stopping = false ∧ event ≠ .stopped) :
    Timely (past ++ [event]) next := by
  constructor
  · intro job hmem
    exact List.mem_append_left _ (h.queued job (queue job hmem))
  · intro job hmem
    obtain ⟨pickedAt, hpicked, hnow⟩ := h.picked job (workers job hmem)
    exact ⟨pickedAt, hpicked.later _, Int.le_trans hnow now⟩
  · intro hstopping hmem
    obtain ⟨running, other⟩ := stopping hstopping
    rcases List.mem_append.mp hmem with earlier | last
    · exact h.running running earlier
    · exact other (List.mem_singleton.mp last).symm

/-- Another state of one worker that has not picked up a job. -/
theorem picked_mem_of_replace {front back : List (Worker κ)} {old new : Worker κ}
    {job : Waiting κ} (other : new ≠ .picked job) (h : .picked job ∈ front ++ new :: back) :
    .picked job ∈ front ++ old :: back := by
  rcases List.mem_append.mp h with hfront | hrest
  · exact List.mem_append_left _ hfront
  · rcases List.mem_cons.mp hrest with rfl | hback
    · exact absurd rfl other
    · exact List.mem_append_right _ (List.mem_cons_of_mem _ hback)

theorem Timely.step {past : List (Event κ)} {state next : State κ} {event : Event κ}
    (h : Timely past state) (moved : Step limits past state event next) :
    Timely (past ++ [event]) next := by
  cases moved with
  | @queued _ _ client _ grows calls guarded =>
    obtain ⟨running, -, rfl⟩ := ConnectionPool.submit_queued guarded
    constructor
    · intro job hmem
      rcases List.mem_append.mp hmem with hmem | hmem
      · exact List.mem_append_left _ (h.queued job hmem)
      · cases List.mem_singleton.mp hmem
        exact List.mem_append_right _ (List.mem_singleton.mpr rfl)
    · intro job hmem
      obtain ⟨pickedAt, hpicked, hnow⟩ := h.picked job hmem
      exact ⟨pickedAt, hpicked.later _, hnow⟩
    · intro _ hmem
      exact h.running running (by simpa using hmem)
  | refused grows calls guarded =>
    obtain ⟨rfl, rfl⟩ := ConnectionPool.submit_refused guarded
    exact h.still (fun _ => id) (fun _ => id) (Int.le_refl _) fun running => ⟨running, nofun⟩
  | @pickedUp front back pool job workers guarded =>
    obtain ⟨running, queue, same⟩ := ConnectionPool.pickUp_job guarded
    have hqueued : .queued job.client job.queuedAt ∈ past :=
      h.queued job (queue ▸ List.mem_cons_self)
    constructor
    · intro other hmem
      exact List.mem_append_left _ (h.queued other (queue ▸ List.mem_cons_of_mem _ hmem))
    · intro other hmem
      by_cases same : other = job
      · subst same
        exact ⟨state.now, ⟨past, [], rfl, h.running running, hqueued⟩, Int.le_refl _⟩
      · have hother : .picked other ∈ front ++ .idle :: back := by
          refine picked_mem_of_replace (fun h => ?_) hmem
          exact same (Worker.picked.inj h).symm
        rw [← workers] at hother
        obtain ⟨pickedAt, hpicked, hnow⟩ := h.picked other hother
        exact ⟨pickedAt, hpicked.later _, hnow⟩
    · intro _ hmem
      exact h.running running (by simpa using hmem)
  | left workers guarded =>
    obtain ⟨rfl, -⟩ := ConnectionPool.pickUp_left guarded
    exact h.still (fun _ => id) (fun _ => workers ▸ picked_mem_of_replace nofun)
      (Int.le_refl _) fun running => ⟨running, nofun⟩
  | stop => exact h.still (fun _ => id) (fun _ => id) (Int.le_refl _) fun running => by cases running
  | dropped stopping joined uncalled queue =>
    refine h.still (fun job hmem => ?_) (fun _ => id) (Int.le_refl _) fun running => ⟨running, nofun⟩
    rw [queue]
    simp only [List.mem_append, List.mem_cons] at hmem ⊢
    rcases hmem with hfront | hback
    · exact .inl hfront
    · exact .inr (.inr hback)
  | elapsed time =>
    exact h.still (fun _ => id) (fun _ => id) (Int.le_add_of_nonneg_right (Int.natCast_nonneg time))
      fun running => ⟨running, nofun⟩
  | call conn accepted =>
    exact h.still (fun _ => id) (fun _ => id) (Int.le_refl _) fun running => ⟨running, nofun⟩
  | answered taken calls =>
    exact h.still (fun _ => id) (fun _ => id) (Int.le_refl _) fun running => ⟨running, nofun⟩
  | returned calls =>
    exact h.still (fun _ => id) (fun _ => id) (Int.le_refl _) fun running => ⟨running, nofun⟩
  | overdue workers | started workers | turnedAway taken workers | ended workers
  | closed workers =>
    exact h.still (fun _ => id) (fun _ => workers ▸ picked_mem_of_replace nofun)
      (Int.le_refl _) fun running => ⟨running, nofun⟩

theorem PoolRun.timely (h : PoolRun limits past state) : Timely past state := by
  refine h.invariant Timely ?_ ?_
  · intro state ⟨workers, now⟩
    refine ⟨nofun, fun job hmem => ?_, fun _ => nofun⟩
    exact absurd (List.mem_replicate.mp hmem).2 nofun
  · intro past state event next _ ih hstep
    exact ih.step hstep

/-- What is served was picked up ahead of `stop`, and in time. -/
theorem PoolRun.started_in_time (h : PoolRun limits past state) {client : Socket κ}
    (started : .started client ∈ past) :
    ∃ before after job pickedAt, past = before ++ .started client :: after ∧
      job.client = client ∧ PickedUp before job pickedAt ∧
        pickedAt - job.queuedAt ≤ limits.queueWait.span := by
  obtain ⟨before, after, reached, next, rfl, hrun, hstep⟩ := h.around started
  cases hstep with
  | @started front back job workers early =>
    have hmem : .picked job ∈ reached.workers := by
      rw [workers]
      simp
    obtain ⟨pickedAt, hpicked, hnow⟩ := (PoolRun.timely hrun).picked job hmem
    refine ⟨before, after, job, pickedAt, rfl, rfl, hpicked, ?_⟩
    exact Int.le_trans (Int.sub_le_sub_right hnow _) (Int.not_lt.mp early)

/-- A refusal leaves the pool as it was. -/
theorem Step.refused_same {next : State κ} {client : Socket κ}
    (h : Step limits past state (.refused client) next) : next.pool = state.pool := by
  cases h with
  | refused grows calls guarded => exact (ConnectionPool.submit_refused guarded).1

/-- The pool neither loses nor duplicates a connection. -/
theorem PoolRun.accounted [DecidableEq κ] (h : PoolRun limits past state) :
    (∀ conn, .called conn ∈ past →
      (state.calls.map Call.client).count (some conn) +
        (state.pool.queue.map Waiting.client).count (some conn) +
          (state.workers.map Worker.client).count (some conn) +
            (past.filterMap Event.finished).count (some conn) = 1) ∧
    state.pool.queue.length ≤ limits.queued ∧
    Ordered past state ∧
    (∀ conn, past.countP (Event.starts conn) ≤ 1) ∧
    (∀ conn, .started (some conn) ∈ past →
      ∃ before after job pickedAt, past = before ++ .started (some conn) :: after ∧
        job.client = some conn ∧ PickedUp before job pickedAt ∧
          pickedAt - job.queuedAt ≤ limits.queueWait.span) ∧
    (∀ conn, .refused (some conn) ∈ past →
      (∀ queuedAt, .queued (some conn) queuedAt ∉ past) ∧
        some conn ∉ state.pool.queue.map Waiting.client ∧
          past.countP (Event.writes conn) ≤ 1) ∧
    ∀ client next, Step limits past state (.refused client) next → next.pool = state.pool := by
  refine ⟨fun conn => h.in_one_place, h.queue_length, h.ordered, fun conn => ?_,
    fun conn => h.started_in_time, fun conn refused => ?_, fun _ _ => Step.refused_same⟩
  · have := h.started_or_answered conn
    omega
  · have honce := h.queued_or_refused conn
    have hrefused : 0 < past.countP (Event.refuses conn) :=
      List.countP_pos_iff.mpr ⟨_, refused, by simp [Event.refuses]⟩
    refine ⟨fun queuedAt hmem => ?_, fun hmem => ?_, ?_⟩
    · have hqueued : 0 < past.countP (Event.queues conn) :=
        List.countP_pos_iff.mpr ⟨_, hmem, by simp [Event.queues, Event.queuedClient]⟩
      omega
    · have hcount := h.count_queue conn
      have hpos := List.count_pos_iff.mpr hmem
      omega
    · have := h.started_or_answered conn
      omega

/-- One place in the queue, and a second connection while it is taken. -/
theorem PoolRun.accounted_refusal : ∃ state : State Nat,
    PoolRun { queued := 1 } [.called 0, .queued (some 0) 0, .called 1, .refused (some 1)] state ∧
    (state.calls.map Call.client).count (some 1) +
      (state.pool.queue.map Waiting.client).count (some 1) +
        (state.workers.map Worker.client).count (some 1) +
          ([.called 0, .queued (some 0) 0, .called 1, .refused (some 1)].filterMap
            Event.finished).count (some 1) = 1 := by
  have hstart : PoolRun { queued := 1 } ([] : List (Event Nat)) _ := .start (.constructed 1 0)
  have hcalled := hstart.step (.call (0 : Nat) (by simp))
  have hqueued := hcalled.step (@Step.queued _ _ _ _ [] [] _ _ true rfl rfl)
  have hagain := hqueued.step (.call (1 : Nat) (by simp))
  have hrefused := hagain.step (@Step.refused _ _ _ _ [] [] _ _ _ true rfl rfl)
  exact ⟨_, hrefused, (PoolRun.accounted hrefused).1 1 (by simp)⟩

end Carafe.Server
