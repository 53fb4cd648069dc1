import Carafe.Http.Message
import Carafe.Net.Socket
import Carafe.Library.History

/-!
# The connection pool

The sections of `submit`, `work` and `stop` that the mutex guards are functions on
the members it guards. Around them a call of `submit` and a worker each have a point
they have got to, and a step of the pool moves one of them on. A socket is the
connection it owns, if it owns one.
-/

namespace Carafe.Server
open Http Net History

structure PoolLimits where
  workers : Nat := 64
  queued : Nat := 512
  queueWait : Milliseconds := 5000

/-- The bytes of the one response that the pool writes. -/
def refusalBytes : Bytes :=
  let response := statusResponse 503
  { response with
    headers := response.headers.add ⟨bytes "connection", bytes "close"⟩ }.serialize

abbrev Socket (κ : Type) := Option κ

structure Waiting (κ : Type) where
  client : Socket κ
  queuedAt : TimePoint

/-- What the mutex guards. -/
structure ConnectionPool (κ : Type) where
  queue : List (Waiting κ) := []
  stopping : Bool := false

variable {κ : Type}

/-- There is no result where the queue could not grow. -/
def pushBack (queue : List (Waiting κ)) (entry : Waiting κ) (grows : Bool) :
    Option (List (Waiting κ)) :=
  if grows then some (queue ++ [entry]) else none

/-- `queue_.back().client = std::move(client)` -/
def moveIntoBack (queue : List (Waiting κ)) (client : Socket κ) : List (Waiting κ) :=
  match queue.getLast? with
  | none => queue
  | some last => queue.dropLast ++ [{ last with client := client }]

namespace ConnectionPool

/-- The socket comes back if it has to be refused. -/
def submit (pool : ConnectionPool κ) (limits : PoolLimits) (now : TimePoint) (grows : Bool)
    (client : Socket κ) : ConnectionPool κ × Option (Socket κ) :=
  if pool.stopping = false ∧ pool.queue.length < limits.queued then
    -- The node is made before the connection goes into it.
    match pushBack pool.queue ⟨none, now⟩ grows with
    | none => (pool, some client)
    | some queue => ({ pool with queue := moveIntoBack queue client }, none)
  else (pool, some client)

/-- There is no result while a worker waits, and no job when it returns. -/
def pickUp (pool : ConnectionPool κ) : Option (ConnectionPool κ × Option (Waiting κ)) :=
  if pool.stopping then some (pool, none)
  else match pool.queue with
    | [] => none
    | job :: rest => some ({ pool with queue := rest }, some job)

def stop (pool : ConnectionPool κ) : ConnectionPool κ := { pool with stopping := true }

end ConnectionPool

/-- Outside the lock, a worker looks at how long its job has waited. -/
def Waiting.overdue (job : Waiting κ) (limits : PoolLimits) (now : TimePoint) : Prop :=
  limits.queueWait.span < now - job.queuedAt

instance (job : Waiting κ) (limits : PoolLimits) (now : TimePoint) :
    Decidable (job.overdue limits now) :=
  inferInstanceAs (Decidable (_ < _))

/-- A call of `submit`: ahead of the guarded section, ahead of the refusal, behind it. -/
inductive Call (κ : Type) where
  | entered (client : Socket κ)
  | refused (client : Socket κ)
  | answered (client : Socket κ)
  deriving DecidableEq

inductive Worker (κ : Type) where
  | idle
  | picked (job : Waiting κ)
  | overdue (client : Socket κ)
  | serving (client : Socket κ)
  | closing (client : Socket κ)
  | left

/-- The pool with everything that runs on it. -/
structure State (κ : Type) where
  pool : ConnectionPool κ := {}
  calls : List (Call κ) := []
  workers : List (Worker κ)
  now : TimePoint

inductive Event (κ : Type) where
  | called (conn : κ)
  | queued (client : Socket κ) (queuedAt : TimePoint)
  | refused (client : Socket κ)
  | wrote (client : Socket κ) (written : Bytes)
  | pickedUp (job : Waiting κ) (pickedAt : TimePoint)
  | overdue (client : Socket κ)
  | started (client : Socket κ)
  | ended (client : Socket κ)
  | closed (client : Socket κ)
  | left
  | stopped
  | dropped (client : Socket κ)
  | elapsed (time : Nat)

/-- A step of one call, of one worker, of the destructor or of the clock. The socket
takes as much of the refusal as it takes without waiting. -/
inductive Step (limits : PoolLimits) (past : List (Event κ)) :
    State κ → Event κ → State κ → Prop where
  | call {state : State κ} (conn : κ) (accepted : Event.called conn ∉ past) :
      Step limits past state (.called conn)
        { state with calls := state.calls ++ [.entered (some conn)] }
  | queued {state : State κ} {front back : List (Call κ)} {client : Socket κ}
      {pool : ConnectionPool κ} (grows : Bool)
      (calls : state.calls = front ++ .entered client :: back)
      (guarded : state.pool.submit limits state.now grows client = (pool, none)) :
      Step limits past state (.queued client state.now)
        { state with pool := pool, calls := front ++ back }
  | refused {state : State κ} {front back : List (Call κ)} {client kept : Socket κ}
      {pool : ConnectionPool κ} (grows : Bool)
      (calls : state.calls = front ++ .entered client :: back)
      (guarded : state.pool.submit limits state.now grows client = (pool, some kept)) :
      Step limits past state (.refused kept)
        { state with pool := pool, calls := front ++ .refused kept :: back }
  | answered {state : State κ} {front back : List (Call κ)} {client : Socket κ} (taken : Nat)
      (calls : state.calls = front ++ .refused client :: back) :
      Step limits past state (.wrote client (refusalBytes.take taken))
        { state with calls := front ++ .answered client :: back }
  | returned {state : State κ} {front back : List (Call κ)} {client : Socket κ}
      (calls : state.calls = front ++ .answered client :: back) :
      Step limits past state (.closed client) { state with calls := front ++ back }
  | pickedUp {state : State κ} {front back : List (Worker κ)} {pool : ConnectionPool κ}
      {job : Waiting κ} (workers : state.workers = front ++ .idle :: back)
      (guarded : state.pool.pickUp = some (pool, some job)) :
      Step limits past state (.pickedUp job state.now)
        { state with pool := pool, workers := front ++ .picked job :: back }
  | left {state : State κ} {front back : List (Worker κ)} {pool : ConnectionPool κ}
      (workers : state.workers = front ++ .idle :: back)
      (guarded : state.pool.pickUp = some (pool, none)) :
      Step limits past state .left
        { state with pool := pool, workers := front ++ .left :: back }
  | overdue {state : State κ} {front back : List (Worker κ)} {job : Waiting κ}
      (workers : state.workers = front ++ .picked job :: back)
      (late : job.overdue limits state.now) :
      Step limits past state (.overdue job.client)
        { state with workers := front ++ .overdue job.client :: back }
  | started {state : State κ} {front back : List (Worker κ)} {job : Waiting κ}
      (workers : state.workers = front ++ .picked job :: back)
      (early : ¬ job.overdue limits state.now) :
      Step limits past state (.started job.client)
        { state with workers := front ++ .serving job.client :: back }
  | turnedAway {state : State κ} {front back : List (Worker κ)} {client : Socket κ} (taken : Nat)
      (workers : state.workers = front ++ .overdue client :: back) :
      Step limits past state (.wrote client (refusalBytes.take taken))
        { state with workers := front ++ .closing client :: back }
  -- `serve_connection` has returned or thrown.
  | ended {state : State κ} {front back : List (Worker κ)} {client : Socket κ}
      (workers : state.workers = front ++ .serving client :: back) :
      Step limits past state (.ended client)
        { state with workers := front ++ .closing client :: back }
  | closed {state : State κ} {front back : List (Worker κ)} {client : Socket κ}
      (workers : state.workers = front ++ .closing client :: back) :
      Step limits past state (.closed client)
        { state with workers := front ++ .idle :: back }
  | stop {state : State κ} :
      Step limits past state .stopped { state with pool := state.pool.stop }
  -- The workers have been joined and the queue is destroyed, in no order of its own.
  | dropped {state : State κ} {front back : List (Waiting κ)} {job : Waiting κ}
      (stopping : state.pool.stopping = true) (joined : ∀ worker ∈ state.workers, worker = .left)
      (uncalled : state.calls = []) (queue : state.pool.queue = front ++ job :: back) :
      Step limits past state (.dropped job.client)
        { state with pool := { state.pool with queue := front ++ back } }
  | elapsed {state : State κ} (time : Nat) :
      Step limits past state (.elapsed time) { state with now := state.now + time }

/-- The constructor leaves some number of idle workers. -/
inductive Started : State κ → Prop where
  | constructed (workers : Nat) (now : TimePoint) :
      Started { workers := List.replicate workers .idle, now := now }

/-- What the pool can come to, with the events on the way. -/
abbrev PoolRun (limits : PoolLimits) : List (Event κ) → State κ → Prop :=
  History.Run Started (Step limits)

namespace ConnectionPool

theorem moveIntoBack_concat (queue : List (Waiting κ)) (entry : Waiting κ) (client : Socket κ) :
    moveIntoBack (queue ++ [entry]) client = queue ++ [{ entry with client := client }] := by
  simp [moveIntoBack]

theorem submit_queued {pool after : ConnectionPool κ} {limits : PoolLimits} {now : TimePoint}
    {grows : Bool} {client : Socket κ}
    (h : pool.submit limits now grows client = (after, none)) :
    pool.stopping = false ∧ pool.queue.length < limits.queued ∧
      after = { pool with queue := pool.queue ++ [⟨client, now⟩] } := by
  unfold submit at h
  split at h
  · rename_i room
    cases grows with
    | false => simp [pushBack] at h
    | true =>
      simp only [pushBack, if_true, moveIntoBack_concat, Prod.mk.injEq, and_true] at h
      exact ⟨room.1, room.2, h.symm⟩
  · simp at h

/-- A refused connection leaves the pool as it was. -/
theorem submit_refused {pool after : ConnectionPool κ} {limits : PoolLimits} {now : TimePoint}
    {grows : Bool} {client kept : Socket κ}
    (h : pool.submit limits now grows client = (after, some kept)) :
    after = pool ∧ kept = client := by
  unfold submit at h
  split at h
  · cases grows with
    | false =>
      simp only [pushBack, Bool.false_eq_true, if_false, Prod.mk.injEq, Option.some.injEq] at h
      exact ⟨h.1.symm, h.2.symm⟩
    | true => simp [pushBack] at h
  · simp only [Prod.mk.injEq, Option.some.injEq] at h
    exact ⟨h.1.symm, h.2.symm⟩

theorem pickUp_job {pool after : ConnectionPool κ} {job : Waiting κ}
    (h : pool.pickUp = some (after, some job)) :
    pool.stopping = false ∧ pool.queue = job :: after.queue ∧ after.stopping = pool.stopping := by
  unfold pickUp at h
  split at h
  · simp at h
  · rename_i running
    split at h
    · cases h
    · rename_i queue
      simp only [Option.some.injEq, Prod.mk.injEq] at h
      obtain ⟨rfl, rfl⟩ := h
      exact ⟨by simpa using running, queue, rfl⟩

theorem pickUp_left {pool after : ConnectionPool κ} (h : pool.pickUp = some (after, none)) :
    after = pool ∧ pool.stopping = true := by
  unfold pickUp at h
  split at h
  · rename_i stopping
    simp only [Option.some.injEq, Prod.mk.injEq, and_true] at h
    exact ⟨h.symm, stopping⟩
  · split at h
    · cases h
    · simp at h

end ConnectionPool

end Carafe.Server
