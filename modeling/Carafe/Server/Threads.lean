import Carafe.Net.Write
import Carafe.Server.Pool

/-!
# The threads of a server

`serve_forever` accepts on one thread and its pool serves on the others. Here each of
them takes one step at a time: to the mutex, through a guarded section, to the condition
variable and back. A step of one thread sees what the others have done so far.
-/

namespace Carafe.Server
open Http Net History

def eperm : Errno := 1
def enomem : Errno := 12
def enfile : Errno := 23
def emfile : Errno := 24
def eproto : Errno := 71
def enetdown : Errno := 100
def enetunreach : Errno := 101
def econnaborted : Errno := 103
def enobufs : Errno := 105
def ehostdown : Errno := 112
def ehostunreach : Errno := 113

inductive AcceptRetry where
  | never
  | immediately
  | afterAPause
  deriving DecidableEq

def acceptRetryFor (osError : Errno) : AcceptRetry :=
  if osError ∈ [emfile, enfile, enomem, enobufs] then .afterAPause
  else if osError ∈ [econnaborted, eperm, eproto, etimedout, enetdown, enetunreach, ehostdown,
      ehostunreach] then .immediately
  else .never

variable {κ : Type}

/-- The thread of `serve_forever`: in the pool's constructor, in the loop, in `submit`
and in the pool's destructor. -/
inductive Acceptor (κ : Type) where
  | constructing
  | accepting
  | pausing
  | entering (client : Socket κ)
  | testing (client : Socket κ)
  | pushing (client : Socket κ)
  | pushed (client : Socket κ)
  | moved
  | notified
  | refusing (client : Socket κ)
  | refused (client : Socket κ)
  | answered (client : Socket κ)
  | stopping
  | setting
  | flagged
  | notifying
  | joining (joined : Nat)
  | destroying
  | returned

/-- A thread that runs `work`. -/
inductive Thread (κ : Type) where
  | unstarted
  | locking
  | testing
  | blocked
  | holding
  | leaving
  | popping (job : Waiting κ)
  | unlocking (job : Waiting κ)
  | picked (job : Waiting κ)
  | overdue (client : Socket κ)
  | serving (client : Socket κ)
  | closing (client : Socket κ)
  | left

/-- The pool's mutex and what it guards. -/
structure Shared (κ : Type) where
  pool : ConnectionPool κ := {}
  locked : Bool := false

structure Process (κ : Type) where
  shared : Shared κ := {}
  acceptor : Acceptor κ := .constructing
  workers : List (Thread κ)
  now : TimePoint

/-- A step of a thread: one that the pool's history records, an outcome of `accept4`, the
end of a pause, a wakeup that nobody asked for, or one that only this thread notices. -/
inductive Act (κ : Type) where
  | pool (event : Event κ)
  | interrupted
  | failed (osError : Errno)
  | paused
  | woken
  | inner

/-- A worker in `work`. -/
inductive Thread.Step (limits : PoolLimits) (now : TimePoint) :
    Shared κ → Thread κ → Act κ → Shared κ → Thread κ → Prop where
  | locked {shared : Shared κ} (unlocked : shared.locked = false) :
      Step limits now shared .locking .inner { shared with locked := true } .testing
  -- The predicate of the wait, false: the wait lets go of the mutex as it blocks.
  | blocked {shared : Shared κ} (running : shared.pool.stopping = false)
      (empty : shared.pool.queue = []) :
      Step limits now shared .testing .inner { shared with locked := false } .blocked
  | tested {shared : Shared κ}
      (ready : shared.pool.stopping = true ∨ shared.pool.queue ≠ []) :
      Step limits now shared .testing .inner shared .holding
  | leaves {shared : Shared κ} (stopping : shared.pool.stopping = true) :
      Step limits now shared .holding (.pool .left) shared .leaving
  | left {shared : Shared κ} :
      Step limits now shared .leaving .inner { shared with locked := false } .left
  -- The front node stays behind with nothing in it until it is popped.
  | took {shared : Shared κ} {job : Waiting κ} {rest : List (Waiting κ)}
      (running : shared.pool.stopping = false) (queue : shared.pool.queue = job :: rest) :
      Step limits now shared .holding (.pool (.pickedUp job now))
        { shared with pool := { shared.pool with queue := { job with client := none } :: rest } }
        (.popping job)
  | popped {shared : Shared κ} {job : Waiting κ} :
      Step limits now shared (.popping job) .inner
        { shared with pool := { shared.pool with queue := shared.pool.queue.tail } }
        (.unlocking job)
  | unlocked {shared : Shared κ} {job : Waiting κ} :
      Step limits now shared (.unlocking job) .inner { shared with locked := false } (.picked job)
  | overdue {shared : Shared κ} {job : Waiting κ} (late : job.overdue limits now) :
      Step limits now shared (.picked job) (.pool (.overdue job.client)) shared
        (.overdue job.client)
  | started {shared : Shared κ} {job : Waiting κ} (early : ¬ job.overdue limits now) :
      Step limits now shared (.picked job) (.pool (.started job.client)) shared
        (.serving job.client)
  | turnedAway {shared : Shared κ} {client : Socket κ} (taken : Nat) :
      Step limits now shared (.overdue client) (.pool (.wrote client (refusalBytes.take taken)))
        shared (.closing client)
  | ended {shared : Shared κ} {client : Socket κ} :
      Step limits now shared (.serving client) (.pool (.ended client)) shared (.closing client)
  | closed {shared : Shared κ} {client : Socket κ} :
      Step limits now shared (.closing client) (.pool (.closed client)) shared .locking

/-- The accepting thread, where it leaves the workers alone. -/
inductive Acceptor.Step (limits : PoolLimits) (past : List (Act κ)) (now : TimePoint) :
    Shared κ → Acceptor κ → Act κ → Shared κ → Acceptor κ → Prop where
  | accepted {shared : Shared κ} (conn : κ) (new : .pool (.called conn) ∉ past) :
      Step limits past now shared .accepting (.pool (.called conn)) shared (.entering (some conn))
  | interrupted {shared : Shared κ} :
      Step limits past now shared .accepting .interrupted shared .accepting
  | gaveUp {shared : Shared κ} {osError : Errno} (failed : osError ≠ eintr)
      (retry : acceptRetryFor osError = .never) :
      Step limits past now shared .accepting (.failed osError) shared .stopping
  | pauses {shared : Shared κ} {osError : Errno} (failed : osError ≠ eintr)
      (retry : acceptRetryFor osError = .afterAPause) :
      Step limits past now shared .accepting (.failed osError) shared .pausing
  | retries {shared : Shared κ} {osError : Errno} (failed : osError ≠ eintr)
      (retry : acceptRetryFor osError = .immediately) :
      Step limits past now shared .accepting (.failed osError) shared .accepting
  | paused {shared : Shared κ} :
      Step limits past now shared .pausing .paused shared .accepting
  | locked {shared : Shared κ} {client : Socket κ} (unlocked : shared.locked = false) :
      Step limits past now shared (.entering client) .inner { shared with locked := true }
        (.testing client)
  | tested {shared : Shared κ} {client : Socket κ} (running : shared.pool.stopping = false)
      (room : shared.pool.queue.length < limits.queued) :
      Step limits past now shared (.testing client) .inner shared (.pushing client)
  | full {shared : Shared κ} {client : Socket κ}
      (refused : ¬ (shared.pool.stopping = false ∧ shared.pool.queue.length < limits.queued)) :
      Step limits past now shared (.testing client) (.pool (.refused client)) shared
        (.refusing client)
  -- The node is made before the connection goes into it.
  | pushed {shared : Shared κ} {client : Socket κ} :
      Step limits past now shared (.pushing client) (.pool (.queued client now))
        { shared with pool := { shared.pool with queue := shared.pool.queue ++ [⟨none, now⟩] } }
        (.pushed client)
  | threw {shared : Shared κ} {client : Socket κ} :
      Step limits past now shared (.pushing client) (.pool (.refused client)) shared
        (.refusing client)
  | moved {shared : Shared κ} {client : Socket κ} :
      Step limits past now shared (.pushed client) .inner
        { shared with
          pool := { shared.pool with queue := moveIntoBack shared.pool.queue client } } .moved
  | unlocked {shared : Shared κ} :
      Step limits past now shared .notified .inner { shared with locked := false } .accepting
  | letGo {shared : Shared κ} {client : Socket κ} :
      Step limits past now shared (.refusing client) .inner { shared with locked := false }
        (.refused client)
  | answered {shared : Shared κ} {client : Socket κ} (taken : Nat) :
      Step limits past now shared (.refused client)
        (.pool (.wrote client (refusalBytes.take taken))) shared (.answered client)
  | closed {shared : Shared κ} {client : Socket κ} :
      Step limits past now shared (.answered client) (.pool (.closed client)) shared .accepting
  | stopLocked {shared : Shared κ} (unlocked : shared.locked = false) :
      Step limits past now shared .stopping .inner { shared with locked := true } .setting
  | stopped {shared : Shared κ} :
      Step limits past now shared .setting (.pool .stopped)
        { shared with pool := shared.pool.stop } .flagged
  | stopUnlocked {shared : Shared κ} :
      Step limits past now shared .flagged .inner { shared with locked := false } .notifying

/-- What `notify_all` makes of a thread. -/
def Thread.wake : Thread κ → Thread κ
  | blocked => locking
  | thread => thread

inductive Process.Step (limits : PoolLimits) (past : List (Act κ)) :
    Process κ → Act κ → Process κ → Prop where
  | accepts {process : Process κ} {act : Act κ} {shared : Shared κ} {acceptor : Acceptor κ}
      (step : process.acceptor.Step limits past process.now process.shared act shared acceptor) :
      Step limits past process act { process with shared := shared, acceptor := acceptor }
  | works {process : Process κ} {act : Act κ} {shared : Shared κ} {front back : List (Thread κ)}
      {thread next : Thread κ} (workers : process.workers = front ++ thread :: back)
      (step : thread.Step limits process.now process.shared act shared next) :
      Step limits past process act
        { process with shared := shared, workers := front ++ next :: back }
  -- The constructor starts its threads one after another.
  | spawned {process : Process κ} {front back : List (Thread κ)}
      (acceptor : process.acceptor = .constructing) (started : .unstarted ∉ front)
      (workers : process.workers = front ++ .unstarted :: back) :
      Step limits past process .inner { process with workers := front ++ .locking :: back }
  | constructed {process : Process κ} (acceptor : process.acceptor = .constructing)
      (started : .unstarted ∉ process.workers) :
      Step limits past process .inner { process with acceptor := .accepting }
  | notified {process : Process κ} {front back : List (Thread κ)}
      (acceptor : process.acceptor = .moved)
      (workers : process.workers = front ++ .blocked :: back) :
      Step limits past process .inner
        { process with acceptor := .notified, workers := front ++ .locking :: back }
  | notifiedNone {process : Process κ} (acceptor : process.acceptor = .moved)
      (workers : .blocked ∉ process.workers) :
      Step limits past process .inner { process with acceptor := .notified }
  | notifiedAll {process : Process κ} (acceptor : process.acceptor = .notifying) :
      Step limits past process .inner
        { process with acceptor := .joining 0, workers := process.workers.map Thread.wake }
  | joined {process : Process κ} {joined : Nat} (acceptor : process.acceptor = .joining joined)
      (left : process.workers[joined]? = some .left) :
      Step limits past process .inner { process with acceptor := .joining (joined + 1) }
  | allJoined {process : Process κ} {joined : Nat} (acceptor : process.acceptor = .joining joined)
      (all : joined = process.workers.length) :
      Step limits past process .inner { process with acceptor := .destroying }
  -- The queue is destroyed, in no order of its own.
  | dropped {process : Process κ} {front back : List (Waiting κ)} {job : Waiting κ}
      (acceptor : process.acceptor = .destroying)
      (queue : process.shared.pool.queue = front ++ job :: back) :
      Step limits past process (.pool (.dropped job.client))
        { process with
          shared := { process.shared with
            pool := { process.shared.pool with queue := front ++ back } } }
  | returned {process : Process κ} (acceptor : process.acceptor = .destroying)
      (queue : process.shared.pool.queue = []) :
      Step limits past process .inner { process with acceptor := .returned }
  | woken {process : Process κ} {front back : List (Thread κ)}
      (workers : process.workers = front ++ .blocked :: back) :
      Step limits past process .woken { process with workers := front ++ .locking :: back }
  | elapsed {process : Process κ} (time : Nat) :
      Step limits past process (.pool (.elapsed time)) { process with now := process.now + time }

/-- As many workers as there were threads for. -/
inductive Process.Started (limits : PoolLimits) : Process κ → Prop where
  | constructing (workers : Nat) (now : TimePoint) (threads : workers ≤ limits.workers) :
      Started limits { workers := List.replicate workers .unstarted, now := now }

abbrev ProcessRun (limits : PoolLimits) : List (Act κ) → Process κ → Prop :=
  History.Run (Process.Started limits) (Process.Step limits)

section Serves
variable {limits : PoolLimits} {past : List (Act κ)} {process : Process κ}

/-- An accepted connection goes into the queue where there is room, and the loop goes on. -/
theorem ProcessRun.queues (h : ProcessRun limits past process)
    (accepting : process.acceptor = .accepting) (unlocked : process.shared.locked = false)
    (running : process.shared.pool.stopping = false)
    (room : process.shared.pool.queue.length < limits.queued)
    (awake : .blocked ∉ process.workers) (conn : κ) (new : .pool (.called conn) ∉ past) :
    ProcessRun limits (past ++ [.pool (.called conn), .inner, .inner,
        .pool (.queued (some conn) process.now), .inner, .inner, .inner])
      { process with shared := { pool := { process.shared.pool with
          queue := process.shared.pool.queue ++ [⟨some conn, process.now⟩] } } } := by
  obtain ⟨⟨pool, locked⟩, acceptor, workers, now⟩ := process
  obtain rfl : acceptor = .accepting := accepting
  obtain rfl : locked = false := unlocked
  have haccepted := h.step (.accepts (.accepted conn new))
  have hlocked := haccepted.step (.accepts (.locked rfl))
  have htested := hlocked.step (.accepts (.tested running room))
  have hpushed := htested.step (.accepts .pushed)
  have hmoved := hpushed.step (.accepts .moved)
  have hnotified := hmoved.step (.notifiedNone rfl awake)
  have hunlocked := hnotified.step (.accepts .unlocked)
  simpa [ConnectionPool.moveIntoBack_concat] using hunlocked

/-- A worker with the mutex free serves the first connection of the queue, if that has not
waited too long. -/
theorem ProcessRun.serves {front back : List (Thread κ)} {job : Waiting κ}
    {rest : List (Waiting κ)} (h : ProcessRun limits past process)
    (workers : process.workers = front ++ .locking :: back)
    (unlocked : process.shared.locked = false) (running : process.shared.pool.stopping = false)
    (queue : process.shared.pool.queue = job :: rest)
    (early : ¬ job.overdue limits process.now) :
    ProcessRun limits (past ++ [.inner, .inner, .pool (.pickedUp job process.now), .inner, .inner,
        .pool (.started job.client)])
      { process with
        shared := { pool := { process.shared.pool with queue := rest } }
        workers := front ++ .serving job.client :: back } := by
  obtain ⟨⟨⟨waiting, stopping⟩, locked⟩, acceptor, threads, now⟩ := process
  obtain rfl : threads = front ++ .locking :: back := workers
  obtain rfl : waiting = job :: rest := queue
  obtain rfl : locked = false := unlocked
  have hlocked := h.step (.works rfl (.locked rfl))
  have hready := hlocked.step (.works rfl (.tested (.inr (List.cons_ne_nil _ _))))
  have htaken := hready.step (.works rfl (.took running rfl))
  have hpopped := htaken.step (.works rfl .popped)
  have hreleased := hpopped.step (.works rfl .unlocked)
  have hstarted := hreleased.step (.works rfl (.started early))
  simpa using hstarted

end Serves

end Carafe.Server
