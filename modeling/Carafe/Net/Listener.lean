import Carafe.Library.History
import Carafe.Library.Ownership
import Carafe.Net.Write

/-!
# Descriptors and the listener

A socket object owns one descriptor and closes it when it dies, an empty one owns none.
Objects are made, moved, assigned and destroyed in any order; the system hands out any
descriptor that is not open. `listen_on` and `accept` are made of the same operations.
-/

namespace Carafe.Net
open History Ownership

abbrev Fd := Int

structure Socket where
  fd : Fd := -1
  deriving DecidableEq, Repr

namespace Socket

def valid (sock : Socket) : Bool := sock.fd ≠ -1

/-- What the destructor closes. -/
def destroy (sock : Socket) : List (Event Fd) :=
  if sock.fd ≠ -1 then [.released sock.fd] else []

/-- The socket that is constructed by a move, and what the other one becomes. -/
def moved (other : Socket) : Socket × Socket := (⟨other.fd⟩, ⟨-1⟩)

/-- Assigning another one closes what was held before: this socket, the other one, and
what is closed. -/
def assign (sock other : Socket) : Socket × Socket × List (Event Fd) :=
  (⟨other.fd⟩, ⟨-1⟩, sock.destroy)

def owned (sock : Socket) : Option Fd := if sock.fd ≠ -1 then some sock.fd else none

end Socket

inductive ListenError where
  | none
  | socketFailed
  | bindFailed
  | addressFailed
  | listenFailed
  deriving DecidableEq, Repr

structure Listener where
  socket : Socket
  port : UInt16

structure ListenResult where
  error : ListenError := .none
  osError : Errno := 0
  listener : Option Listener := none

/-- What the calls in `listen_on` come to; the outcome of `setsockopt` is ignored. -/
structure ListenAnswers where
  socket : Except Errno Fd
  bind : Errno := 0
  getsockname : Except Errno UInt16
  listen : Errno := 0

/-- Port 0 asked the system to choose. -/
def ListenAnswers.boundPort (answers : ListenAnswers) (port : UInt16) : Except Errno UInt16 :=
  if port = 0 then answers.getsockname else .ok port

/-- The result, and the descriptors opened and closed. -/
def listenOn (port : UInt16) (answers : ListenAnswers) : ListenResult × List (Event Fd) :=
  match answers.socket with
  | .error osError => ({ error := .socketFailed, osError := osError }, [])
  | .ok rawFd =>
    -- Owned from here on, so every return below closes it, behind the result it returns.
    let sock : Socket := ⟨rawFd⟩
    let opened := [Event.acquired rawFd]
    if answers.bind ≠ 0 then
      ({ error := .bindFailed, osError := answers.bind }, opened ++ sock.destroy)
    else match answers.boundPort port with
      | .error osError => ({ error := .addressFailed, osError := osError }, opened ++ sock.destroy)
      | .ok actualPort =>
        if answers.listen ≠ 0 then
          ({ error := .listenFailed, osError := answers.listen }, opened ++ sock.destroy)
        else
          ({ listener := some { socket := sock.moved.1, port := actualPort } },
            opened ++ sock.moved.2.destroy)

structure AcceptResult where
  osError : Errno := 0
  client : Option Socket := none

/-- An interruption is not an outcome. There is no result while the call has not returned. -/
def accept : List (Except Errno Fd) → Option (AcceptResult × List (Event Fd))
  | [] => none
  | .ok clientFd :: _ => some ({ client := some ⟨clientFd⟩ }, [.acquired clientFd])
  | .error osError :: answers =>
    if osError ≠ eintr then some ({ osError := osError }, []) else accept answers

/-- The sockets that are alive, by name, and what was opened and closed. -/
structure World (κ : Type*) where
  objects : κ → Option Socket := fun _ => none
  log : List (Event Fd) := []

inductive Op (κ : Type*) where
  | adopt (a : κ) (fd : Fd)
  | moveConstruct (a b : κ)
  | moveAssign (a b : κ)
  | destroy (a : κ)
  | listen (a : κ) (port : UInt16) (answers : ListenAnswers)
  | accept (a listener : κ) (answers : List (Except Errno Fd))

namespace World
variable {κ : Type*} [DecidableEq κ]

/-- Nothing, where an object is made that is alive or one is used that is not. -/
def apply (w : World κ) : Op κ → Option (World κ)
  | .adopt a fd => match w.objects a with
    | some _ => none
    | none =>
      some { objects := Function.update w.objects a (some ⟨fd⟩)
             log := w.log ++ if fd ≠ -1 then [.acquired fd] else [] }
  | .moveConstruct a b => match w.objects a, w.objects b with
    | none, some other =>
      some { w with
        objects := Function.update (Function.update w.objects b (some other.moved.2)) a
          (some other.moved.1) }
    | _, _ => none
  | .moveAssign a b => match w.objects a, w.objects b with
    | some sock, some other =>
      -- Self-assignment would close the descriptor, then take it back.
      if a = b then some w
      else
        let assigned := sock.assign other
        some { objects := Function.update (Function.update w.objects b (some assigned.2.1)) a
                 (some assigned.1)
               log := w.log ++ assigned.2.2 }
    | _, _ => none
  | .destroy a => (w.objects a).map fun sock =>
      { objects := Function.update w.objects a none, log := w.log ++ sock.destroy }
  | .listen a port answers => match w.objects a with
    | some _ => none
    | none =>
      let result := listenOn port answers
      some { objects := Function.update w.objects a (result.1.listener.map Listener.socket)
             log := w.log ++ result.2 }
  | .accept a listener answers => match w.objects a, w.objects listener with
    | none, some _ => (Net.accept answers).map fun result =>
        { objects := Function.update w.objects a result.1.client, log := w.log ++ result.2 }
    | _, _ => none

instance (log : List (Event Fd)) (fd : Fd) : Decidable (Out log fd) :=
  inferInstanceAs (Decidable (_ = _))

/-- The descriptor that the system hands out is not open, and it is one. -/
def Fresh (w : World κ) (fd : Fd) : Prop := fd ≠ -1 ∧ ¬ Out w.log fd

/-- What the system keeps to. -/
def Kept (w : World κ) : Op κ → Prop
  | .adopt _ fd => fd ≠ -1 → w.Fresh fd
  | .moveConstruct _ _ | .moveAssign _ _ | .destroy _ => True
  | .listen _ _ answers => ∀ fd, answers.socket = .ok fd → w.Fresh fd
  | .accept _ _ answers => ∀ fd, .ok fd ∈ answers → w.Fresh fd

def Step (_ : List (Op κ)) (w : World κ) (op : Op κ) (next : World κ) : Prop :=
  w.Kept op ∧ w.apply op = some next

abbrev Runs : List (Op κ) → World κ → Prop := Run (· = {}) Step

end World

/-- A failing `listen_on` has closed what it opened and reports the call that failed, and
one that succeeds hands over the socket, with the port it was asked for unless that was 0. -/
theorem listenOn_cases (port : UInt16) (answers : ListenAnswers) :
    (∃ osError, answers.socket = .error osError ∧
      listenOn port answers = ({ error := .socketFailed, osError := osError }, [])) ∨
    ∃ fd, answers.socket = .ok fd ∧
      ((∃ error osError, error ≠ .none ∧ (answers.bind = osError ∨
          answers.boundPort port = .error osError ∨ answers.listen = osError) ∧
        listenOn port answers = ({ error := error, osError := osError },
          .acquired fd :: (⟨fd⟩ : Socket).destroy)) ∨
      ∃ actual, answers.bind = 0 ∧ answers.boundPort port = .ok actual ∧ answers.listen = 0 ∧
        listenOn port answers =
          ({ listener := some { socket := ⟨fd⟩, port := actual } }, [.acquired fd])) := by
  unfold listenOn
  cases answers.socket with
  | error osError => exact .inl ⟨osError, rfl, rfl⟩
  | ok fd =>
    refine .inr ⟨fd, rfl, ?_⟩
    dsimp only
    split
    · exact .inl ⟨.bindFailed, answers.bind, by simp, .inl rfl, rfl⟩
    · rename_i hbind
      cases hport : answers.boundPort port with
      | error osError => exact .inl ⟨.addressFailed, osError, by simp, .inr (.inl rfl), rfl⟩
      | ok actual =>
        dsimp only
        split
        · exact .inl ⟨.listenFailed, answers.listen, by simp, .inr (.inr rfl), rfl⟩
        · rename_i hlisten
          exact .inr ⟨actual, not_not.mp hbind, rfl, not_not.mp hlisten, rfl⟩

/-- `accept` hands over one descriptor, or opens none. -/
theorem accept_cases {answers : List (Except Errno Fd)} {result : AcceptResult × List (Event Fd)}
    (h : accept answers = some result) :
    (∃ fd, .ok fd ∈ answers ∧ result = ({ client := some ⟨fd⟩ }, [.acquired fd])) ∨
      ∃ osError, .error osError ∈ answers ∧ osError ≠ eintr ∧
        result = ({ osError := osError }, []) := by
  induction answers with
  | nil => cases h
  | cons answer answers ih =>
    cases answer with
    | ok fd =>
      obtain rfl := Option.some.inj h
      exact .inl ⟨fd, List.mem_cons_self, rfl⟩
    | error osError =>
      unfold accept at h
      split at h
      · rename_i hother
        obtain rfl := Option.some.inj h
        exact .inr ⟨osError, List.mem_cons_self, hother, rfl⟩
      · rcases ih h with ⟨fd, hmem, heq⟩ | ⟨osError', hmem, hother, heq⟩
        · exact .inl ⟨fd, List.mem_cons_of_mem _ hmem, heq⟩
        · exact .inr ⟨osError', List.mem_cons_of_mem _ hmem, hother, heq⟩

namespace World
variable {κ : Type*}

/-- The descriptor of each socket that is alive and not empty. -/
def held (objects : κ → Option Socket) (a : κ) : Option Fd := (objects a).bind Socket.owned

theorem held_none {objects : κ → Option Socket} {a : κ} (h : objects a = none) :
    held objects a = none := by
  rw [held, h, Option.bind_none]

theorem held_some {objects : κ → Option Socket} {a : κ} {sock : Socket} (h : objects a = some sock) :
    held objects a = sock.owned := by
  rw [held, h, Option.bind_some]

theorem Fresh.not_held {objects : κ → Option Socket} {log : List (Event Fd)} {fd : Fd}
    (h : Owned (held objects) log) (fresh : Fresh ⟨objects, log⟩ fd) (x : κ) :
    held objects x ≠ some fd := fun hx => fresh.2 (h.out hx)

variable [DecidableEq κ]

theorem held_update (objects : κ → Option Socket) (a : κ) (sock : Option Socket) :
    held (Function.update objects a sock) =
      Function.update (held objects) a (sock.bind Socket.owned) := by
  funext x
  by_cases hx : x = a
  · rw [hx, Function.update_self, held, Function.update_self]
  · rw [Function.update_of_ne hx, held, Function.update_of_ne hx, held]

section Steps
variable {objects : κ → Option Socket} {log : List (Event Fd)} {a b : κ} {fd : Fd}

/-- The destructor gives back what the socket holds. -/
theorem destroy_owned (h : Owned (held objects) log) {sock : Socket} (alive : objects a = some sock) :
    Owned (Function.update (held objects) a none) (log ++ sock.destroy) := by
  have hsock := held_some alive
  unfold Socket.owned at hsock
  unfold Socket.destroy
  split at hsock
  · rename_i hfd
    rw [if_pos hfd]
    exact h.release hsock
  · rename_i hfd
    rw [if_neg hfd, List.append_nil, ← hsock, Function.update_eq_self]
    exact h

/-- What was opened and closed again has changed nothing. -/
theorem closed_owned (h : Owned (held objects) log) (free : objects a = none)
    (fresh : Fresh ⟨objects, log⟩ fd) :
    Owned (held objects) (log ++ .acquired fd :: (⟨fd⟩ : Socket).destroy) := by
  have hfree := held_none free
  have hreleased := (h.acquire hfree (Fresh.not_held h fresh)).release (Function.update_self ..)
  have hclosed : (⟨fd⟩ : Socket).destroy = [.released fd] := if_pos fresh.1
  rw [Function.update_idem, ← hfree, Function.update_eq_self, List.append_assoc] at hreleased
  rw [hclosed]
  exact hreleased

theorem opened_owned (h : Owned (held objects) log) (free : objects a = none)
    (fresh : Fresh ⟨objects, log⟩ fd) :
    Owned (held (Function.update objects a (some ⟨fd⟩))) (log ++ [.acquired fd]) := by
  have howned : (some (⟨fd⟩ : Socket)).bind Socket.owned = some fd := if_pos fresh.1
  rw [held_update, howned]
  exact h.acquire (held_none free) (Fresh.not_held h fresh)

/-- A socket that comes to be empty, or not at all, holds as much as before. -/
theorem empty_owned (h : Owned (held objects) log) (free : objects a = none) {sock : Option Socket}
    (empty : sock.bind Socket.owned = none) :
    Owned (held (Function.update objects a sock)) log := by
  rw [held_update, empty, ← held_none free, Function.update_eq_self]
  exact h

theorem assign_owned (h : Owned (held objects) log) (other : a ≠ b) {sock that : Socket}
    (alive : objects a = some sock) (alive' : objects b = some that) :
    Owned (held (Function.update (Function.update objects b (some ⟨-1⟩)) a (some ⟨that.fd⟩)))
      (log ++ sock.destroy) := by
  have hfreed := (destroy_owned h alive).move (a := a) (b := b) (Function.update_self ..)
  rw [Function.update_of_ne (Ne.symm other), held_some alive', Function.update_comm other,
    Function.update_idem] at hfreed
  rw [held_update, held_update]
  exact hfreed

theorem construct_owned (h : Owned (held objects) log) (free : objects a = none) {that : Socket}
    (alive : objects b = some that) :
    Owned (held (Function.update (Function.update objects b (some ⟨-1⟩)) a (some ⟨that.fd⟩)))
      log := by
  have hmoved := h.move (b := b) (held_none free)
  rw [held_some alive] at hmoved
  rw [held_update, held_update]
  exact hmoved

end Steps

theorem step_owned {past : List (Op κ)} {w next : World κ} {op : Op κ}
    (h : Owned (held w.objects) w.log) (step : Step past w op next) :
    Owned (held next.objects) next.log := by
  obtain ⟨objects, log⟩ := w
  obtain ⟨kept, hnext⟩ := step
  cases op with
  | adopt a fd =>
    simp only [apply] at hnext
    cases free : objects a with
    | some sock => simp [free] at hnext
    | none =>
      rw [free] at hnext
      obtain rfl := Option.some.inj hnext
      by_cases hfd : fd = -1
      · subst hfd
        simpa using empty_owned h free rfl
      · rw [if_pos hfd]
        exact opened_owned h free (kept hfd)
  | moveConstruct a b =>
    simp only [apply] at hnext
    split at hnext
    · rename_i free alive
      obtain rfl := Option.some.inj hnext
      exact construct_owned h free alive
    · cases hnext
  | moveAssign a b =>
    simp only [apply] at hnext
    split at hnext
    · rename_i alive alive'
      split at hnext
      · obtain rfl := Option.some.inj hnext
        exact h
      · rename_i other
        obtain rfl := Option.some.inj hnext
        exact assign_owned h other alive alive'
    · cases hnext
  | destroy a =>
    obtain ⟨sock, alive, rfl⟩ := Option.map_eq_some_iff.mp hnext
    simp only [held_update, Option.bind_none]
    exact destroy_owned h alive
  | listen a port answers =>
    simp only [apply] at hnext
    cases free : objects a with
    | some sock => simp [free] at hnext
    | none =>
      rw [free] at hnext
      obtain rfl := Option.some.inj hnext
      rcases listenOn_cases port answers with ⟨osError, -, hresult⟩ |
          ⟨fd, hfd, ⟨error, osError, -, -, hresult⟩ | ⟨actual, -, -, -, hresult⟩⟩
      · rw [hresult]
        simpa using empty_owned h free rfl
      · rw [hresult]
        exact empty_owned (closed_owned h free (kept fd hfd)) free rfl
      · rw [hresult]
        exact opened_owned h free (kept fd hfd)
  | accept a listener answers =>
    simp only [apply] at hnext
    split at hnext
    · rename_i free _
      obtain ⟨result, haccept, rfl⟩ := Option.map_eq_some_iff.mp hnext
      rcases accept_cases haccept with ⟨fd, hmem, rfl⟩ | ⟨osError, -, -, rfl⟩
      · exact opened_owned h free (kept fd hmem)
      · simpa using empty_owned h free rfl
    · cases hnext

theorem run_owned {past : List (Op κ)} {w : World κ} (h : Runs past w) :
    Owned (held w.objects) w.log := by
  refine Run.invariant (fun _ w => Owned (held w.objects) w.log) ?_ ?_ h
  · rintro w rfl
    exact Owned.start
  · intro past w op next _ ih step
    exact step_owned ih step

/-- Over any program of sockets: nothing is closed that is not open, so nothing twice; an
open descriptor belongs to one socket that is alive; and what belongs to none of them has
been closed as often as it was opened, also where `listen_on` or `accept` failed. -/
theorem closed_once {past : List (Op κ)} {w : World κ} (h : Runs past w) :
    (∀ before fd after, w.log = before ++ .released fd :: after → Out before fd) ∧
    (∀ a sock, w.objects a = some sock → sock.valid = true → Out w.log sock.fd ∧
      ∀ b that, w.objects b = some that → that.fd = sock.fd → a = b) ∧
    (∀ fd, (∀ a sock, w.objects a = some sock → sock.fd ≠ fd) → Back w.log fd) := by
  have howned := run_owned h
  have hvalid : ∀ {a sock}, w.objects a = some sock → sock.valid = true →
      held w.objects a = some sock.fd := by
    intro a sock alive valid
    rw [held_some alive, Socket.owned, if_pos (by simpa [Socket.valid] using valid)]
  refine ⟨howned.fair, ?_, ?_⟩
  · intro a sock alive valid
    refine ⟨howned.out (hvalid alive valid), ?_⟩
    intro b that alive' same
    have valid' : that.valid = true := by rwa [Socket.valid, same]
    have hthat := hvalid alive' valid'
    rw [same] at hthat
    exact howned.sole (hvalid alive valid) hthat
  · intro fd hnone
    refine howned.back fun a ha => ?_
    obtain ⟨sock, alive, hsock⟩ := Option.bind_eq_some_iff.mp ha
    unfold Socket.owned at hsock
    split at hsock
    · exact hnone a sock alive (Option.some.inj hsock)
    · cases hsock

/-- A listener that could not bind, then one that could, and its end. -/
theorem closed_once_listener : ∃ w : World Nat,
    w.log = [.acquired 3, .released 3, .acquired 3, .released 3] ∧
    (∀ before fd after, w.log = before ++ .released fd :: after → Out before fd) ∧
    Back w.log 3 := by
  have fresh : ∀ (w : World Nat) (bind : Errno), ¬ Out w.log 3 →
      w.Kept (.listen 0 8080 ⟨.ok 3, bind, .ok 8080, 0⟩) := by
    intro w bind back fd hfd
    cases hfd
    exact ⟨by decide, back⟩
  have hstart : Runs [] ({} : World Nat) := .start rfl
  have hbusy := hstart.step ⟨fresh _ 98 (by decide), rfl⟩
  have hlistens := hbusy.step ⟨fresh _ 0 (by decide), rfl⟩
  have hends := hlistens.step (show Step _ _ (.destroy 0) _ from ⟨trivial, rfl⟩)
  obtain ⟨hfair, -, hback⟩ := closed_once hends
  refine ⟨_, rfl, hfair, hback 3 ?_⟩
  intro a sock alive
  by_cases ha : a = 0
  · subst ha
    cases alive
  · simp [Function.update_of_ne ha, listenOn] at alive

end World

end Carafe.Net
