import Carafe.Server.App
import Carafe.Server.Shutdown

/-!
# Descriptors of a running server

`App::run` opens one descriptor to listen on and one for each connection, on one thread, and
the connections are closed on whatever thread has them last. The system may hand out the
descriptor of a connection again as soon as it is closed.
-/

namespace Carafe.Server
open Http Net History Ownership

variable {κ : Type}

namespace Event
variable (fds : κ → Fd)

/-- What the event opens and closes, where `accept4` calls the connections so. -/
def descriptors : Event κ → List (Ownership.Event Fd)
  | called conn => [.acquired (fds conn)]
  | closed (some conn) | dropped (some conn) => (⟨fds conn⟩ : Net.Socket).destroy
  | _ => []

/-- A descriptor that is handed out is one, and is not open. -/
def Fresh (log : List (Ownership.Event Fd)) : Event κ → Prop
  | called conn => fds conn ≠ -1 ∧ ¬ Out log (fds conn)
  | _ => True

instance (log : List (Ownership.Event Fd)) : (event : Event κ) → Decidable (event.Fresh fds log)
  | called _ => inferInstanceAs (Decidable (_ ∧ _))
  | queued .. | refused _ | wrote .. | pickedUp .. | overdue _ | started _ | ended _ | closed _
  | left | stopped | dropped _ | elapsed _ => isTrue trivial

end Event

/-- The system keeps to that. -/
def Handed (fds : κ → Fd) : List (Ownership.Event Fd) → List (Event κ) → Prop
  | _, [] => True
  | log, event :: past => event.Fresh fds log ∧ Handed fds (log ++ event.descriptors fds) past

instance Handed.decidable (fds : κ → Fd) :
    (log : List (Ownership.Event Fd)) → (past : List (Event κ)) → Decidable (Handed fds log past)
  | _, [] => isTrue trivial
  | log, event :: past =>
    have := Handed.decidable fds (log ++ event.descriptors fds) past
    inferInstanceAs (Decidable (_ ∧ _))

theorem handed_concat {fds : κ → Fd} {log : List (Ownership.Event Fd)} {past : List (Event κ)}
    {event : Event κ} : Handed fds log (past ++ [event]) ↔
      Handed fds log past ∧ event.Fresh fds (log ++ past.flatMap (Event.descriptors fds)) := by
  induction past generalizing log with
  | nil => simp [Handed]
  | cons first past ih =>
    simp only [List.cons_append, Handed, ih, List.flatMap_cons, List.append_assoc, and_assoc]

theorem Handed.isFd {fds : κ → Fd} {log : List (Ownership.Event Fd)} {past : List (Event κ)}
    (h : Handed fds log past) {conn : κ} (called : .called conn ∈ past) : fds conn ≠ -1 := by
  induction past generalizing log with
  | nil => cases called
  | cons event past ih =>
    rcases List.mem_cons.mp called with rfl | hmem
    · exact h.1.1
    · exact ih h.2 hmem

section Owners
variable [DecidableEq κ] {limits : PoolLimits} {past : List (Event κ)} {state : State κ}
  {fds : κ → Fd} {log : List (Ownership.Event Fd)} {listens : Fd}

/-- Accepted, and not closed. -/
def heldBy (past : List (Event κ)) (conn : κ) : Bool :=
  past.any (Event.calls conn) && !past.any fun event => event.finished = some (some conn)

/-- The descriptors of the connections, and that of the listener. -/
def holding (fds : κ → Fd) (listens : Fd) (past : List (Event κ)) : Option κ → Option Fd
  | none => some listens
  | some conn => if heldBy past conn = true then some (fds conn) else none

theorem PoolRun.uncalled (h : PoolRun limits past state) {conn : κ} (new : .called conn ∉ past) :
    past.any (Event.calls conn) = false ∧
      (past.any fun event => event.finished = some (some conn)) = false := by
  constructor
  · rw [List.any_eq_false]
    intro event hmem hcalls
    cases event with
    | called other =>
      obtain rfl : other = conn := by simpa [Event.calls] using hcalls
      exact new hmem
    | _ => cases hcalls
  · rw [List.any_eq_false]
    intro event hmem hfinished
    exact new ((h.finished_once conn).2 (List.mem_filterMap.mpr ⟨event, hmem, by simpa using hfinished⟩))

/-- An event that closes a connection closes one that is open. -/
theorem PoolRun.finishes {event : Event κ} (h : PoolRun limits (past ++ [event]) state) {conn : κ}
    (finished : event.finished = some (some conn)) :
    heldBy past conn = true ∧ .called conn ∈ past := by
  obtain ⟨honce, hcalled⟩ := h.finished_once conn
  have hconcat : (past ++ [event]).filterMap Event.finished =
      past.filterMap Event.finished ++ [some conn] := by
    rw [filterMap_concat, finished]
    rfl
  rw [hconcat] at honce hcalled
  have hpast : .called conn ∈ past := by
    rcases List.mem_append.mp (hcalled (by simp)) with hold | hnew
    · exact hold
    · rw [← List.mem_singleton.mp hnew] at finished
      cases finished
  refine ⟨?_, hpast⟩
  have hnone : some conn ∉ past.filterMap Event.finished := by
    intro hmem
    have hpos := List.count_pos_iff.mpr hmem
    rw [List.count_append, List.count_singleton_self] at honce
    omega
  simp only [heldBy, Bool.and_eq_true, List.any_eq_true, Bool.not_eq_true', List.any_eq_false]
  refine ⟨⟨_, hpast, by simp [Event.calls]⟩, fun other hmem hother => ?_⟩
  exact hnone (List.mem_filterMap.mpr ⟨other, hmem, by simpa using hother⟩)

theorem holding_called (conn : κ)
    (unfinished : (past.any fun event => event.finished = some (some conn)) = false) :
    holding fds listens (past ++ [.called conn]) =
      Function.update (holding fds listens past) (some conn) (some (fds conn)) := by
  have hnone : (Event.called conn).finished = none := rfl
  funext holder
  cases holder with
  | none => rfl
  | some other =>
    by_cases hsame : other = conn
    · subst hsame
      simp [holding, heldBy, unfinished, Event.calls, hnone]
    · rw [Function.update_of_ne (by simpa using hsame)]
      simp [holding, heldBy, Event.calls, hnone, Ne.symm hsame]

theorem holding_finished {event : Event κ} {conn : κ}
    (finished : event.finished = some (some conn)) :
    holding fds listens (past ++ [event]) =
      Function.update (holding fds listens past) (some conn) none := by
  have hcalls : ∀ other, event.calls other = false := by
    intro other
    cases event <;> first | rfl | cases finished
  funext holder
  cases holder with
  | none => rfl
  | some other =>
    by_cases hsame : other = conn
    · subst hsame
      simp [holding, heldBy, finished]
    · rw [Function.update_of_ne (by simpa using hsame)]
      simp [holding, heldBy, finished, hcalls, Ne.symm hsame]

theorem holding_still {event : Event κ} (called : ∀ conn, event.calls conn = false)
    (finished : ∀ conn, event.finished ≠ some (some conn)) :
    holding fds listens (past ++ [event]) = holding fds listens past := by
  funext holder
  cases holder with
  | none => rfl
  | some conn => simp [holding, heldBy, called, finished]

/-- Each open connection has a descriptor of its own, and so has the listener. -/
theorem PoolRun.owned (h : PoolRun limits past state)
    (start : Owned (holding fds listens []) log) (handed : Handed fds log past) :
    Owned (holding fds listens past) (log ++ past.flatMap (Event.descriptors fds)) := by
  induction h with
  | start => simpa using start
  | @step past state next event h hstep ih =>
    obtain ⟨hbefore, hfresh⟩ := handed_concat.mp handed
    have howned := ih hbefore
    have hrun : PoolRun limits (past ++ [event]) next := h.step hstep
    have hconcat : log ++ (past ++ [event]).flatMap (Event.descriptors fds) =
        (log ++ past.flatMap (Event.descriptors fds)) ++ event.descriptors fds := by
      simp [List.append_assoc]
    rw [hconcat]
    have hcloses : ∀ conn, event.finished = some (some conn) →
        event.descriptors fds = (⟨fds conn⟩ : Net.Socket).destroy →
        Owned (holding fds listens (past ++ [event]))
          ((log ++ past.flatMap (Event.descriptors fds)) ++ event.descriptors fds) := by
      intro conn hfinished hdestroy
      obtain ⟨hheld, hcalled⟩ := hrun.finishes hfinished
      have hreleased : (⟨fds conn⟩ : Net.Socket).destroy = [.released (fds conn)] :=
        if_pos (hbefore.isFd hcalled)
      rw [holding_finished hfinished, hdestroy, hreleased]
      exact howned.release (if_pos hheld)
    cases event with
    | called conn =>
      cases hstep with
      | call _ accepted =>
        obtain ⟨huncalled, hunfinished⟩ := PoolRun.uncalled h accepted
        rw [holding_called conn hunfinished]
        refine howned.acquire ?_ fun holder hholder => hfresh.2 (howned.out hholder)
        simp [holding, heldBy, huncalled]
    | closed client | dropped client =>
      cases client with
      | some conn => exact hcloses conn rfl rfl
      | none =>
        rw [holding_still (by simp [Event.calls]) (by simp [Event.finished])]
        simpa [Event.descriptors] using howned
    | _ =>
      rw [holding_still (by simp [Event.calls]) (by simp [Event.finished])]
      simpa [Event.descriptors] using howned

end Owners

/-- The error, and the descriptors opened and closed on the way to it. `past` is what the
threads do in `serve_forever`. -/
def App.run (port : UInt16) (limits : PoolLimits) (deadlines : Deadlines)
    (answers : ListenAnswers) (fds : κ → Fd) (past : List (Act κ)) :
    RunError × List (Ownership.Event Fd) :=
  if validPoolLimits limits = false then (.invalidLimits, [])
  else if validDeadlines deadlines = false then (.invalidDeadlines, [])
  else
    let listenResult := listenOn port answers
    match listenResult.1.listener with
    | none => (.bindFailed, listenResult.2)
    | some listener =>
      (.acceptFailed, listenResult.2 ++ (past.filterMap Act.shown).flatMap (Event.descriptors fds) ++
        listener.socket.destroy)

section Run
variable [DecidableEq κ] {limits : PoolLimits} {past : List (Act κ)} {process : Process κ}

theorem owned_listens (fds : κ → Fd) (listens : Fd) :
    Owned (holding fds listens []) [.acquired listens] := by
  have hstart := (@Owned.start (Option κ) Fd _).acquire (a := none) (r := listens) rfl nofun
  rw [List.nil_append] at hstart
  have hsame : holding fds listens [] = Function.update (fun _ => none) none (some listens) := by
    funext holder
    cases holder <;> rfl
  rwa [hsame]

theorem ProcessRun.held_none (h : ProcessRun limits past process)
    (returned : process.acceptor = .returned) (conn : κ) :
    heldBy (past.filterMap Act.shown) conn = false := by
  by_contra hheld
  simp only [heldBy, Bool.not_eq_false, Bool.and_eq_true, List.any_eq_true, Bool.not_eq_true',
    List.any_eq_false] at hheld
  obtain ⟨⟨event, hmem, hcalls⟩, hopen⟩ := hheld
  cases event with
  | called other =>
    obtain rfl : other = conn := by simpa [Event.calls] using hcalls
    obtain ⟨act, hact, hshown⟩ := List.mem_filterMap.mp hmem
    cases act with
    | pool event =>
      cases hshown
      have hone := (h.closes_returned returned).2.2 other hact
      rw [← ProcessRun.finished_shown] at hone
      have hfinished := List.count_pos_iff.mp (hone ▸ Nat.one_pos)
      obtain ⟨closing, hclosing, hcloses⟩ := List.mem_filterMap.mp hfinished
      exact hopen closing hclosing (decide_eq_true hcloses)
    | _ => cases hshown
  | _ => cases hcalls

/-- However `run` ends, every descriptor is closed as often as it was opened, and only while it
was open, on whatever threads and however often the system hands it out; and where it is
not refused at once, it ends with an error of `accept` that is not to be retried. -/
theorem App.run_closes (h : ProcessRun limits past process)
    (returned : process.acceptor = .returned) (port : UInt16) (deadlines : Deadlines)
    {answers : ListenAnswers} (listens : ∀ fd, answers.socket = .ok fd → fd ≠ -1) {fds : κ → Fd}
    (handed : Handed fds (listenOn port answers).2 (past.filterMap Act.shown)) :
    Fair (App.run port limits deadlines answers fds past).2 ∧
      (∀ fd, Back (App.run port limits deadlines answers fds past).2 fd) ∧
      ((App.run port limits deadlines answers fds past).1 = .acceptFailed →
        past.any (Act.failsWith .never) = true) := by
  have hnone : Fair ([] : List (Ownership.Event Fd)) ∧
      ∀ fd, Back ([] : List (Ownership.Event Fd)) fd := ⟨(@Owned.start κ Fd _).fair, fun _ => rfl⟩
  unfold App.run
  split
  · exact ⟨hnone.1, hnone.2, nofun⟩
  split
  · exact ⟨hnone.1, hnone.2, nofun⟩
  rcases listenOn_cases port answers with ⟨osError, -, hresult⟩ | ⟨fd, hsocket, hlisten⟩
  · rw [hresult]
    exact ⟨hnone.1, hnone.2, nofun⟩
  · have hclosed : (⟨fd⟩ : Net.Socket).destroy = [.released fd] := if_pos (listens fd hsocket)
    have hstart := owned_listens fds fd
    rcases hlisten with ⟨error, osError, -, -, hresult⟩ | ⟨actual, -, -, -, hresult⟩
    · have hback := hstart.release (a := none) rfl
      rw [hresult, hclosed]
      refine ⟨hback.fair, fun other => hback.back fun holder => ?_, nofun⟩
      cases holder <;> simp [holding, heldBy]
    · rw [hresult] at handed ⊢
      have hback := (PoolRun.owned h.pool hstart handed).release (a := none) rfl
      dsimp only
      rw [hclosed]
      refine ⟨hback.fair, fun other => hback.back fun holder => ?_, fun _ => ?_⟩
      · cases holder with
        | none => simp
        | some conn => simp [holding, h.held_none returned conn]
      · rw [← h.ends, returned]
        rfl

end Run

/-- Two connections with the same descriptor, one behind the other: the first one is served,
and the second one is still in the queue when the listener fails. -/
theorem App.run_closes_again : ∃ past, ∃ process : Process Nat,
    ProcessRun {} past process ∧ past.countP Act.accepts = 2 ∧
      ∀ fd, Back (App.run 80 {} {} { socket := .ok 3, getsockname := .ok 80 } (fun _ => 4) past).2
        fd := by
  have hstart : ProcessRun {} ([] : List (Act Nat)) _ := .start (.constructing 1 5 (by decide))
  have hspawned := hstart.step (@Process.Step.spawned _ _ _ _ [] [] rfl nofun rfl)
  have hconstructed := hspawned.step (.constructed rfl nofun)
  have hqueued := ProcessRun.queues hconstructed rfl rfl rfl (by decide) nofun 0 (by simp)
  have hserved := @ProcessRun.serves _ _ _ _ [] [] _ _ hqueued rfl rfl rfl rfl (by decide)
  have hended := hserved.step (@Process.Step.works _ _ _ _ _ _ [] [] _ _ rfl .ended)
  have hclosed := hended.step (@Process.Step.works _ _ _ _ _ _ [] [] _ _ rfl .closed)
  have hagain := ProcessRun.queues hclosed rfl rfl rfl (by decide) nofun 1 (by simp)
  have hgone := hagain.step
    (.accepts (@Acceptor.Step.gaveUp _ _ _ _ _ 9 (by decide) (by decide)))
  have hstopping := hgone.step (.accepts (.stopLocked rfl))
  have hstopped := hstopping.step (.accepts .stopped)
  have hreleased := hstopped.step (.accepts .stopUnlocked)
  have hwarned := hreleased.step (.notifiedAll rfl)
  have hlocked := hwarned.step (@Process.Step.works _ _ _ _ _ _ [] [] _ _ rfl (.locked rfl))
  have htested := hlocked.step
    (@Process.Step.works _ _ _ _ _ _ [] [] _ _ rfl (.tested (.inl rfl)))
  have hleaves := htested.step (@Process.Step.works _ _ _ _ _ _ [] [] _ _ rfl (.leaves rfl))
  have hleft := hleaves.step (@Process.Step.works _ _ _ _ _ _ [] [] _ _ rfl .left)
  have hjoined := hleft.step (.joined rfl rfl)
  have hall := hjoined.step (.allJoined rfl rfl)
  have hdropped := hall.step (@Process.Step.dropped _ _ _ _ [] [] _ rfl rfl)
  have hreturned := hdropped.step (.returned rfl rfl)
  exact ⟨_, _, hreturned, by decide, (App.run_closes hreturned rfl 80 {} (by simp) (by decide)).2.1⟩

end Carafe.Server
