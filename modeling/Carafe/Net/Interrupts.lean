import Carafe.Library.Retries
import Carafe.Net.Listener

/-!
# Interruptions

Four loops ask again where a signal came in between: the read, the two writes and the
accept. The first three of them go by the first answer that is none of those; a write
whose round was interrupted in time goes on as if that round had not been.
-/

namespace Carafe.Net
open Http Retries

namespace ReadResult

def outcome {size : Nat} : ReadResult size → Bool
  | .failed osError _ => osError ≠ eintr
  | .bytes _ _ _ | .ended => true

end ReadResult

/-- `Socket::read` over what `recv` answers; there is no result while it has not returned. -/
def read {size : Nat} : List (ReadResult size) → Option (ReadResult size)
  | [] => none
  | .bytes chunk arrived fits :: _ => some (.bytes chunk arrived fits)
  | .ended :: _ => some .ended
  | .failed osError error :: answers =>
    if osError ≠ eintr then some (.failed osError error) else read answers

theorem read_eq {size : Nat} (answers : List (ReadResult size)) :
    read answers = answers.find? ReadResult.outcome := by
  induction answers with
  | nil => rfl
  | cons answer answers ih =>
    cases answer with
    | bytes chunk arrived fits => rfl
    | ended => rfl
    | failed osError error =>
      by_cases hother : osError = eintr
      · simpa [read, ReadResult.outcome, hother] using ih
      · simp [read, ReadResult.outcome, hother]

def SendResult.outcome {size : Nat} : SendResult size → Bool
  | .failed osError _ => osError ≠ eintr
  | .sent _ _ _ => true

/-- `write_now`: one call that does not wait, made again while it is interrupted; how many
bytes it took, and what is returned. -/
def writeNow (bytes : Bytes) : List (SendResult bytes.length) → Nat × Option Errno
  | [] => (0, none)
  | .failed osError _ :: answers =>
    if osError ≠ eintr then (0, some osError) else writeNow bytes answers
  | .sent count _ _ :: _ => (count, some (if count = bytes.length then 0 else eagain))

/-- What one answer comes to. -/
def SendResult.now {size : Nat} : SendResult size → Nat × Option Errno
  | .failed osError _ => (0, some osError)
  | .sent count _ _ => (count, some (if count = size then 0 else eagain))

theorem writeNow_eq (bytes : Bytes) (answers : List (SendResult bytes.length)) :
    writeNow bytes answers = ((answers.find? SendResult.outcome).map SendResult.now).getD (0, none) := by
  induction answers with
  | nil => rfl
  | cons answer answers ih =>
    cases answer with
    | sent count some fits => rfl
    | failed osError error =>
      by_cases hother : osError = eintr
      · simpa [writeNow, SendResult.outcome, hother] using ih
      · simp [writeNow, SendResult.outcome, SendResult.now, hother]

/-- It succeeds when nothing is left, and only then. -/
theorem writeNow_taken {bytes : Bytes} (unsent : bytes ≠ [])
    (answers : List (SendResult bytes.length)) :
    (writeNow bytes answers).2 = some 0 ↔ bytes.drop (writeNow bytes answers).1 = [] := by
  rw [writeNow_eq]
  cases answers.find? SendResult.outcome with
  | none => simpa using unsent
  | some answer =>
    cases answer with
    | failed osError error => simpa [SendResult.now, error] using unsent
    | sent count some fits =>
      have hleft : bytes.length ≤ count ↔ count = bytes.length := by omega
      by_cases hcount : count = bytes.length
      · simp [SendResult.now, hcount]
      · simp [SendResult.now, hcount, hleft, eagain]

def acceptOutcome : Except Errno Fd → Bool
  | .error osError => osError ≠ eintr
  | .ok _ => true

def acceptNow : Except Errno Fd → AcceptResult × List (Ownership.Event Fd)
  | .error osError => ({ osError := osError }, [])
  | .ok clientFd => ({ client := some ⟨clientFd⟩ }, [.acquired clientFd])

theorem accept_eq (answers : List (Except Errno Fd)) :
    accept answers = (answers.find? acceptOutcome).map acceptNow := by
  induction answers with
  | nil => rfl
  | cons answer answers ih =>
    cases answer with
    | ok clientFd => rfl
    | error osError =>
      by_cases hother : osError = eintr
      · simpa [accept, acceptOutcome, hother] using ih
      · simp [accept, acceptOutcome, acceptNow, hother]

/-- None of the three sees the interruptions that are left out. -/
theorem calls_thinned :
    (∀ {size : Nat} {answers others : List (ReadResult size)},
      Thinned (fun answer => answer.outcome = false) answers others → read answers = read others) ∧
    (∀ {bytes : Bytes} {answers others : List (SendResult bytes.length)},
      Thinned (fun answer => answer.outcome = false) answers others →
        writeNow bytes answers = writeNow bytes others) ∧
    ∀ {answers others : List (Except Errno Fd)},
      Thinned (fun answer => acceptOutcome answer = false) answers others →
        accept answers = accept others := by
  refine ⟨fun thinned => ?_, fun thinned => ?_, fun thinned => ?_⟩
  · rw [read_eq, read_eq, thinned.find?]
  · rw [writeNow_eq, writeNow_eq, thinned.find?]
  · rw [accept_eq, accept_eq, thinned.find?]

/-- There was time, the timeout was set, and then a signal came. -/
structure Interrupted (deadline : TimePoint) (round : WriteRound) : Prop where
  inTime : (millisecondsUntil deadline round.now).isSome = true
  accepted : round.refused = 0
  signalled : ∀ size, ∃ error, round.send size = .failed eintr error

theorem writeFrom_interrupted {deadline : TimePoint} {round : WriteRound}
    (h : Interrupted deadline round) (bytes : Bytes) (rounds : List WriteRound) :
    (writeFrom deadline bytes (round :: rounds)).2 = (writeFrom deadline bytes rounds).2 ∧
      accepted (writeFrom deadline bytes (round :: rounds)).1 =
        accepted (writeFrom deadline bytes rounds).1 := by
  cases bytes with
  | nil => simp [writeFrom_nil]
  | cons ch bytes =>
    obtain ⟨left, hleft⟩ := Option.isSome_iff_exists.mp h.inTime
    obtain ⟨error, hsend⟩ := h.signalled (bytes.length + 1)
    simp [writeFrom, hleft, h.accepted, hsend, accepted, Attempt.accepted]

/-- Interrupted rounds change neither what is taken nor how the write ends. -/
theorem writeFrom_thinned {deadline : TimePoint} {rounds others : List WriteRound}
    (thinned : Thinned (Interrupted deadline) rounds others) (bytes : Bytes) :
    (writeFrom deadline bytes rounds).2 = (writeFrom deadline bytes others).2 ∧
      accepted (writeFrom deadline bytes rounds).1 = accepted (writeFrom deadline bytes others).1 := by
  induction thinned generalizing bytes with
  | nil => exact ⟨rfl, rfl⟩
  | @keep round rounds others _ ih =>
    by_cases hbytes : bytes = []
    · subst hbytes
      simp [writeFrom_nil]
    rcases writeFrom_round deadline hbytes round with
      ⟨tried, osError, -, -, -, hwrite⟩ | ⟨attempt, -, -, hwrite⟩
    · rw [hwrite, hwrite]
      exact ⟨rfl, rfl⟩
    · obtain ⟨houtcome, haccepted⟩ := ih (bytes.drop attempt.taken)
      rw [hwrite, hwrite]
      refine ⟨houtcome, ?_⟩
      simp only [accepted, List.flatMap_cons] at haccepted ⊢
      rw [haccepted]
  | leave interrupted _ ih =>
    obtain ⟨houtcome, haccepted⟩ := writeFrom_interrupted interrupted bytes _
    obtain ⟨houtcome', haccepted'⟩ := ih bytes
    exact ⟨houtcome.trans houtcome', haccepted.trans haccepted'⟩

end Carafe.Net
