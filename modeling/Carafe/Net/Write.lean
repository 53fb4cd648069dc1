import Carafe.Net.Socket
import Mathlib.Data.List.Infix

/-!
# Writing until all of it is sent

One `send` may take any number of the bytes it is offered, be interrupted or fail. The
loop offers what is left until nothing is, and each round is bounded by what is left of
the deadline that was fixed before the first. What the system answers is a script, one
entry for each round, and a script that is too short leaves the call waiting.
-/

namespace Carafe.Net
open Http

def eintr : Errno := 4

/-- `timeval`, which counts seconds and microseconds. -/
structure Timeval where
  sec : Int
  usec : Int
  deriving DecidableEq

/-- What `set_timeout` makes of a limit. -/
def timeval (limit : Milliseconds) : Timeval :=
  let whole := limit.tdiv 1000
  ⟨whole, (limit - whole * 1000) * 1000⟩

def Timeval.span (time : Timeval) : Int := time.sec * 1000000000 + time.usec * 1000

theorem timeval_span (limit : Milliseconds) : (timeval limit).span = limit.span := by
  have hsum : ∀ whole limit : Int,
      whole * 1000000000 + (limit - whole * 1000) * 1000 * 1000 = limit * 1000000 := by
    intro whole limit
    omega
  exact hsum (limit.tdiv 1000) limit

theorem millisecondsUntil_some {deadline now : TimePoint} {left : Milliseconds}
    (h : millisecondsUntil deadline now = some left) :
    0 < left.span ∧ left.span ≤ deadline - now := by
  have hleft : ∀ left : Int, ¬ left < 1 * 1000000 →
      0 < left / (1 * 1000000) * 1000000 ∧ left / (1 * 1000000) * 1000000 ≤ left := by
    intro left
    omega
  simp only [millisecondsUntil] at h
  split at h
  · cases h
  · rename_i hleast
    cases h
    exact hleft _ hleast

/-- What `send` makes of some bytes. -/
inductive SendResult (size : Nat) where
  | sent (count : Nat) (some : 0 < count) (fits : count ≤ size)
  | failed (osError : Errno) (error : osError ≠ 0)

/-- What the system answers in one round; `refused` is what `setsockopt` reports. -/
structure WriteRound where
  now : TimePoint
  refused : Errno := 0
  send : (size : Nat) → SendResult size

/-- One call of `send`. -/
structure Attempt where
  timeout : Timeval
  offered : Bytes
  taken : Nat

def Attempt.accepted (attempt : Attempt) : Bytes := attempt.offered.take attempt.taken

/-- The loop in `write`, with the calls of `send` and the error it returns. -/
def writeFrom (deadline : TimePoint) : Bytes → List WriteRound → List Attempt × Option Errno
  | [], _ => ([], some 0)
  | _ :: _, [] => ([], none)
  | ch :: bytes, round :: rounds =>
    match millisecondsUntil deadline round.now with
    | none => ([], some etimedout)
    | some left =>
      if round.refused ≠ 0 then ([], some round.refused)
      else match round.send (bytes.length + 1) with
        | .failed osError _ =>
          if osError ≠ eintr then ([⟨timeval left, ch :: bytes, 0⟩], some osError)
          else
            -- An interruption is not an outcome: the same bytes are offered again.
            let rest := writeFrom deadline (ch :: bytes) rounds
            (⟨timeval left, ch :: bytes, 0⟩ :: rest.1, rest.2)
        | .sent count _ _ =>
          let rest := writeFrom deadline ((ch :: bytes).drop count) rounds
          (⟨timeval left, ch :: bytes, count⟩ :: rest.1, rest.2)

/-- The deadline is fixed once, ahead of the loop. -/
def write (bytes : Bytes) (limit : Milliseconds) (start : TimePoint) (rounds : List WriteRound) :
    List Attempt × Option Errno :=
  writeFrom (start + limit.span) bytes rounds

/-- What the loop in `write` hands to `setsockopt`, one timeout in each round. -/
def sendTimeoutsFrom (deadline : TimePoint) : Bytes → List WriteRound → List Timeval
  | [], _ => []
  | _ :: _, [] => []
  | ch :: bytes, round :: rounds =>
    match millisecondsUntil deadline round.now with
    | none => []
    | some left =>
      timeval left ::
        if round.refused ≠ 0 then []
        else match round.send (bytes.length + 1) with
          | .failed osError _ =>
            if osError ≠ eintr then [] else sendTimeoutsFrom deadline (ch :: bytes) rounds
          | .sent count _ _ => sendTimeoutsFrom deadline ((ch :: bytes).drop count) rounds

def sendTimeouts (bytes : Bytes) (limit : Milliseconds) (start : TimePoint)
    (rounds : List WriteRound) : List Timeval :=
  sendTimeoutsFrom (start + limit.span) bytes rounds

/-- All that `send` took, call by call. -/
def accepted (attempts : List Attempt) : Bytes := attempts.flatMap Attempt.accepted

/-- The timeout of a call ends no later than the deadline, and it is a timeout. -/
def InTime (deadline : TimePoint) (round : WriteRound) (attempt : Attempt) : Prop :=
  0 < attempt.timeout.span ∧ attempt.timeout.span ≤ deadline - round.now

theorem timeval_inTime {deadline : TimePoint} {round : WriteRound} {left : Milliseconds}
    (h : millisecondsUntil deadline round.now = some left) (offered : Bytes) (taken : Nat) :
    InTime deadline round ⟨timeval left, offered, taken⟩ := by
  unfold InTime
  rw [timeval_span]
  exact millisecondsUntil_some h

theorem writeFrom_nil (deadline : TimePoint) (rounds : List WriteRound) :
    writeFrom deadline [] rounds = ([], some 0) := by
  cases rounds <;> rfl

theorem sendTimeoutsFrom_nil (deadline : TimePoint) (rounds : List WriteRound) :
    sendTimeoutsFrom deadline [] rounds = [] := by
  cases rounds <;> rfl

/-- All that one round can do. Where a millisecond or more is left, that is what it hands
over; then it ends the call, or leaves some bytes to the rounds to come. -/
theorem writeFrom_step (deadline : TimePoint) {bytes : Bytes} (unsent : bytes ≠ [])
    (round : WriteRound) :
    (millisecondsUntil deadline round.now = none ∧ ∀ rounds,
      writeFrom deadline bytes (round :: rounds) = ([], some etimedout) ∧
        sendTimeoutsFrom deadline bytes (round :: rounds) = []) ∨
    ∃ left, millisecondsUntil deadline round.now = some left ∧
      ((∃ tried osError, osError ≠ 0 ∧ (tried = [] ∨ tried = [⟨timeval left, bytes, 0⟩]) ∧
        ∀ rounds, writeFrom deadline bytes (round :: rounds) = (tried, some osError) ∧
          sendTimeoutsFrom deadline bytes (round :: rounds) = [timeval left]) ∨
      ∃ taken, ∀ rounds,
        writeFrom deadline bytes (round :: rounds) =
          (⟨timeval left, bytes, taken⟩ :: (writeFrom deadline (bytes.drop taken) rounds).1,
            (writeFrom deadline (bytes.drop taken) rounds).2) ∧
        sendTimeoutsFrom deadline bytes (round :: rounds) =
          timeval left :: sendTimeoutsFrom deadline (bytes.drop taken) rounds) := by
  obtain ⟨ch, bytes, rfl⟩ := List.exists_cons_of_ne_nil unsent
  cases hleft : millisecondsUntil deadline round.now with
  | none => exact Or.inl ⟨rfl, fun rounds => by simp [writeFrom, sendTimeoutsFrom, hleft]⟩
  | some left =>
    refine Or.inr ⟨left, rfl, ?_⟩
    by_cases hrefused : round.refused = 0
    · cases hsend : round.send (bytes.length + 1) with
      | failed osError error =>
        by_cases hinterrupted : osError = eintr
        · refine Or.inr ⟨0, fun rounds => ?_⟩
          simp [writeFrom, sendTimeoutsFrom, hleft, hrefused, hsend, hinterrupted]
        · refine Or.inl ⟨_, osError, error, Or.inr rfl, fun rounds => ?_⟩
          simp [writeFrom, sendTimeoutsFrom, hleft, hrefused, hsend, hinterrupted]
      | sent count some fits =>
        refine Or.inr ⟨count, fun rounds => ?_⟩
        simp [writeFrom, sendTimeoutsFrom, hleft, hrefused, hsend]
    · refine Or.inl ⟨_, round.refused, hrefused, Or.inl rfl, fun rounds => ?_⟩
      simp [writeFrom, sendTimeoutsFrom, hleft, hrefused]

/-- A round ends the call with an error before anything is taken, or some bytes are taken
and the others are left for the rounds to come. -/
theorem writeFrom_round (deadline : TimePoint) {bytes : Bytes} (unsent : bytes ≠ [])
    (round : WriteRound) :
    (∃ tried osError, osError ≠ 0 ∧ tried.length ≤ 1 ∧ (∀ attempt ∈ tried,
      attempt.offered = bytes ∧ attempt.taken = 0 ∧ InTime deadline round attempt) ∧
      ∀ rounds, writeFrom deadline bytes (round :: rounds) = (tried, some osError)) ∨
    (∃ attempt, attempt.offered = bytes ∧ InTime deadline round attempt ∧
      ∀ rounds, writeFrom deadline bytes (round :: rounds) =
        (attempt :: (writeFrom deadline (bytes.drop attempt.taken) rounds).1,
          (writeFrom deadline (bytes.drop attempt.taken) rounds).2)) := by
  rcases writeFrom_step deadline unsent round with
    ⟨-, hround⟩ | ⟨left, hleft, ⟨tried, osError, herror, htried, hround⟩ | ⟨taken, hround⟩⟩
  · exact Or.inl ⟨[], etimedout, by decide, Nat.zero_le 1, by simp, fun rounds => (hround rounds).1⟩
  · refine Or.inl ⟨tried, osError, herror, ?_, ?_, fun rounds => (hround rounds).1⟩
    · rcases htried with rfl | rfl
      · exact Nat.zero_le 1
      · exact Nat.le_refl 1
    · rcases htried with rfl | rfl
      · simp
      · intro attempt hattempt
        rw [List.mem_singleton.mp hattempt]
        exact ⟨rfl, rfl, timeval_inTime hleft _ _⟩
  · exact Or.inr ⟨⟨timeval left, bytes, taken⟩, rfl, timeval_inTime hleft _ _,
      fun rounds => (hround rounds).1⟩

theorem accepted_none {bytes : Bytes} {tried : List Attempt} {InTime : Attempt → Prop}
    (h : ∀ attempt ∈ tried, attempt.offered = bytes ∧ attempt.taken = 0 ∧ InTime attempt) :
    accepted tried = [] := by
  refine List.flatMap_eq_nil_iff.mpr ?_
  intro attempt hattempt
  rw [Attempt.accepted, (h attempt hattempt).2.1, List.take_zero]

/-- The calls after the first take from what it has left. -/
theorem accepted_cons {bytes rest : Bytes} {first : Attempt} {attempts : List Attempt}
    (offered : first.offered = bytes) (h : accepted attempts ++ rest = bytes.drop first.taken) :
    accepted (first :: attempts) ++ rest = bytes := by
  rw [accepted, List.flatMap_cons, Attempt.accepted, offered, List.append_assoc]
  exact (congrArg (bytes.take first.taken ++ ·) h).trans (List.take_append_drop _ _)

section Rounds
variable (deadline : TimePoint)

/-- What was taken and what is left are the bytes, and only success leaves nothing. -/
theorem writeFrom_conserves (bytes : Bytes) (rounds : List WriteRound) : ∃ left,
    accepted (writeFrom deadline bytes rounds).1 ++ left = bytes ∧
      ((writeFrom deadline bytes rounds).2 = some 0 ↔ left = []) := by
  induction rounds generalizing bytes with
  | nil =>
    cases bytes with
    | nil => exact ⟨[], rfl, by simp [writeFrom_nil]⟩
    | cons ch bytes => exact ⟨ch :: bytes, rfl, by simp [writeFrom]⟩
  | cons round rounds ih =>
    by_cases hbytes : bytes = []
    · subst hbytes
      exact ⟨[], by rw [writeFrom_nil]; rfl, by simp [writeFrom_nil]⟩
    rcases writeFrom_round deadline hbytes round with
      ⟨tried, osError, herror, -, htried, hwrite⟩ | ⟨attempt, hoffered, -, hwrite⟩
    · rw [hwrite, accepted_none htried]
      exact ⟨bytes, rfl, by simpa [hbytes] using herror⟩
    · obtain ⟨left, hleft, hresult⟩ := ih (bytes.drop attempt.taken)
      rw [hwrite]
      exact ⟨left, accepted_cons hoffered hleft, hresult⟩

/-- Every call offers exactly what the calls before it have not taken. -/
theorem writeFrom_resumes (bytes : Bytes) (rounds : List WriteRound) {front back : List Attempt}
    {attempt : Attempt} (h : (writeFrom deadline bytes rounds).1 = front ++ attempt :: back) :
    accepted front ++ attempt.offered = bytes := by
  induction rounds generalizing bytes front with
  | nil => cases bytes <;> simp [writeFrom] at h
  | cons round rounds ih =>
    by_cases hbytes : bytes = []
    · subst hbytes
      simp [writeFrom_nil] at h
    rcases writeFrom_round deadline hbytes round with
      ⟨tried, osError, -, hshort, htried, hwrite⟩ | ⟨first, hoffered, -, hwrite⟩
    · rw [hwrite] at h
      simp only at h
      subst h
      have hfront : front = [] := by
        rw [List.length_append, List.length_cons] at hshort
        exact List.length_eq_zero_iff.mp (by omega)
      subst hfront
      exact (htried attempt (by simp)).1
    · rw [hwrite] at h
      cases front with
      | nil =>
        rw [← (List.cons.inj h).1]
        exact hoffered
      | cons first' front =>
        obtain ⟨rfl, hrest⟩ := List.cons.inj h
        exact accepted_cons hoffered (ih (bytes.drop first.taken) hrest)

/-- The calls are made in the rounds of the script, one in each. -/
theorem writeFrom_inTime (bytes : Bytes) (rounds : List WriteRound) {i : Nat} {attempt : Attempt}
    (h : (writeFrom deadline bytes rounds).1[i]? = some attempt) :
    ∃ round, rounds[i]? = some round ∧ InTime deadline round attempt := by
  induction rounds generalizing bytes i with
  | nil => cases bytes <;> simp [writeFrom] at h
  | cons round rounds ih =>
    by_cases hbytes : bytes = []
    · subst hbytes
      simp [writeFrom_nil] at h
    rcases writeFrom_round deadline hbytes round with
      ⟨tried, osError, -, hshort, htried, hwrite⟩ | ⟨first, -, hfirst, hwrite⟩
    · rw [hwrite] at h
      have hi : i = 0 := by
        have hlt := (List.getElem?_eq_some_iff.mp h).1
        simp only at hlt
        omega
      subst hi
      exact ⟨round, rfl, (htried attempt (List.mem_of_getElem? h)).2.2⟩
    · rw [hwrite] at h
      cases i with
      | zero =>
        obtain rfl := Option.some.inj h
        exact ⟨round, rfl, hfirst⟩
      | succ i => exact ih (bytes.drop first.taken) h

/-- As long as the call has not returned, a round without a millisecond ends it. -/
theorem writeFrom_expires (bytes : Bytes) (before rest : List WriteRound) {round : WriteRound}
    (waiting : (writeFrom deadline bytes before).2 = none)
    (late : millisecondsUntil deadline round.now = none) :
    writeFrom deadline bytes (before ++ round :: rest) =
      ((writeFrom deadline bytes before).1, some etimedout) := by
  induction before generalizing bytes with
  | nil =>
    cases bytes with
    | nil => cases waiting
    | cons ch bytes => simp [writeFrom, late]
  | cons first before ih =>
    by_cases hbytes : bytes = []
    · subst hbytes
      rw [writeFrom_nil] at waiting
      cases waiting
    rcases writeFrom_round deadline hbytes first with
      ⟨tried, osError, -, -, -, hwrite⟩ | ⟨attempt, -, -, hwrite⟩
    · rw [hwrite] at waiting
      cases waiting
    · rw [hwrite] at waiting
      rw [List.cons_append, hwrite, hwrite, ih (bytes.drop attempt.taken) waiting]

end Rounds

/-- Every byte is sent once and in order, or the call fails; and all of it is over by the
one deadline. -/
theorem write_delivers (bytes : Bytes) (limit : Milliseconds) (start : TimePoint)
    (rounds : List WriteRound) :
    accepted (write bytes limit start rounds).1 <+: bytes ∧
    ((write bytes limit start rounds).2 = some 0 ↔
      accepted (write bytes limit start rounds).1 = bytes) ∧
    (∀ front attempt back, (write bytes limit start rounds).1 = front ++ attempt :: back →
      accepted front ++ attempt.offered = bytes) ∧
    (∀ (i : Nat) (attempt : Attempt), (write bytes limit start rounds).1[i]? = some attempt →
      ∃ round, rounds[i]? = some round ∧ InTime (start + limit.span) round attempt) ∧
    ∀ before round rest, rounds = before ++ round :: rest →
      (write bytes limit start before).2 = none →
      (start + limit.span) - round.now < Milliseconds.span 1 →
        write bytes limit start rounds = ((write bytes limit start before).1, some etimedout) := by
  obtain ⟨left, hleft, hresult⟩ := writeFrom_conserves (start + limit.span) bytes rounds
  refine ⟨⟨left, hleft⟩, ?_, fun _ _ _ => writeFrom_resumes _ bytes rounds,
    fun _ _ => writeFrom_inTime _ bytes rounds, ?_⟩
  · rw [write, hresult]
    constructor
    · rintro rfl
      simpa using hleft
    · intro hall
      rw [hall] at hleft
      simpa using hleft
  · rintro before round rest rfl waiting late
    exact writeFrom_expires _ bytes before rest waiting (if_pos late)

end Carafe.Net
