import Carafe.Net.Write
import Carafe.Server.Limits

/-!
# Timeouts that are timeouts

To `setsockopt` a zero `timeval` is no deadline at all. Two truncations lead there, from
what is left on the clock to milliseconds and from those to seconds and microseconds, and
neither arrives at zero: what is less than a millisecond is not truncated but expired.
-/

namespace Carafe.Net
open Http

/-- `set_timeout` in 64-bit counts. -/
def timevalChecked (limit : Milliseconds) : Option Timeval := do
  let whole ← counted (limit.tdiv 1000)
  let back ← counted (whole * 1000)
  let rest ← counted (limit - back)
  let usec ← counted (rest * 1000)
  return ⟨whole, usec⟩

/-- A `timeval` in range that stands for exactly this limit, and not for no deadline. -/
structure Timeval.Means (time : Timeval) (limit : Milliseconds) : Prop where
  sec : 0 ≤ time.sec
  usec : 0 ≤ time.usec ∧ time.usec < 1000000
  positive : 0 < time.sec ∨ 0 < time.usec
  exact : time.sec * 1000000 + time.usec = limit * 1000

/-- The seconds of a limit are truncated, so less than one more is left of it. -/
theorem seconds_cut {limit : Int} (h : 0 < limit) :
    0 ≤ limit.tdiv 1000 ∧ 0 ≤ limit - limit.tdiv 1000 * 1000 ∧
      limit - limit.tdiv 1000 * 1000 < 1000 := by
  rw [Int.tdiv_eq_ediv_of_nonneg (Int.le_of_lt h)]
  omega

theorem timeval_means {limit : Milliseconds} (h : 0 < limit) : (timeval limit).Means limit := by
  have hparts : ∀ limit whole : Int, 0 < limit → 0 ≤ whole → 0 ≤ limit - whole * 1000 →
      limit - whole * 1000 < 1000 →
        (0 ≤ (limit - whole * 1000) * 1000 ∧ (limit - whole * 1000) * 1000 < 1000000) ∧
          (0 < whole ∨ 0 < (limit - whole * 1000) * 1000) ∧
            whole * 1000000 + (limit - whole * 1000) * 1000 = limit * 1000 := by
    intro limit whole
    omega
  obtain ⟨hwhole, hrest, hless⟩ := seconds_cut h
  obtain ⟨husec, hpositive, hexact⟩ := hparts limit _ h hwhole hrest hless
  exact ⟨hwhole, husec, hpositive, hexact⟩

/-- No limit of 64 bits is too large to convert. -/
theorem timevalChecked_eq {limit : Milliseconds} (h : 0 < limit) (counts : Counts limit) :
    timevalChecked limit = some (timeval limit) := by
  have hfits : ∀ limit whole : Int, 0 < limit → Counts limit → 0 ≤ whole →
      0 ≤ limit - whole * 1000 → limit - whole * 1000 < 1000 →
        Counts whole ∧ Counts (whole * 1000) ∧ Counts (limit - whole * 1000) ∧
          Counts ((limit - whole * 1000) * 1000) := by
    intro limit whole
    simp only [Counts, minCount, maxCount]
    omega
  obtain ⟨hwhole, hrest, hless⟩ := seconds_cut h
  obtain ⟨hsec, hback, hleft, husec⟩ := hfits limit _ h counts hwhole hrest hless
  simp only [timevalChecked, counted_of hsec, counted_of hback, counted_of hleft,
    counted_of husec, Option.bind_eq_bind, Option.bind_some]
  rfl

/-- What is left in milliseconds is one at least, and not more than is left. -/
theorem millisecondsUntil_left {deadline now : TimePoint} {left : Milliseconds}
    (h : millisecondsUntil deadline now = some left) :
    0 < left ∧ (timeval left).span ≤ deadline - now := by
  obtain ⟨hpositive, hle⟩ := millisecondsUntil_some h
  rw [timeval_span]
  have hmul : ∀ left : Int, 0 < left * 1000000 → 0 < left := by
    intro left
    omega
  exact ⟨hmul left hpositive, hle⟩

/-- Both truncations in 64 bits: where `milliseconds_until` does not overflow, neither does
the conversion of its result. -/
theorem remaining_timeval {deadline now : TimePoint} {left : Milliseconds}
    (h : remaining deadline now = some (some left)) :
    millisecondsUntil deadline now = some left ∧ timevalChecked left = some (timeval left) := by
  obtain ⟨counts, heq⟩ := remaining_eq_some_iff.mp h
  obtain ⟨hpositive, hle⟩ := millisecondsUntil_left heq.symm
  rw [timeval_span] at hle
  have hcounts : ∀ left passed : Int, 0 < left → left * 1000000 ≤ passed → Counts passed →
      Counts left := by
    intro left passed
    simp only [Counts, minCount, maxCount]
    omega
  exact ⟨heq.symm, timevalChecked_eq hpositive (hcounts left _ hpositive hle counts)⟩

section Rounds
variable (deadline : TimePoint)

/-- The timeouts are those of the rounds, one after the other. -/
theorem sendTimeoutsFrom_rounds (bytes : Bytes) (rounds : List WriteRound) :
    (sendTimeoutsFrom deadline bytes rounds).map some <+:
      rounds.map fun round => (millisecondsUntil deadline round.now).map timeval := by
  induction rounds generalizing bytes with
  | nil =>
    cases bytes with
    | nil => exact List.nil_prefix
    | cons ch bytes => exact List.nil_prefix
  | cons round rounds ih =>
    by_cases hbytes : bytes = []
    · rw [hbytes, sendTimeoutsFrom_nil]
      exact List.nil_prefix
    rcases writeFrom_step deadline hbytes round with
      ⟨-, hround⟩ | ⟨left, hleft, ⟨_, _, -, -, hround⟩ | ⟨taken, hround⟩⟩
    · rw [(hround rounds).2]
      exact List.nil_prefix
    · rw [(hround rounds).2, List.map_cons, List.map_cons, hleft]
      exact List.cons_prefix_cons.mpr ⟨rfl, List.nil_prefix⟩
    · rw [(hround rounds).2, List.map_cons, List.map_cons, hleft]
      exact List.cons_prefix_cons.mpr ⟨rfl, ih (bytes.drop taken)⟩

/-- Every `send` runs under the timeout that was handed over in its round. -/
theorem sendTimeoutsFrom_attempts (bytes : Bytes) (rounds : List WriteRound) :
    (writeFrom deadline bytes rounds).1.map Attempt.timeout <+:
      sendTimeoutsFrom deadline bytes rounds := by
  induction rounds generalizing bytes with
  | nil =>
    cases bytes with
    | nil => exact List.nil_prefix
    | cons ch bytes => exact List.nil_prefix
  | cons round rounds ih =>
    by_cases hbytes : bytes = []
    · rw [hbytes, writeFrom_nil]
      exact List.nil_prefix
    rcases writeFrom_step deadline hbytes round with
      ⟨-, hround⟩ | ⟨left, -, ⟨_, _, -, rfl | rfl, hround⟩ | ⟨taken, hround⟩⟩
    · rw [(hround rounds).1]
      exact List.nil_prefix
    · rw [(hround rounds).1]
      exact List.nil_prefix
    · rw [(hround rounds).1, (hround rounds).2]
      exact List.prefix_rfl
    · rw [(hround rounds).1, (hround rounds).2, List.map_cons]
      exact List.cons_prefix_cons.mpr ⟨rfl, ih (bytes.drop taken)⟩

/-- Where less than a millisecond is left, nothing is handed over any more. -/
theorem sendTimeoutsFrom_expires (bytes : Bytes) (before rest : List WriteRound)
    {round : WriteRound} (waiting : (writeFrom deadline bytes before).2 = none)
    (late : millisecondsUntil deadline round.now = none) :
    sendTimeoutsFrom deadline bytes (before ++ round :: rest) =
      sendTimeoutsFrom deadline bytes before := by
  induction before generalizing bytes with
  | nil =>
    cases bytes with
    | nil => cases waiting
    | cons ch bytes => simp [sendTimeoutsFrom, late]
  | cons first before ih =>
    by_cases hbytes : bytes = []
    · subst hbytes
      rw [writeFrom_nil] at waiting
      cases waiting
    rcases writeFrom_step deadline hbytes first with
      ⟨-, hround⟩ | ⟨_, -, ⟨_, _, -, -, hround⟩ | ⟨taken, hround⟩⟩
    · rw [(hround before).1] at waiting
      cases waiting
    · rw [(hround before).1] at waiting
      cases waiting
    · rw [(hround before).1] at waiting
      rw [List.cons_append, (hround _).2, (hround _).2, ih (bytes.drop taken) waiting]

/-- Each timeout is exactly what its round has left in milliseconds, and within the deadline. -/
theorem sendTimeoutsFrom_means (bytes : Bytes) (rounds : List WriteRound) {i : Nat}
    {time : Timeval} (h : (sendTimeoutsFrom deadline bytes rounds)[i]? = some time) :
    ∃ round left, rounds[i]? = some round ∧ millisecondsUntil deadline round.now = some left ∧
      time.Means left ∧ time.span ≤ deadline - round.now := by
  have hsome : ((sendTimeoutsFrom deadline bytes rounds).map some)[i]? = some (some time) := by
    rw [List.getElem?_map, h, Option.map_some]
  obtain ⟨hi, hi'⟩ := List.getElem?_eq_some_iff.mp hsome
  have hround : (rounds.map fun round => (millisecondsUntil deadline round.now).map timeval)[i]? =
      some (some time) := by
    rw [← hi']
    exact List.prefix_iff_getElem?.mp (sendTimeoutsFrom_rounds deadline bytes rounds) i hi
  rw [List.getElem?_map, Option.map_eq_some_iff] at hround
  obtain ⟨round, hget, hround⟩ := hround
  obtain ⟨left, hleft, rfl⟩ := Option.map_eq_some_iff.mp hround
  obtain ⟨hpositive, hle⟩ := millisecondsUntil_left hleft
  exact ⟨round, left, hget, hleft, timeval_means hpositive, hle⟩

end Rounds

end Carafe.Net

namespace Carafe.Server
open Http Net

namespace Connection
variable (conn : Connection)

/-- What `apply_read_deadline` hands to `setsockopt`, unless it reports a timeout itself. -/
def receiveTimeout (now : TimePoint) : Option Timeval := (conn.readLimit now).map timeval

theorem applyReadDeadline_eq (round : Round) : conn.applyReadDeadline round =
    (conn.receiveTimeout round.before).elim etimedout fun _ => round.timeoutSet := by
  unfold applyReadDeadline receiveTimeout
  cases conn.readLimit round.before <;> rfl

/-- The limit of a read is positive: the idle limit is, and so is what is left of a request. -/
theorem readLimit_pos (valid : validDeadlines conn.deadlines = true) {now : TimePoint}
    {limit : Milliseconds} (h : conn.readLimit now = some limit) : 0 < limit := by
  simp only [validDeadlines, decide_eq_true_eq] at valid
  unfold readLimit at h
  split at h
  · exact (millisecondsUntil_left h).1
  · rw [← Option.some.inj h]
    exact valid.1

theorem receiveTimeout_means (valid : validDeadlines conn.deadlines = true) {now : TimePoint}
    {time : Timeval} (h : conn.receiveTimeout now = some time) :
    ∃ limit, conn.readLimit now = some limit ∧ time.Means limit := by
  obtain ⟨limit, hlimit, rfl⟩ := Option.map_eq_some_iff.mp h
  exact ⟨limit, hlimit, timeval_means (conn.readLimit_pos valid hlimit)⟩

theorem receiveTimeout_inTime (running : conn.requestInProgress = true) {now : TimePoint}
    {time : Timeval} (h : conn.receiveTimeout now = some time) :
    time.span ≤ conn.requestDeadline - now := by
  obtain ⟨limit, hlimit, rfl⟩ := Option.map_eq_some_iff.mp h
  rw [readLimit, if_pos running] at hlimit
  exact (millisecondsUntil_left hlimit).2

theorem receiveTimeout_expires (running : conn.requestInProgress = true) {now : TimePoint}
    (late : conn.requestDeadline - now < Milliseconds.span 1) : conn.receiveTimeout now = none := by
  have hnone : millisecondsUntil conn.requestDeadline now = none := if_pos late
  rw [receiveTimeout, readLimit, if_pos running, hnone]
  rfl

/-- With limits that `App::run` accepts, every timeout that a read or a write hands to the
socket is one: in range, exactly the limit chosen, and no later than the deadline that is
running. Where less than a millisecond is left the call reports that instead. None of the
conversions leaves 64 bits. -/
theorem timeouts_hold (valid : validDeadlines conn.deadlines = true) :
    (∀ now time, conn.receiveTimeout now = some time →
      (∃ limit, conn.readLimit now = some limit ∧ time.Means limit ∧
        (conn.requestInProgress = false → limit = conn.deadlines.idle)) ∧
      (conn.requestInProgress = true → time.span ≤ conn.requestDeadline - now)) ∧
    (∀ round : Round, conn.requestInProgress = true →
      conn.requestDeadline - round.before < Milliseconds.span 1 →
        conn.receiveTimeout round.before = none ∧ conn.applyReadDeadline round = etimedout) ∧
    (∀ (bytes : Bytes) (limit : Milliseconds) (start : TimePoint) (rounds : List WriteRound),
      (write bytes limit start rounds).1.map Attempt.timeout <+:
        sendTimeouts bytes limit start rounds ∧
      (∀ (i : Nat) (time : Timeval), (sendTimeouts bytes limit start rounds)[i]? = some time →
        ∃ round left, rounds[i]? = some round ∧
          millisecondsUntil (start + limit.span) round.now = some left ∧
          time.Means left ∧ time.span ≤ start + limit.span - round.now) ∧
      ∀ before round rest, rounds = before ++ round :: rest →
        (write bytes limit start before).2 = none →
        start + limit.span - round.now < Milliseconds.span 1 →
          write bytes limit start rounds = ((write bytes limit start before).1, some etimedout) ∧
          sendTimeouts bytes limit start rounds = sendTimeouts bytes limit start before) ∧
    (∀ limit, 0 < limit → Counts limit → timevalChecked limit = some (timeval limit)) ∧
    (∀ deadline now left, remaining deadline now = some (some left) →
      millisecondsUntil deadline now = some left ∧
        timevalChecked left = some (timeval left)) := by
  refine ⟨fun now time h => ⟨?_, fun running => conn.receiveTimeout_inTime running h⟩, ?_, ?_,
    fun limit => timevalChecked_eq, fun deadline now left => remaining_timeval⟩
  · obtain ⟨limit, hlimit, hmeans⟩ := conn.receiveTimeout_means valid h
    refine ⟨limit, hlimit, hmeans, fun idle => ?_⟩
    rw [readLimit, idle] at hlimit
    exact (Option.some.inj hlimit).symm
  · intro round running late
    have hnone := conn.receiveTimeout_expires running late
    refine ⟨hnone, ?_⟩
    rw [conn.applyReadDeadline_eq, hnone]
    rfl
  · intro bytes limit start rounds
    refine ⟨sendTimeoutsFrom_attempts _ bytes rounds,
      fun i time => sendTimeoutsFrom_means _ bytes rounds, ?_⟩
    rintro before round rest rfl waiting late
    have hnone : millisecondsUntil (start + limit.span) round.now = none := if_pos late
    exact ⟨writeFrom_expires _ bytes before rest waiting hnone,
      sendTimeoutsFrom_expires _ bytes before rest waiting hnone⟩

/-- With a millisecond and a half left of a request, the read waits for one millisecond. -/
theorem timeouts_hold_last : ∃ time,
    ({ requestInProgress := true, deadlines := {}, requestDeadline := 1500000 } :
      Connection).receiveTimeout 0 = some time ∧ time.Means 1 ∧ time.span ≤ 1500000 := by
  obtain ⟨⟨limit, hlimit, hmeans, -⟩, hle⟩ := (timeouts_hold
    { requestInProgress := true, deadlines := {}, requestDeadline := 1500000 }
    (by decide)).1 0 (timeval 1) rfl
  obtain rfl : 1 = limit := Option.some.inj hlimit
  exact ⟨timeval 1, rfl, hmeans, hle rfl⟩

end Connection

end Carafe.Server
