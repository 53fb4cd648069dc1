import Carafe.Net.Clock
import Carafe.Server.Connection
import Carafe.Server.Pool

/-!
# Limits and the clock

`App::run` takes any limits that are positive. Three expressions bring them to the
clock: the deadline of a request, that of a write and the test of how long a
connection has waited. What they compute is what exact integers would give as long
as nothing leaves the 64 bits of the clock.
-/

namespace Carafe.Server
open Http Net

def validPoolLimits (limits : PoolLimits) : Bool :=
  0 < limits.workers ∧ 0 < limits.queued ∧ 0 < limits.queueWait

def validDeadlines (deadlines : Deadlines) : Bool :=
  0 < deadlines.idle ∧ 0 < deadlines.request

/-- Limits that `App::run` does not refuse. Their counts have 64 bits. -/
structure Accepted (limits : PoolLimits) (deadlines : Deadlines) : Prop where
  poolValid : validPoolLimits limits = true
  deadlinesValid : validDeadlines deadlines = true
  queueWait : Counts limits.queueWait
  idle : Counts deadlines.idle
  request : Counts deadlines.request

namespace Deadlines

/-- What `next_request` sets `request_deadline_` to. -/
def forRequest (deadlines : Deadlines) (now : TimePoint) : Option TimePoint :=
  after now deadlines.request

/-- The deadline of `Socket::write`, which is given the request deadline as its limit. -/
def forWrite (deadlines : Deadlines) (now : TimePoint) : Option TimePoint :=
  after now deadlines.request

end Deadlines

variable {κ : Type}

/-- The test of `ConnectionPool::work`. -/
def Waiting.expired (job : Waiting κ) (limits : PoolLimits) (now : TimePoint) : Option Bool :=
  exceeds now job.queuedAt limits.queueWait

/-- The deadlines come out right at this reading of the clock, the wait is judged as exact
integers would, and raising a limit to this one costs nothing. -/
structure Lax (limits : PoolLimits) (deadlines : Deadlines) (job : Waiting κ) (now : TimePoint) :
    Prop where
  request : ∃ deadline, deadlines.forRequest now = some deadline ∧ now < deadline
  write : ∃ deadline, deadlines.forWrite now = some deadline ∧ now < deadline
  wait : job.expired limits now = some (decide (job.overdue limits now))
  raisedRequest : ∀ lower : Deadlines, lower.request ≤ deadlines.request →
    ∀ deadline, lower.forRequest now = some deadline → ∀ later left, now ≤ later →
      remaining deadline later = some (some left) → ∃ raised more,
        deadlines.forRequest now = some raised ∧ remaining raised later = some (some more) ∧
          left ≤ more
  raisedWait : ∀ lower : PoolLimits, lower.queueWait ≤ limits.queueWait →
    job.expired lower now = some false → job.expired limits now = some false

/-- The limits in nanoseconds, the deadline and the wait are 64-bit counts. -/
structure FitsClock (limits : PoolLimits) (deadlines : Deadlines) (job : Waiting κ)
    (now : TimePoint) : Prop where
  request : deadlines.request.span ≤ maxCount
  deadline : now + deadlines.request.span ≤ maxCount
  queueWait : limits.queueWait.span ≤ maxCount
  waited : Counts (now - job.queuedAt)

instance (limits : PoolLimits) (deadlines : Deadlines) (job : Waiting κ) (now : TimePoint) :
    Decidable (FitsClock limits deadlines job now) :=
  decidable_of_iff (deadlines.request.span ≤ maxCount ∧ now + deadlines.request.span ≤ maxCount ∧
      limits.queueWait.span ≤ maxCount ∧ Counts (now - job.queuedAt))
    ⟨fun ⟨h₁, h₂, h₃, h₄⟩ => ⟨h₁, h₂, h₃, h₄⟩, fun ⟨h₁, h₂, h₃, h₄⟩ => ⟨h₁, h₂, h₃, h₄⟩⟩

theorem span_pos {limit : Milliseconds} (h : 0 < limit) : 0 < limit.span :=
  Int.mul_pos h (by decide)

theorem span_le {lower limit : Milliseconds} (h : lower ≤ limit) : lower.span ≤ limit.span :=
  Int.mul_le_mul_of_nonneg_right h (by decide)

section Limits
variable {limits : PoolLimits} {deadlines : Deadlines} {job : Waiting κ} {now : TimePoint}

theorem Accepted.positive (h : Accepted limits deadlines) :
    0 < limits.queueWait ∧ 0 < deadlines.request := by
  have hpool := h.poolValid
  have hdeadlines := h.deadlinesValid
  simp only [validPoolLimits, validDeadlines, decide_eq_true_eq] at hpool hdeadlines
  exact ⟨hpool.2.2, hdeadlines.2⟩

theorem FitsClock.after (h : FitsClock limits deadlines job now) (positive : 0 < deadlines.request)
    (counts : Counts now) :
    Net.after now deadlines.request = some (now + deadlines.request.span) := by
  have hspan := span_pos positive
  obtain ⟨hlow, -⟩ := counts
  refine after_eq_some_iff.mpr ⟨⟨?_, h.request⟩, ⟨?_, h.deadline⟩, rfl⟩
  · exact Int.le_trans (by decide) (Int.le_of_lt hspan)
  · exact Int.le_trans hlow (Int.le_add_of_nonneg_right (Int.le_of_lt hspan))

/-- Where all of it fits, a lower limit that kept to its 64 bits grants no more. -/
theorem FitsClock.raisedRequest (h : FitsClock limits deadlines job now)
    (positive : 0 < deadlines.request) (counts : Counts now) {lower : Deadlines}
    (le : lower.request ≤ deadlines.request) {deadline later : TimePoint} {left : Milliseconds}
    (set : lower.forRequest now = some deadline) (passed : now ≤ later)
    (running : remaining deadline later = some (some left)) : ∃ raised more,
      deadlines.forRequest now = some raised ∧ remaining raised later = some (some more) ∧
        left ≤ more := by
  obtain ⟨-, -, rfl⟩ := after_eq_some_iff.mp set
  obtain ⟨hcounts, hleft⟩ := remaining_eq_some_iff.mp running
  have hspan := span_le le
  have hlater : now + lower.request.span ≤ now + deadlines.request.span :=
    Int.add_le_add_left hspan now
  obtain ⟨more, hmore, hle⟩ := millisecondsUntil_mono hleft.symm hlater
  refine ⟨_, more, h.after positive counts, remaining_eq_some_iff.mpr ⟨⟨?_, ?_⟩, hmore.symm⟩, hle⟩
  · exact Int.le_trans hcounts.1 (Int.sub_le_sub_right hlater later)
  · have hshort : now + deadlines.request.span - later ≤ deadlines.request.span :=
      Int.sub_left_le_of_le_add (Int.add_le_add_right passed _)
    exact Int.le_trans hshort h.request

/-- No larger limit is a stricter one, if and only if all of it fits. -/
theorem Accepted.lax (h : Accepted limits deadlines) (counts : Counts now) :
    Lax limits deadlines job now ↔ FitsClock limits deadlines job now := by
  obtain ⟨hwait, hrequest⟩ := h.positive
  constructor
  · intro lax
    obtain ⟨deadline, hdeadline, -⟩ := lax.request
    obtain ⟨hspan, hsum, -⟩ := after_eq_some_iff.mp hdeadline
    obtain ⟨hwaited, hlimit, -⟩ := exceeds_eq_some_iff.mp lax.wait
    exact ⟨hspan.2, hsum.2, hlimit.2, hwaited⟩
  · intro fits
    have hafter := fits.after hrequest counts
    have hlater : now < now + deadlines.request.span :=
      Int.lt_add_of_pos_right now (span_pos hrequest)
    have hlimit : Counts limits.queueWait.span :=
      ⟨Int.le_trans (by decide) (Int.le_of_lt (span_pos hwait)), fits.queueWait⟩
    have htest : job.expired limits now = some (decide (job.overdue limits now)) :=
      exceeds_eq_some_iff.mpr ⟨fits.waited, hlimit, rfl⟩
    refine ⟨⟨_, hafter, hlater⟩, ⟨_, hafter, hlater⟩, htest, ?_, ?_⟩
    · intro lower le deadline set later left passed running
      exact fits.raisedRequest hrequest counts le set passed running
    · intro lower le early
      obtain ⟨-, -, hearly⟩ := exceeds_eq_some_iff.mp early
      have hnot : ¬ job.overdue limits now := fun hlate =>
        of_decide_eq_false hearly.symm (Int.lt_of_le_of_lt (span_le le) hlate)
      rw [htest, decide_eq_false hnot]

end Limits

theorem Accepted.lax_defaults : Lax {} {} (⟨some 0, 0⟩ : Waiting Nat) 1000000 :=
  (Accepted.lax ⟨by decide, by decide, by decide, by decide, by decide⟩ (by decide)).mpr
    (by decide)

/-- The largest limit there is, as a caller asks for no limit. -/
theorem Accepted.largest_overflows : ¬ ∀ limits deadlines (job : Waiting Nat) now,
    Accepted limits deadlines → Counts job.queuedAt → Counts now → Lax limits deadlines job now := by
  intro claim
  have hlax := claim {} { request := maxCount } ⟨some 0, 0⟩ 1000000
    ⟨by decide, by decide, by decide, by decide, by decide⟩ (by decide) (by decide)
  obtain ⟨deadline, hdeadline, -⟩ := hlax.request
  have hnone : Deadlines.forRequest { request := maxCount } 1000000 = none := by decide
  rw [hnone] at hdeadline
  cases hdeadline

/-- Where it fits, `next_request` sets the deadline that exact integers would give. -/
theorem Connection.received_deadline {conn : Connection} (idle : conn.requestInProgress = false)
    (chunk : Bytes) {now deadline : TimePoint}
    (set : conn.deadlines.forRequest now = some deadline) :
    (conn.received chunk now).requestDeadline = deadline := by
  obtain ⟨-, -, rfl⟩ := after_eq_some_iff.mp set
  simp [Connection.received, idle]

end Carafe.Server
