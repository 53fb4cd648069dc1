import Carafe.Net.Socket

/-!
# Clock arithmetic in 64 bits

The clock and the limits count in signed 64-bit integers, the clock in nanoseconds and
the limits in milliseconds. A limit that meets the clock is converted to nanoseconds
first. An operation whose result is no such integer has no result at all.
-/

namespace Carafe.Net

def minCount : Int := -9223372036854775808
def maxCount : Int := 9223372036854775807

/-- A value of a 64-bit count. -/
def Counts (n : Int) : Prop := minCount ≤ n ∧ n ≤ maxCount

instance (n : Int) : Decidable (Counts n) := inferInstanceAs (Decidable (_ ∧ _))

def counted (n : Int) : Option Int := if Counts n then some n else none

theorem counted_of {n : Int} (h : Counts n) : counted n = some n := if_pos h

theorem counted_eq_some_iff {n m : Int} : counted n = some m ↔ Counts n ∧ m = n := by
  unfold counted
  split
  · rename_i h
    simp [h, eq_comm]
  · rename_i h
    simp [h]

/-- `std::chrono::nanoseconds(limit)` -/
def nanoseconds (limit : Milliseconds) : Option Int := counted limit.span

/-- `now + limit` -/
def after (now : TimePoint) (limit : Milliseconds) : Option TimePoint := do
  let span ← nanoseconds limit
  counted (now + span)

/-- `now - earlier` -/
def elapsed (now earlier : TimePoint) : Option Int := counted (now - earlier)

/-- `now - earlier > limit` -/
def exceeds (now earlier : TimePoint) (limit : Milliseconds) : Option Bool := do
  let passed ← elapsed now earlier
  let span ← nanoseconds limit
  return decide (span < passed)

/-- `milliseconds_until`, with what is left if that is a millisecond or more. -/
def remaining (deadline now : TimePoint) : Option (Option Milliseconds) := do
  let left ← elapsed deadline now
  let least ← nanoseconds 1
  return if left < least then none else some (left / least)

theorem nanoseconds_eq_some_iff {limit : Milliseconds} {span : Int} :
    nanoseconds limit = some span ↔ Counts limit.span ∧ span = limit.span :=
  counted_eq_some_iff

theorem after_eq_some_iff {now : TimePoint} {limit : Milliseconds} {deadline : TimePoint} :
    after now limit = some deadline ↔
      Counts limit.span ∧ Counts (now + limit.span) ∧ deadline = now + limit.span := by
  unfold after
  simp only [Option.bind_eq_bind, Option.bind_eq_some_iff, nanoseconds_eq_some_iff,
    counted_eq_some_iff]
  constructor
  · rintro ⟨_, ⟨hspan, rfl⟩, hsum, hdeadline⟩
    exact ⟨hspan, hsum, hdeadline⟩
  · rintro ⟨hspan, hsum, hdeadline⟩
    exact ⟨_, ⟨hspan, rfl⟩, hsum, hdeadline⟩

theorem exceeds_eq_some_iff {now earlier : TimePoint} {limit : Milliseconds} {late : Bool} :
    exceeds now earlier limit = some late ↔
      Counts (now - earlier) ∧ Counts limit.span ∧ late = decide (limit.span < now - earlier) := by
  unfold exceeds elapsed
  simp only [Option.bind_eq_bind, Option.bind_eq_some_iff, nanoseconds_eq_some_iff,
    counted_eq_some_iff, Option.pure_def, Option.some.injEq]
  constructor
  · rintro ⟨_, ⟨hpassed, rfl⟩, _, ⟨hspan, rfl⟩, hlate⟩
    exact ⟨hpassed, hspan, hlate.symm⟩
  · rintro ⟨hpassed, hspan, hlate⟩
    exact ⟨_, ⟨hpassed, rfl⟩, _, ⟨hspan, rfl⟩, hlate.symm⟩

/-- Without an overflow, `milliseconds_until` is what exact integers make of it. -/
theorem remaining_of {deadline now : TimePoint} (h : Counts (deadline - now)) :
    remaining deadline now = some (millisecondsUntil deadline now) := by
  have hleast : nanoseconds 1 = some (Milliseconds.span 1) :=
    nanoseconds_eq_some_iff.mpr ⟨by decide, rfl⟩
  simp only [remaining, elapsed, counted_of h, hleast, millisecondsUntil]
  rfl

theorem remaining_eq_some_iff {deadline now : TimePoint} {left : Option Milliseconds} :
    remaining deadline now = some left ↔
      Counts (deadline - now) ∧ left = millisecondsUntil deadline now := by
  by_cases h : Counts (deadline - now)
  · rw [remaining_of h]
    simp [h, eq_comm]
  · have hnone : remaining deadline now = none := by
      simp [remaining, elapsed, counted, h]
    simp [hnone, h]

/-- A later deadline leaves as much time or more. -/
theorem millisecondsUntil_mono {deadline later now : TimePoint} {left : Milliseconds}
    (h : millisecondsUntil deadline now = some left) (hlater : deadline ≤ later) :
    ∃ more, millisecondsUntil later now = some more ∧ left ≤ more := by
  simp only [millisecondsUntil] at h ⊢
  have hle : deadline - now ≤ later - now := Int.sub_le_sub_right hlater now
  split at h
  · cases h
  · rename_i hleast
    cases h
    rw [if_neg fun hless => hleast (Int.lt_of_le_of_lt hle hless)]
    exact ⟨_, rfl, Int.ediv_le_ediv (by decide) hle⟩

end Carafe.Net
