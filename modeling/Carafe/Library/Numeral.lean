import Mathlib.Data.List.Basic
import Mathlib.Data.Nat.Digits.Defs

/-!
# Values of numerals

A numeral is a run of digits in some base, the most significant one first. Its
value is exact and unbounded. A reader that tests a bound behind each digit is
compared with it, and with one whose products and sums may not pass a limit.
-/

namespace Numeral

universe u
variable {α : Type u} (base : Nat) (digit : α → Option Nat)

/-- The value of the digits read behind a front of value `start`. -/
def valueFrom (start : Nat) : List α → Option Nat
  | [] => some start
  | x :: xs => (digit x).bind fun d => valueFrom (start * base + d) xs

/-- The value of a whole numeral, which has at least one digit. -/
def value : List α → Option Nat
  | [] => none
  | x :: xs => valueFrom base digit 0 (x :: xs)

variable {base digit}

theorem value_eq_some_iff {xs : List α} {n : Nat} :
    value base digit xs = some n ↔ xs ≠ [] ∧ valueFrom base digit 0 xs = some n := by
  cases xs <;> simp [value]

theorem valueFrom_cons_eq_some {x : α} {xs : List α} {start n : Nat} :
    valueFrom base digit start (x :: xs) = some n ↔
      ∃ d, digit x = some d ∧ valueFrom base digit (start * base + d) xs = some n := by
  rw [valueFrom, Option.bind_eq_some_iff]

theorem valueFrom_append {xs ys : List α} {start : Nat} :
    valueFrom base digit start (xs ++ ys) =
      (valueFrom base digit start xs).bind fun n => valueFrom base digit n ys := by
  induction xs generalizing start with
  | nil => rfl
  | cons x xs ih =>
    rw [List.cons_append, valueFrom, valueFrom]
    cases digit x with
    | none => rfl
    | some d => exact ih

/-- More digits never make a value smaller. -/
theorem le_valueFrom (hb : 0 < base) {xs : List α} {start n : Nat}
    (h : valueFrom base digit start xs = some n) : start ≤ n := by
  induction xs generalizing start with
  | nil => exact Nat.le_of_eq (Option.some.inj h)
  | cons x xs ih =>
    obtain ⟨d, _, hrest⟩ := valueFrom_cons_eq_some.mp h
    have hle := ih hrest
    have hmul : start ≤ start * base := Nat.le_mul_of_pos_right start hb
    omega

/-- Every element of a numeral is a digit. -/
theorem valueFrom_digits {xs : List α} {start n : Nat}
    (h : valueFrom base digit start xs = some n) : ∀ x ∈ xs, (digit x).isSome := by
  induction xs generalizing start with
  | nil => simp
  | cons x xs ih =>
    obtain ⟨d, hd, hrest⟩ := valueFrom_cons_eq_some.mp h
    intro y hy
    rcases List.mem_cons.mp hy with rfl | hy
    · simp [hd]
    · exact ih hrest y hy

/-- The elements are digits, at least one, with these values. -/
def Spells (digit : α → Option Nat) (xs : List α) (digits : List Nat) : Prop :=
  xs ≠ [] ∧ xs.map digit = digits.map some

theorem valueFrom_eq_ofDigits {xs : List α} {front : List Nat} {n : Nat} :
    valueFrom base digit (Nat.ofDigits base front) xs = some n ↔
      ∃ digits : List Nat, xs.map digit = digits.map some ∧
        n = Nat.ofDigits base (digits.reverse ++ front) := by
  induction xs generalizing front with
  | nil =>
    constructor
    · intro h
      exact ⟨[], rfl, (Option.some.inj h).symm⟩
    · rintro ⟨digits, hmap, rfl⟩
      rw [List.map_nil, eq_comm, List.map_eq_nil_iff] at hmap
      simp [hmap, valueFrom]
  | cons x xs ih =>
    have hfront : ∀ d, Nat.ofDigits base front * base + d = Nat.ofDigits base (d :: front) := by
      intro d
      rw [Nat.ofDigits_cons, Nat.mul_comm, Nat.add_comm]
    rw [valueFrom_cons_eq_some]
    constructor
    · rintro ⟨d, hd, hrest⟩
      rw [hfront, ih] at hrest
      obtain ⟨digits, hmap, hn⟩ := hrest
      refine ⟨d :: digits, ?_, ?_⟩
      · rw [List.map_cons, List.map_cons, hd, hmap]
      · simpa using hn
    · rintro ⟨digits, hmap, hn⟩
      cases digits with
      | nil => cases hmap
      | cons d digits =>
        rw [List.map_cons, List.map_cons, List.cons.injEq] at hmap
        refine ⟨d, hmap.1, ?_⟩
        rw [hfront, ih]
        exact ⟨digits, hmap.2, by simpa using hn⟩

/-- The value is the sum of the digits by their places. -/
theorem value_eq_ofDigits {xs : List α} {n : Nat} :
    value base digit xs = some n ↔
      ∃ digits, Spells digit xs digits ∧ n = Nat.ofDigits base digits.reverse := by
  have hfrom := @valueFrom_eq_ofDigits _ base digit xs [] n
  simp only [Nat.ofDigits_nil, List.append_nil] at hfrom
  rw [value_eq_some_iff, hfrom]
  constructor
  · rintro ⟨hne, digits, hmap, hn⟩
    exact ⟨digits, ⟨hne, hmap⟩, hn⟩
  · rintro ⟨digits, ⟨hne, hmap⟩, hn⟩
    exact ⟨hne, digits, hmap, hn⟩

/-- What comes of reading a numeral against a bound. -/
inductive Reading where
  | exact (n : Nat)
  | noDigit
  | tooLarge
  deriving DecidableEq

/-- Reads digit by digit, and tests the bound behind each one. -/
def readFrom (base : Nat) (digit : α → Option Nat) (cap start : Nat) : List α → Reading
  | [] => .exact start
  | x :: xs =>
    (digit x).elim .noDigit fun d =>
      if cap < start * base + d then .tooLarge
      else readFrom base digit cap (start * base + d) xs

/-- Reads a whole numeral, which has at least one digit. -/
def readAll (base : Nat) (digit : α → Option Nat) (cap : Nat) : List α → Reading
  | [] => .noDigit
  | x :: xs => readFrom base digit cap 0 (x :: xs)

/-- A result of machine arithmetic, which holds numbers up to a limit. -/
def limited (limit n : Nat) : Option Nat := if n ≤ limit then some n else none

theorem limited_of_le {limit n : Nat} (h : n ≤ limit) : limited limit n = some n := if_pos h

/-- The same reader where a product or a sum past the limit gives no result. -/
def checkedFrom (limit base : Nat) (digit : α → Option Nat) (cap start : Nat) :
    List α → Option Reading
  | [] => some (.exact start)
  | x :: xs =>
    (digit x).elim (some .noDigit) fun d =>
      (limited limit (start * base)).bind fun product =>
        (limited limit (product + d)).bind fun next =>
          if cap < next then some .tooLarge else checkedFrom limit base digit cap next xs

def checkedAll (limit base : Nat) (digit : α → Option Nat) (cap : Nat) :
    List α → Option Reading
  | [] => some .noDigit
  | x :: xs => checkedFrom limit base digit cap 0 (x :: xs)

section Bound
variable {cap : Nat}

/-- The bound that is tested behind each digit is a bound on the exact value. -/
theorem readFrom_exact_iff (pos : 0 < base) {xs : List α} {start n : Nat} (fits : start ≤ cap) :
    readFrom base digit cap start xs = .exact n ↔
      valueFrom base digit start xs = some n ∧ n ≤ cap := by
  induction xs generalizing start with
  | nil =>
    have hbound : start = n → n ≤ cap := by
      rintro rfl
      exact fits
    simpa [readFrom, valueFrom] using hbound
  | cons x xs ih =>
    rw [valueFrom_cons_eq_some, readFrom]
    cases digit x with
    | none => simp
    | some d =>
      simp only [Option.elim_some, Option.some.injEq, exists_eq_left']
      by_cases large : cap < start * base + d
      · simp only [large, if_true, reduceCtorEq, false_iff]
        rintro ⟨hrest, hle⟩
        have hfront := le_valueFrom pos hrest
        omega
      · rw [if_neg large]
        exact ih (Nat.le_of_not_lt large)

theorem readAll_exact_iff (pos : 0 < base) {xs : List α} {n : Nat} :
    readAll base digit cap xs = .exact n ↔ value base digit xs = some n ∧ n ≤ cap := by
  cases xs with
  | nil => simp [readAll, value]
  | cons x xs => exact readFrom_exact_iff pos (Nat.zero_le cap)

/-- One bound test behind each digit is enough for the next product and sum. -/
theorem checkedFrom_eq {limit : Nat} (room : cap ≤ (limit - (base - 1)) / base)
    (holds : base - 1 ≤ limit) (small : ∀ x, ∀ d ∈ digit x, d < base) {xs : List α} {start : Nat}
    (fits : start ≤ cap) :
    checkedFrom limit base digit cap start xs = some (readFrom base digit cap start xs) := by
  have hcap : cap * base ≤ limit - (base - 1) := Nat.mul_le_of_le_div base cap _ room
  induction xs generalizing start with
  | nil => rfl
  | cons x xs ih =>
    rw [checkedFrom, readFrom]
    cases hdigit : digit x with
    | none => rfl
    | some d =>
      have hd : d < base := small x d hdigit
      have hmul : start * base ≤ cap * base := Nat.mul_le_mul_right base fits
      simp only [Option.elim_some]
      rw [limited_of_le (by omega), Option.bind_some, limited_of_le (by omega), Option.bind_some]
      by_cases large : cap < start * base + d
      · rw [if_pos large, if_pos large]
      · rw [if_neg large, if_neg large]
        exact ih (Nat.le_of_not_lt large)

theorem checkedAll_eq {limit : Nat} (room : cap ≤ (limit - (base - 1)) / base)
    (holds : base - 1 ≤ limit) (small : ∀ x, ∀ d ∈ digit x, d < base) (xs : List α) :
    checkedAll limit base digit cap xs = some (readAll base digit cap xs) := by
  cases xs with
  | nil => rfl
  | cons x xs => exact checkedFrom_eq room holds small (Nat.zero_le cap)

end Bound

end Numeral
