import Mathlib.Data.List.Basic

/-!
# ASCII tables

A byte string is a list of bytes, and a character of the source is its code.
`ascii_hex_value` reports `-1` for a byte that is no hex digit; here that is
`none`.
-/

namespace Carafe.Http

abbrev Bytes := List UInt8

/-- The bytes of a literal of the source. -/
def bytes (literal : String) : Bytes := literal.toList.map Char.toUInt8

/-- A fact about bytes is a fact about 256 cases. -/
theorem forall_byte {p : UInt8 → Prop} (h : ∀ n : Fin 256, p (UInt8.ofFin n)) (ch : UInt8) :
    p ch :=
  h ch.toFin

def asciiLower (ch : UInt8) : UInt8 :=
  if 'A'.toUInt8 ≤ ch ∧ ch ≤ 'Z'.toUInt8 then ch + ('a'.toUInt8 - 'A'.toUInt8) else ch

def asciiEqualsLowered (lowered text : Bytes) : Bool :=
  text.length = lowered.length ∧ text.map asciiLower = lowered

def asciiHexValue (ch : UInt8) : Option Nat :=
  if '0'.toUInt8 ≤ ch ∧ ch ≤ '9'.toUInt8 then some (ch.toNat - '0'.toNat)
  else if 'a'.toUInt8 ≤ ch ∧ ch ≤ 'f'.toUInt8 then some (ch.toNat - 'a'.toNat + 10)
  else if 'A'.toUInt8 ≤ ch ∧ ch ≤ 'F'.toUInt8 then some (ch.toNat - 'A'.toNat + 10)
  else none

def asciiHexDigit (value : Nat) : UInt8 :=
  if value < 10 then '0'.toUInt8 + value.toUInt8 else 'A'.toUInt8 + value.toUInt8 - 10

def asciiUnreserved (ch : UInt8) : Bool :=
  ('A'.toUInt8 ≤ ch ∧ ch ≤ 'Z'.toUInt8) ∨ ('a'.toUInt8 ≤ ch ∧ ch ≤ 'z'.toUInt8) ∨
    ('0'.toUInt8 ≤ ch ∧ ch ≤ '9'.toUInt8) ∨
    ch = '-'.toUInt8 ∨ ch = '.'.toUInt8 ∨ ch = '_'.toUInt8 ∨ ch = '~'.toUInt8

@[simp] theorem asciiLower_idem (ch : UInt8) : asciiLower (asciiLower ch) = asciiLower ch := by
  revert ch
  refine forall_byte ?_
  decide +kernel

@[simp] theorem map_asciiLower_idem (text : Bytes) :
    (text.map asciiLower).map asciiLower = text.map asciiLower := by
  simp

theorem asciiEqualsLowered_iff {lowered text : Bytes} :
    asciiEqualsLowered lowered text = true ↔ text.map asciiLower = lowered := by
  simp only [asciiEqualsLowered, decide_eq_true_eq, and_iff_right_iff_imp]
  rintro rfl
  simp

theorem asciiHexValue_lt {ch : UInt8} {value : Nat} (h : asciiHexValue ch = some value) :
    value < 16 := by
  have hall : ∀ ch : UInt8, ∀ v ∈ asciiHexValue ch, v < 16 := by
    refine forall_byte ?_
    decide +kernel
  exact hall ch value h

end Carafe.Http
