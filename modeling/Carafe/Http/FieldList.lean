import Carafe.Http.Ascii
import Carafe.Library.Search

/-!
# Comma-separated field values

`next_list_element` walks a value from a position. The list it enumerates is the
cut at every comma with the surrounding whitespace trimmed and empty elements
left out, so where one element ends and the next begins is decided by the commas
alone.
-/

namespace Carafe.Http
open Search

/-- OWS: a space or a horizontal tab. -/
def isOws (ch : UInt8) : Bool := ch = ' '.toUInt8 ∨ ch = '\t'.toUInt8

def comma : UInt8 := ','.toUInt8

/-- Where the element that starts at `pos` ends. -/
def elementEnd (value : Bytes) (pos : Nat) : Nat := (find comma pos value).getD value.length

theorem le_elementEnd {value : Bytes} {pos : Nat} (h : pos < value.length) :
    pos ≤ elementEnd value pos := by
  unfold elementEnd
  cases hf : find comma pos value with
  | none => exact Nat.le_of_lt h
  | some n =>
    obtain ⟨_, _, _, _, hn⟩ := find_some hf
    simp only [Option.getD_some]
    omega

/-- The next element and the position behind it. -/
def nextListElement (value : Bytes) (pos : Nat) : Option (Bytes × Nat) :=
  if h : pos < value.length then
    let stop := elementEnd value pos
    let element := trim isOws ((value.drop pos).take (stop - pos))
    have : pos ≤ stop := le_elementEnd h
    if element ≠ [] then some (element, stop + 1) else nextListElement value (stop + 1)
  else none
termination_by value.length - pos

theorem nextListElement_advances {value element : Bytes} {pos next : Nat}
    (h : nextListElement value pos = some (element, next)) :
    pos < value.length ∧ pos < next := by
  fun_induction nextListElement value pos with
  | case1 pos hlt stop _ hle _ =>
    obtain ⟨_, rfl⟩ : _ = element ∧ stop + 1 = next := by simpa using h
    exact ⟨hlt, Nat.lt_succ_of_le hle⟩
  | case2 pos hlt stop _ hle _ ih =>
    have hrest := (ih h).2
    exact ⟨hlt, by omega⟩
  | case3 => cases h

/-- Every element from `pos` on: what a caller that loops until nothing is left sees. -/
def listElements (value : Bytes) (pos : Nat := 0) : List Bytes :=
  match h : nextListElement value pos with
  | none => []
  | some (element, next) =>
    have := nextListElement_advances h
    element :: listElements value next
termination_by value.length - pos

/-- The list a comma-separated value means. -/
def elementsOf (value : Bytes) : List Bytes :=
  ((value.splitOn comma).map (trim isOws)).filter (· ≠ [])

@[simp] theorem elementsOf_nil : elementsOf [] = [] := by
  simp [elementsOf, trim, List.rdropWhile]

theorem elementsOf_piece {piece : Bytes} (h : comma ∉ piece) :
    elementsOf piece = [trim isOws piece].filter (· ≠ []) := by
  rw [elementsOf, List.splitOn_eq_singleton h]
  rfl

theorem elementsOf_comma {piece : Bytes} (h : comma ∉ piece) (rest : Bytes) :
    elementsOf (piece ++ comma :: rest) =
      [trim isOws piece].filter (· ≠ []) ++ elementsOf rest := by
  rw [elementsOf, List.splitOn_append_cons_self_of_not_mem h, List.map_cons,
    ← List.singleton_append, List.filter_append]
  rfl

/-- Cutting a value at one of its commas cuts the list it means. -/
theorem elementsOf_append (front rest : Bytes) :
    elementsOf (front ++ comma :: rest) = elementsOf front ++ elementsOf rest := by
  simp only [elementsOf, List.splitOn_append_cons_self, List.map_append, List.filter_append]

/-- One round of the walk takes one piece off the front of what is left. -/
theorem elementsOf_drop (value : Bytes) (pos : Nat) :
    elementsOf (value.drop pos) =
      [trim isOws ((value.drop pos).take (elementEnd value pos - pos))].filter (· ≠ []) ++
        elementsOf (value.drop (elementEnd value pos + 1)) := by
  unfold elementEnd
  cases hf : find comma pos value with
  | none =>
    rw [find_eq_none_iff] at hf
    have htake : (value.drop pos).take (value.length - pos) = value.drop pos := by
      rw [List.take_of_length_le (by simp)]
    have hend : value.drop (value.length + 1) = [] := List.drop_eq_nil_of_le (by omega)
    rw [Option.getD_none, htake, hend, elementsOf_nil, List.append_nil, elementsOf_piece hf]
  | some n =>
    obtain ⟨piece, rest, heq, fresh, rfl⟩ := find_some hf
    have htail : value.drop (pos + piece.length + 1) = rest := by
      rw [Nat.add_assoc, ← List.drop_drop, heq]
      simp
    have htake : (value.drop pos).take (pos + piece.length - pos) = piece := by
      rw [heq, Nat.add_sub_cancel_left]
      simp
    rw [Option.getD_some, htake, htail, heq, elementsOf_comma fresh]

theorem nextListElement_spec (value : Bytes) (pos : Nat) :
    elementsOf (value.drop pos) = match nextListElement value pos with
      | none => []
      | some (element, next) => element :: elementsOf (value.drop next) := by
  fun_induction nextListElement value pos with
  | case1 pos hlt stop element hle hne =>
    rw [elementsOf_drop]
    have kept : [element].filter (· ≠ []) = [element] := by simp [hne]
    change [element].filter (· ≠ []) ++ _ = _
    rw [kept]
    rfl
  | case2 pos hlt stop element hle hempty ih =>
    rw [elementsOf_drop]
    have dropped : [element].filter (· ≠ []) = [] := by simpa using hempty
    change [element].filter (· ≠ []) ++ _ = _
    rw [dropped, List.nil_append]
    exact ih
  | case3 pos hge => rw [List.drop_eq_nil_of_le (by omega), elementsOf_nil]

theorem listElements_drop (value : Bytes) (pos : Nat) :
    listElements value pos = elementsOf (value.drop pos) := by
  fun_induction listElements value pos with
  | case1 pos h => rw [nextListElement_spec, h]
  | case2 pos element next h _ ih => rw [nextListElement_spec, h, ih]

/-- The walk enumerates the comma-separated list. -/
theorem listElements_eq (value : Bytes) : listElements value = elementsOf value := by
  simpa using listElements_drop value 0

end Carafe.Http
