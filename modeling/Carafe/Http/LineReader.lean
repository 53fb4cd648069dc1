import Carafe.Http.Message
import Carafe.Library.Search

/-!
# The line reader

Two offsets into a buffer that is compacted only sometimes. Both stay behind its
end, and no terminator starts between them: the last byte is scanned again when
more arrive, since it may be the first half of one. The second part of the file
is what the class is for, in terms of the unread bytes alone.
-/

namespace Carafe.Http
open Search

def maxLineLength : Nat := 8192

inductive LineError where
  | none
  | lineTooLong
  deriving DecidableEq, Repr

structure LineResult where
  error : LineError := .none
  line : Option Bytes := none
  deriving DecidableEq, Repr

structure LineReader where
  buffer : Bytes := []
  begin_ : Nat := 0
  scanned : Nat := 0
  begin_le : begin_ ≤ buffer.length := by exact Nat.zero_le _
  begin_le_scanned : begin_ ≤ scanned := by exact Nat.le_refl _
  /-- A scan that got past `begin_` stopped short of the last byte. -/
  behind : scanned = begin_ ∨ scanned < buffer.length := by exact Or.inl rfl
  clear : ∀ i, begin_ ≤ i → i < scanned → ¬ crlf <+: buffer.drop i := by
    exact fun _ hle hlt => absurd hlt (Nat.not_lt.mpr hle)

namespace LineReader

theorem scanned_le (reader : LineReader) : reader.scanned ≤ reader.buffer.length := by
  have := reader.begin_le
  rcases reader.behind with heq | hlt <;> omega

/-- A terminator seen in a longer buffer was already there, if all of it was. -/
theorem clear_append {buffer : Bytes} {i : Nat} (more : Bytes) (h : i + 1 < buffer.length)
    (hpre : crlf <+: (buffer ++ more).drop i) : crlf <+: buffer.drop i := by
  rw [List.drop_append_of_le_length (by omega)] at hpre
  exact List.prefix_of_prefix_length_le hpre (List.prefix_append _ _) (by simp [crlf]; omega)

def append (reader : LineReader) (more : Bytes) : LineReader :=
  -- Only once the dead prefix outweighs what is left.
  if h : 0 < reader.begin_ ∧ reader.begin_ * 2 ≥ reader.buffer.length then
    { buffer := reader.buffer.drop reader.begin_ ++ more
      begin_ := 0
      scanned := reader.scanned - reader.begin_
      begin_le := Nat.zero_le _
      begin_le_scanned := Nat.zero_le _
      behind := by
        have := reader.scanned_le
        have := reader.begin_le_scanned
        simp only [List.length_append, List.length_drop]
        rcases reader.behind with heq | hlt <;> omega
      clear := by
        intro i _ hi hpre
        have hlen : i + 1 < (reader.buffer.drop reader.begin_).length := by
          have := reader.begin_le_scanned
          simp only [List.length_drop]
          rcases reader.behind with heq | hlt <;> omega
        have hold := clear_append more hlen hpre
        rw [List.drop_drop] at hold
        exact reader.clear (reader.begin_ + i) (by omega) (by omega) hold }
  else
    { reader with
      buffer := reader.buffer ++ more
      begin_le := by
        have := reader.begin_le
        simp only [List.length_append]
        omega
      behind := by
        simp only [List.length_append]
        rcases reader.behind with heq | hlt <;> omega
      clear := by
        intro i hb hi hpre
        have hlen : i + 1 < reader.buffer.length := by
          rcases reader.behind with heq | hlt <;> omega
        exact reader.clear i hb hi (clear_append more hlen hpre) }

/-- Hands the front of the buffer over: the scan starts again where reading does. -/
def advance (reader : LineReader) (position : Nat) (h : position ≤ reader.buffer.length) :
    LineReader where
  buffer := reader.buffer
  begin_ := position
  scanned := position
  begin_le := h
  begin_le_scanned := Nat.le_refl _
  behind := Or.inl rfl
  clear := by omega

theorem pattern_end {buffer : Bytes} {start pos : Nat}
    (h : findPattern crlf start buffer = some pos) : pos + 2 ≤ buffer.length := by
  have hle := (findPattern_some h).2.1.length_le
  simp only [crlf, List.length_cons, List.length_nil, List.length_drop] at hle
  omega

/-- Remembers how far a search without a result got, one byte short of the end. -/
def rescan (reader : LineReader) (h : findPattern crlf reader.scanned reader.buffer = none) :
    LineReader where
  buffer := reader.buffer
  begin_ := reader.begin_
  scanned :=
    if reader.buffer.length < reader.begin_ + 1 then reader.begin_ else reader.buffer.length - 1
  begin_le := reader.begin_le
  begin_le_scanned := by split <;> omega
  behind := by
    have := reader.begin_le
    split <;> omega
  clear := by
    intro i hb hi
    rcases Nat.lt_or_ge i reader.scanned with hlt | hge
    · exact reader.clear i hb hlt
    · exact findPattern_none h i hge

def nextLine (reader : LineReader) : LineReader × LineResult :=
  match h : findPattern crlf reader.scanned reader.buffer with
  | none =>
    if reader.buffer.length - reader.begin_ > maxLineLength then
      (reader, { error := .lineTooLong })
    else (reader.rescan h, {})
  | some crlfPos =>
    -- Checked here too, or one large append walks past a cap on the failed search alone.
    if crlfPos - reader.begin_ > maxLineLength then (reader, { error := .lineTooLong })
    else
      (reader.advance (crlfPos + 2) (pattern_end h),
        { line := some ((reader.buffer.drop reader.begin_).take (crlfPos - reader.begin_)) })

def take (reader : LineReader) (n : Nat) : LineReader × Option Bytes :=
  if h : reader.buffer.length - reader.begin_ < n then (reader, none)
  else
    (reader.advance (reader.begin_ + n) (by have := reader.begin_le; omega),
      some ((reader.buffer.drop reader.begin_).take n))

def discard (reader : LineReader) (n : Nat) : LineReader × Nat :=
  let dropped := min n (reader.buffer.length - reader.begin_)
  (reader.advance (reader.begin_ + dropped) (by have := reader.begin_le; omega), dropped)

def unread (reader : LineReader) : Bytes := reader.buffer.drop reader.begin_

/-- What `next_line` answers when `unread` is all there is. -/
def lineOf (unread : Bytes) : Bytes × LineResult :=
  match findPattern crlf 0 unread with
  | none => (unread, if unread.length > maxLineLength then { error := .lineTooLong } else {})
  | some n =>
    if n > maxLineLength then (unread, { error := .lineTooLong })
    else (unread.drop (n + 2), { line := some (unread.take n) })

theorem length_unread (reader : LineReader) :
    reader.unread.length = reader.buffer.length - reader.begin_ := by
  simp [unread]

@[simp] theorem unread_append (reader : LineReader) (more : Bytes) :
    (reader.append more).unread = reader.unread ++ more := by
  unfold append
  split
  · simp [unread]
  · exact List.drop_append_of_le_length reader.begin_le

@[simp] theorem unread_advance (reader : LineReader) (position : Nat)
    (h : position ≤ reader.buffer.length) :
    (reader.advance position h).unread = reader.buffer.drop position := rfl

/-- Nothing is lost by resuming the scan: no terminator starts before it. -/
theorem findPattern_unread (reader : LineReader) :
    findPattern crlf reader.scanned reader.buffer =
      (findPattern crlf 0 reader.unread).map (reader.begin_ + ·) := by
  have hbs := reader.begin_le_scanned
  cases hf : findPattern crlf 0 reader.unread with
  | none =>
    refine findPattern_eq_none fun i hi hpre => ?_
    apply findPattern_none hf (i - reader.begin_) (Nat.zero_le _)
    rwa [unread, List.drop_drop, Nat.add_sub_cancel' (Nat.le_trans hbs hi)]
  | some n =>
    obtain ⟨_, hat, before⟩ := findPattern_some hf
    rw [unread, List.drop_drop] at hat
    refine findPattern_eq_some ?_ hat ?_
    · rcases Nat.lt_or_ge (reader.begin_ + n) reader.scanned with hlt | hge
      · exact False.elim (reader.clear _ (Nat.le_add_right _ _) hlt hat)
      · exact hge
    · intro i hi hlt hpre
      change i < reader.begin_ + n at hlt
      apply before (i - reader.begin_) (Nat.zero_le _) (by omega)
      rwa [unread, List.drop_drop, Nat.add_sub_cancel' (Nat.le_trans hbs hi)]

theorem nextLine_spec (reader : LineReader) :
    (reader.nextLine.1.unread, reader.nextLine.2) = lineOf reader.unread := by
  have hfind := reader.findPattern_unread
  unfold nextLine lineOf
  split
  · rename_i h
    rw [h] at hfind
    rw [Option.map_eq_none_iff.mp hfind.symm, length_unread]
    split <;> rfl
  · rename_i crlfPos h
    rw [h] at hfind
    obtain ⟨n, hn, rfl⟩ := Option.map_eq_some_iff.mp hfind.symm
    rw [hn]
    simp only [Nat.add_sub_cancel_left]
    split
    · rfl
    · simp only [Prod.mk.injEq, and_true, unread, List.drop_drop]
      rw [← Nat.add_assoc]
      rfl

theorem take_spec (reader : LineReader) (n : Nat) :
    ((reader.take n).1.unread, (reader.take n).2) =
      if reader.unread.length < n then (reader.unread, none)
      else (reader.unread.drop n, some (reader.unread.take n)) := by
  unfold take
  rw [length_unread]
  split
  · rfl
  · rw [unread_advance, unread, List.drop_drop]

theorem discard_spec (reader : LineReader) (n : Nat) :
    ((reader.discard n).1.unread, (reader.discard n).2) =
      (reader.unread.drop n, min n reader.unread.length) := by
  simp only [discard, length_unread, Prod.mk.injEq, and_true]
  rw [unread_advance, ← List.drop_drop]
  change reader.unread.drop _ = _
  rw [← length_unread]
  rcases Nat.le_total n reader.unread.length with hle | hge
  · rw [Nat.min_eq_left hle]
  · rw [Nat.min_eq_right hge, List.drop_length, List.drop_eq_nil_of_le hge]

/-- A line longer than the cap: it has ended too late, or not at all yet. -/
def Overlong (unread : Bytes) : Prop :=
  (¬ crlf <:+: unread ∧ maxLineLength < unread.length) ∨
  ∃ line rest, unread = line ++ crlf ++ rest ∧ ¬ crlf <:+: line ∧ maxLineLength < line.length

theorem lineOf_line {line : Bytes} (clear : ¬ crlf <:+: line) (short : line.length ≤ maxLineLength)
    (rest : Bytes) : lineOf (line ++ crlf ++ rest) = (rest, { line := some line }) := by
  have hfind : findPattern crlf 0 (line ++ crlf ++ rest) = some line.length :=
    findPattern_line (by decide) clear rest
  rw [lineOf, hfind]
  simp only [gt_iff_lt, Nat.not_lt.mpr short, if_false]
  simp [crlf, ← List.drop_drop]

theorem Overlong.lineOf {unread : Bytes} (h : Overlong unread) :
    LineReader.lineOf unread = (unread, { error := .lineTooLong }) := by
  rcases h with ⟨clear, long⟩ | ⟨line, rest, rfl, clear, long⟩
  · have hfind : findPattern crlf 0 unread = none := findPattern_eq_none_iff.mpr clear
    rw [LineReader.lineOf, hfind]
    simp only [gt_iff_lt, long, if_true]
  · have hfind : findPattern crlf 0 (line ++ crlf ++ rest) = some line.length :=
      findPattern_line (by decide) clear rest
    rw [LineReader.lineOf, hfind]
    simp only [gt_iff_lt, long, if_true]

/-- Three answers: the first line, a line over the cap, or nothing yet. -/
theorem lineOf_cases (unread : Bytes) :
    (∃ line rest, unread = line ++ crlf ++ rest ∧ ¬ crlf <:+: line ∧
      line.length ≤ maxLineLength ∧ lineOf unread = (rest, { line := some line })) ∨
    (Overlong unread ∧ lineOf unread = (unread, { error := .lineTooLong })) ∨
    (¬ crlf <:+: unread ∧ unread.length ≤ maxLineLength ∧ lineOf unread = (unread, {})) := by
  cases hf : findPattern crlf 0 unread with
  | none =>
    have clear : ¬ crlf <:+: unread := findPattern_eq_none_iff.mp hf
    rcases Nat.lt_or_ge maxLineLength unread.length with hlong | hshort
    · have long : Overlong unread := Or.inl ⟨clear, hlong⟩
      exact Or.inr (Or.inl ⟨long, long.lineOf⟩)
    · exact Or.inr (Or.inr ⟨clear, hshort, by simp [lineOf, hf, Nat.not_lt.mpr hshort]⟩)
  | some n =>
    obtain ⟨line, rest, rfl, rfl, clear⟩ := findPattern_split hf
    rcases Nat.lt_or_ge maxLineLength line.length with hlong | hshort
    · have long : Overlong (line ++ crlf ++ rest) := Or.inr ⟨line, rest, rfl, clear, hlong⟩
      exact Or.inr (Or.inl ⟨long, long.lineOf⟩)
    · exact Or.inl ⟨line, rest, rfl, clear, hshort, lineOf_line clear hshort rest⟩

end LineReader

end Carafe.Http
