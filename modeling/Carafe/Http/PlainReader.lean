import Carafe.Http.LineReader
import Carafe.Library.Machines

/-!
# The line reader against a plain one

`RawLineReader` has the three members of the class and nothing known of them, and its
subtractions have no result where `std::size_t` would wrap. In front of it stands
`LineReader`, which carries the invariant, and in front of that a reader that stores
the unread bytes alone. A caller cannot tell the three apart.
-/

namespace Carafe.Http
open Search Machines

inductive LineCall where
  | append (more : Bytes)
  | nextLine
  | take (n : Nat)
  | discard (n : Nat)

inductive LineAnswer where
  | appended
  | line (result : LineResult)
  | taken (bytes : Option Bytes)
  | dropped (n : Nat)
  deriving DecidableEq

/-- A difference of two sizes. -/
def sizeSub (a b : Nat) : Option Nat := if b ≤ a then some (a - b) else none

theorem sizeSub_of_le {a b : Nat} (h : b ≤ a) : sizeSub a b = some (a - b) := if_pos h

structure RawLineReader where
  buffer : Bytes := []
  begin_ : Nat := 0
  scanned : Nat := 0
  deriving DecidableEq

namespace RawLineReader

def append (reader : RawLineReader) (more : Bytes) : Option RawLineReader :=
  if 0 < reader.begin_ ∧ reader.begin_ * 2 ≥ reader.buffer.length then
    (sizeSub reader.scanned reader.begin_).map fun scanned =>
      { buffer := reader.buffer.drop reader.begin_ ++ more, begin_ := 0, scanned := scanned }
  else some { reader with buffer := reader.buffer ++ more }

def nextLine (reader : RawLineReader) : Option (RawLineReader × LineResult) :=
  match findPattern crlf reader.scanned reader.buffer with
  | none =>
    (sizeSub reader.buffer.length reader.begin_).bind fun pending =>
      if pending > maxLineLength then some (reader, { error := .lineTooLong })
      else if reader.buffer.length < reader.begin_ + (crlf.length - 1) then
        some ({ reader with scanned := reader.begin_ }, {})
      else
        (sizeSub reader.buffer.length (crlf.length - 1)).map fun scanned =>
          ({ reader with scanned := scanned }, {})
  | some crlfPos =>
    (sizeSub crlfPos reader.begin_).map fun length =>
      if length > maxLineLength then (reader, { error := .lineTooLong })
      else
        ({ reader with begin_ := crlfPos + crlf.length, scanned := crlfPos + crlf.length },
          { line := some ((reader.buffer.drop reader.begin_).take length) })

def take (reader : RawLineReader) (n : Nat) : Option (RawLineReader × Option Bytes) :=
  (sizeSub reader.buffer.length reader.begin_).map fun pending =>
    if pending < n then (reader, none)
    else
      ({ reader with begin_ := reader.begin_ + n, scanned := reader.begin_ + n },
        some ((reader.buffer.drop reader.begin_).take n))

def discard (reader : RawLineReader) (n : Nat) : Option (RawLineReader × Nat) :=
  (sizeSub reader.buffer.length reader.begin_).map fun pending =>
    ({ reader with
        begin_ := reader.begin_ + min n pending, scanned := reader.begin_ + min n pending },
      min n pending)

def step (reader : RawLineReader) : LineCall → Option (RawLineReader × LineAnswer)
  | .append more => (reader.append more).map fun next => (next, .appended)
  | .nextLine => reader.nextLine.map fun next => (next.1, .line next.2)
  | .take n => (reader.take n).map fun next => (next.1, .taken next.2)
  | .discard n => (reader.discard n).map fun next => (next.1, .dropped next.2)

end RawLineReader

namespace LineReader

def step (reader : LineReader) : LineCall → LineReader × LineAnswer
  | .append more => (reader.append more, .appended)
  | .nextLine => (reader.nextLine.1, .line reader.nextLine.2)
  | .take n => ((reader.take n).1, .taken (reader.take n).2)
  | .discard n => ((reader.discard n).1, .dropped (reader.discard n).2)

def members (reader : LineReader) : RawLineReader := ⟨reader.buffer, reader.begin_, reader.scanned⟩

theorem members_append (reader : LineReader) (more : Bytes) :
    reader.members.append more = some (reader.append more).members := by
  by_cases h : 0 < reader.begin_ ∧ reader.begin_ * 2 ≥ reader.buffer.length
  · have hraw : reader.members.append more = (sizeSub reader.scanned reader.begin_).map
        fun scanned => ⟨reader.buffer.drop reader.begin_ ++ more, 0, scanned⟩ := if_pos h
    rw [hraw, sizeSub_of_le reader.begin_le_scanned, LineReader.append, dif_pos h]
    rfl
  · have hraw : reader.members.append more =
        some ⟨reader.buffer ++ more, reader.begin_, reader.scanned⟩ := if_neg h
    rw [hraw, LineReader.append, dif_neg h]
    rfl

theorem nextLine_none {reader : LineReader}
    (h : findPattern crlf reader.scanned reader.buffer = none) : reader.nextLine =
      if reader.buffer.length - reader.begin_ > maxLineLength then
        (reader, { error := .lineTooLong })
      else (reader.rescan h, {}) := by
  unfold nextLine
  split
  · rfl
  · rename_i hfind
    rw [h] at hfind
    cases hfind

theorem nextLine_some {reader : LineReader} {crlfPos : Nat}
    (h : findPattern crlf reader.scanned reader.buffer = some crlfPos) : reader.nextLine =
      if crlfPos - reader.begin_ > maxLineLength then (reader, { error := .lineTooLong })
      else (reader.advance (crlfPos + 2) (pattern_end h),
        { line := some ((reader.buffer.drop reader.begin_).take (crlfPos - reader.begin_)) }) := by
  unfold nextLine
  split
  · rename_i hfind
    rw [h] at hfind
    cases hfind
  · rename_i crlfPos' hfind
    cases hfind.symm.trans h
    rfl

/-- The search resumes behind `begin_`, and steps back only where there is a byte to. -/
theorem members_nextLine (reader : LineReader) :
    reader.members.nextLine = some (reader.nextLine.1.members, reader.nextLine.2) := by
  unfold RawLineReader.nextLine
  cases hfind : findPattern crlf reader.members.scanned reader.members.buffer with
  | none =>
    have hpending : sizeSub reader.members.buffer.length reader.members.begin_ =
        some (reader.buffer.length - reader.begin_) := sizeSub_of_le reader.begin_le
    rw [nextLine_none hfind]
    simp only [hpending, Option.bind_some]
    by_cases hlong : reader.buffer.length - reader.begin_ > maxLineLength
    · rw [if_pos hlong, if_pos hlong]
    rw [if_neg hlong, if_neg hlong]
    by_cases hshort : reader.buffer.length < reader.begin_ + 1
    · simp [members, rescan, crlf, hshort]
    · have hback : sizeSub reader.buffer.length 1 = some (reader.buffer.length - 1) :=
        sizeSub_of_le (by omega)
      simp [members, rescan, crlf, hshort, hback]
  | some crlfPos =>
    have hfrom : reader.begin_ ≤ crlfPos :=
      Nat.le_trans reader.begin_le_scanned (findPattern_some hfind).1
    have hlength : sizeSub crlfPos reader.members.begin_ = some (crlfPos - reader.begin_) :=
      sizeSub_of_le hfrom
    rw [nextLine_some hfind]
    simp only [hlength, Option.map_some]
    by_cases hlong : crlfPos - reader.begin_ > maxLineLength
    · rw [if_pos hlong, if_pos hlong]
    · rw [if_neg hlong, if_neg hlong]
      rfl

theorem members_take (reader : LineReader) (n : Nat) :
    reader.members.take n = some ((reader.take n).1.members, (reader.take n).2) := by
  have hpending : sizeSub reader.members.buffer.length reader.members.begin_ =
      some (reader.buffer.length - reader.begin_) := sizeSub_of_le reader.begin_le
  simp only [RawLineReader.take, hpending, Option.map_some, LineReader.take]
  split <;> rfl

theorem members_discard (reader : LineReader) (n : Nat) :
    reader.members.discard n = some ((reader.discard n).1.members, (reader.discard n).2) := by
  have hpending : sizeSub reader.members.buffer.length reader.members.begin_ =
      some (reader.buffer.length - reader.begin_) := sizeSub_of_le reader.begin_le
  simp only [RawLineReader.discard, hpending, Option.map_some]
  rfl

/-- The members go the way of the reader that carries the invariant. -/
theorem members_simulates : Simulates (fun raw reader => raw = members reader)
    RawLineReader.step (fun reader call => some (reader.step call)) := by
  rintro raw reader call rfl
  refine ⟨(reader.step call).1.members, (reader.step call).1, (reader.step call).2, ?_, rfl, rfl⟩
  cases call with
  | append more => simp [RawLineReader.step, members_append, step]
  | nextLine => simp [RawLineReader.step, members_nextLine, step]
  | take n => simp [RawLineReader.step, members_take, step]
  | discard n => simp [RawLineReader.step, members_discard, step]

end LineReader

/-- A reader that stores the unread bytes and looks for a line from their start. -/
def plainStep (unread : Bytes) : LineCall → Bytes × LineAnswer
  | .append more => (unread ++ more, .appended)
  | .nextLine => ((LineReader.lineOf unread).1, .line (LineReader.lineOf unread).2)
  | .take n =>
    if unread.length < n then (unread, .taken none) else (unread.drop n, .taken (some (unread.take n)))
  | .discard n => (unread.drop n, .dropped (min n unread.length))

namespace LineReader

theorem plainStep_unread (reader : LineReader) (call : LineCall) :
    plainStep reader.unread call = ((reader.step call).1.unread, (reader.step call).2) := by
  cases call with
  | append more => simp [plainStep, step]
  | nextLine =>
    have h := reader.nextLine_spec
    simp only [plainStep, step, ← h]
  | take n =>
    have h := reader.take_spec n
    simp only [plainStep, step]
    split at h
    · obtain ⟨hunread, htaken⟩ := Prod.mk.inj h
      rw [if_pos ‹_›, hunread, htaken]
    · obtain ⟨hunread, htaken⟩ := Prod.mk.inj h
      rw [if_neg ‹_›, hunread, htaken]
  | discard n =>
    obtain ⟨hunread, hdropped⟩ := Prod.mk.inj (reader.discard_spec n)
    simp only [plainStep, step, hunread, hdropped]

/-- What is scanned already and what is dead shows in no answer. -/
theorem plain_simulates : Simulates (fun reader unread => unread = LineReader.unread reader)
    (fun reader call => some (reader.step call))
    (fun unread call => some (plainStep unread call)) := by
  rintro reader unread call rfl
  exact ⟨_, _, _, rfl, congrArg some (reader.plainStep_unread call), rfl⟩

end LineReader

/-- No call of any sequence faults, each is answered as the plain reader answers it, and the
two offsets stay where the class needs them. -/
theorem RawLineReader.invisible (calls : List LineCall) : ∃ reader answers,
    run RawLineReader.step {} calls = some (reader, answers) ∧
    run (fun unread call => some (plainStep unread call)) [] calls =
      some (reader.buffer.drop reader.begin_, answers) ∧
    reader.begin_ ≤ reader.scanned ∧ reader.scanned ≤ reader.buffer.length ∧
    ∀ i, reader.begin_ ≤ i → i < reader.scanned → ¬ crlf <+: reader.buffer.drop i := by
  have sim := LineReader.members_simulates.comp LineReader.plain_simulates
  obtain ⟨_, _, answers, hraw, hplain, reader, rfl, rfl⟩ := sim.run calls ⟨{}, rfl, rfl⟩
  exact ⟨reader.members, answers, hraw, hplain, reader.begin_le_scanned, reader.scanned_le,
    reader.clear⟩

end Carafe.Http
