import Carafe.Http.Memory
import Carafe.Http.Progress
import Carafe.Library.History
import Mathlib.Algebra.BigOperators.Group.List.Basic

/-!
# What a connection costs to read

Three counts of the work behind appends and calls in any order: the bytes moved when
the dead prefix is dropped, the bytes a search for a terminator looks at, and the
rounds of the loop. However the input is cut, each is linear in its length.
-/

namespace Carafe.Http
open Search History

namespace LineReader

/-- The bytes that an append moves down, over the dead prefix. -/
def moved (reader : LineReader) : Nat :=
  if 0 < reader.begin_ ∧ reader.begin_ * 2 ≥ reader.buffer.length then
    reader.buffer.length - reader.begin_
  else 0

/-- The bytes that the search of `next_line` looks at. -/
def searched (reader : LineReader) : Nat :=
  match findPattern crlf reader.scanned reader.buffer with
  | some crlfPos => crlfPos + crlf.length - reader.scanned
  | none => reader.buffer.length - reader.scanned

def unscanned (reader : LineReader) : Nat := reader.buffer.length - reader.scanned

/-- No compaction moves more bytes than it reclaims. -/
theorem moved_append (reader : LineReader) (more : Bytes) :
    (reader.append more).buffer.length + reader.moved ≤
      reader.buffer.length + more.length := by
  have := reader.begin_le
  unfold append moved
  split
  · simp only [List.length_append, List.length_drop]
    omega
  · simp only [List.length_append]
    omega

/-- Both offsets shift with the buffer. -/
theorem unscanned_append (reader : LineReader) (more : Bytes) :
    (reader.append more).unscanned = reader.unscanned + more.length := by
  have := reader.begin_le
  have := reader.begin_le_scanned
  have := reader.scanned_le
  unfold append unscanned
  split
  · simp only [List.length_append, List.length_drop]
    omega
  · simp only [List.length_append]
    omega

/-- What `next_line` looks at is not looked at again, but for the last byte and behind a line
over the cap. -/
theorem nextLine_searched (reader : LineReader) :
    (reader.nextLine.2.error = .lineTooLong ∧ reader.searched ≤ reader.unscanned) ∨
    (reader.nextLine.2 = {} ∧
      reader.nextLine.1.unscanned + reader.searched ≤ reader.unscanned + 1) ∨
    (reader.nextLine.2.error = .none ∧
      reader.nextLine.1.scanned = reader.nextLine.1.begin_ ∧
      reader.nextLine.1.unscanned + reader.searched = reader.unscanned) := by
  have := reader.scanned_le
  have := reader.begin_le_scanned
  unfold nextLine
  split
  · rename_i hnone
    have hsearched : reader.searched = reader.unscanned := by simp [searched, unscanned, hnone]
    split
    · exact Or.inl ⟨rfl, Nat.le_of_eq hsearched⟩
    · refine Or.inr (Or.inl ⟨rfl, ?_⟩)
      simp only [rescan, unscanned] at hsearched ⊢
      split <;> omega
  · rename_i crlfPos hsome
    have hsearched : reader.searched = crlfPos + 2 - reader.scanned := by
      unfold searched
      rw [hsome]
      rfl
    have hend := pattern_end hsome
    have hfrom := (findPattern_some hsome).1
    split
    · refine Or.inl ⟨rfl, ?_⟩
      simp only [unscanned]
      omega
    · refine Or.inr (Or.inr ⟨rfl, rfl, ?_⟩)
      simp only [advance, unscanned]
      omega

/-- Bytes handed over from where the scan stands are not searched. -/
theorem advance_unscanned (reader : LineReader) {position : Nat}
    (h : position ≤ reader.buffer.length) (ahead : reader.scanned ≤ position) :
    (reader.advance position h).unscanned ≤ reader.unscanned := by
  simp only [advance, unscanned]
  omega

theorem take_aimed {reader : LineReader} (h : reader.scanned = reader.begin_) (n : Nat) :
    (reader.take n).1.scanned = (reader.take n).1.begin_ ∧
      (reader.take n).1.unscanned ≤ reader.unscanned := by
  unfold take
  split
  · exact ⟨h, Nat.le_refl _⟩
  · exact ⟨rfl, reader.advance_unscanned _ (by omega)⟩

theorem discard_aimed {reader : LineReader} (h : reader.scanned = reader.begin_) (n : Nat) :
    (reader.discard n).1.scanned = (reader.discard n).1.begin_ ∧
      (reader.discard n).1.unscanned ≤ reader.unscanned :=
  ⟨rfl, reader.advance_unscanned _ (by omega)⟩

theorem append_aimed {reader : LineReader} (more : Bytes) (h : reader.scanned = reader.begin_) :
    (reader.append more).scanned = (reader.append more).begin_ := by
  unfold append
  split
  · simp only
    omega
  · exact h

end LineReader

theorem Assembly.onLine_long (a : Assembly) {read : LineResult} (h : read.error = .lineTooLong) :
    a.onLine read = handOver a.refuseLine := by
  obtain ⟨error, line⟩ := read
  cases h
  rfl

namespace RequestReader

/-- Only the phases that read lines search. -/
def searched (reader : RequestReader) : Nat :=
  if reader.phase.isLine then reader.lineReader.searched else 0

/-- What is left to search; a reader that has failed searches no more. -/
def unsearched (reader : RequestReader) : Nat :=
  if reader.failure = .none then reader.lineReader.unscanned else 0

/-- Where bytes are counted off, the scan starts where reading does. -/
structure Steady (reader : RequestReader) : Prop where
  visited : Visited reader
  aimed : reader.phase.isLine = false → reader.lineReader.scanned = reader.lineReader.begin_

theorem unsearched_le (reader : RequestReader) :
    reader.unsearched ≤ reader.lineReader.unscanned := by
  unfold unsearched
  split <;> omega

theorem unsearched_live {reader : RequestReader} (live : reader.failure = .none) :
    reader.unsearched = reader.lineReader.unscanned := by
  rw [unsearched, if_pos live]

theorem unsearched_lost {reader : RequestReader} (lost : reader.failure ≠ .none) :
    reader.unsearched = 0 := by
  rw [unsearched, if_neg lost]

theorem iterate_line {reader : RequestReader} (h : reader.phase.isLine = true) :
    reader.iterate = reader.readNextLine := by
  unfold iterate
  cases hphase : reader.phase with
  | requestLine | headers | chunkSize | trailers => rfl
  | body | discard | chunkData =>
    rw [hphase] at h
    cases h

theorem iterate_bytes {reader : RequestReader} (h : reader.phase.isLine = false) :
    reader.iterate = reader.readBodyBytes := by
  unfold iterate
  cases hphase : reader.phase with
  | body | discard | chunkData => rfl
  | requestLine | headers | chunkSize | trailers =>
    rw [hphase] at h
    cases h

theorem readNextLine_aimed {reader : RequestReader} (h : reader.phase.isLine = true)
    (off : reader.readNextLine.1.phase.isLine = false) :
    reader.readNextLine.1.lineReader.scanned = reader.readNextLine.1.lineReader.begin_ := by
  change (reader.onLine reader.lineReader.nextLine.2).1.phase.isLine = false at off
  rcases reader.lineReader.nextLine_searched with ⟨herror, -⟩ | ⟨hnone, -⟩ | ⟨-, haimed, -⟩
  · have hphase : (reader.onLine reader.lineReader.nextLine.2).1.phase = reader.phase := by
      rw [reader.onLine_long herror]
      obtain ⟨error, -, heq⟩ := reader.refuseLine_fails
      rw [heq]
      rfl
    rw [hphase, h] at off
    cases off
  · rw [hnone] at off
    change reader.phase.isLine = false at off
    rw [h] at off
    cases off
  · exact haimed

/-- A line is searched once; only waiting for the rest of one looks at a byte again. -/
theorem readNextLine_paid {reader : RequestReader} (h : reader.phase.isLine = true)
    (live : reader.failure = .none) :
    (reader.readNextLine.2 = none →
      reader.readNextLine.1.unsearched + reader.searched ≤ reader.unsearched) ∧
    reader.readNextLine.1.unsearched + reader.searched ≤ reader.unsearched + 1 := by
  have hsearched : reader.searched = reader.lineReader.searched := by rw [searched, if_pos h]
  have hlive := unsearched_live live
  have hle := reader.readNextLine.1.unsearched_le
  have hreader : reader.readNextLine.1.lineReader.unscanned =
    reader.lineReader.nextLine.1.unscanned := rfl
  rcases reader.lineReader.nextLine_searched with ⟨herror, hcost⟩ | ⟨hnone, hcost⟩ | ⟨-, -, hcost⟩
  · have hfails : reader.onLine reader.lineReader.nextLine.2 =
      Assembly.handOver reader.refuseLine := reader.onLine_long herror
    have hlost : (reader.onLine reader.lineReader.nextLine.2).1.failure ≠ .none := by
      rw [hfails]
      exact reader.refuseLine_lost.1
    have hzero : reader.readNextLine.1.unsearched = 0 := unsearched_lost hlost
    refine ⟨fun hgo => ?_, by omega⟩
    change (reader.onLine reader.lineReader.nextLine.2).2 = none at hgo
    rw [hfails] at hgo
    cases hgo
  · refine ⟨fun hgo => ?_, by omega⟩
    change (reader.onLine reader.lineReader.nextLine.2).2 = none at hgo
    rw [hnone] at hgo
    cases hgo
  · exact ⟨fun _ => by omega, by omega⟩

/-- Counting bytes off searches nothing. -/
theorem readBodyBytes_paid {reader : RequestReader} (h : reader.phase.isLine = false)
    (aimed : reader.lineReader.scanned = reader.lineReader.begin_) :
    reader.readBodyBytes.1.lineReader.scanned = reader.readBodyBytes.1.lineReader.begin_ ∧
      reader.readBodyBytes.1.lineReader.unscanned + reader.searched ≤
        reader.lineReader.unscanned := by
  have hsearched : reader.searched = 0 := by simp [searched, h]
  rw [hsearched]
  unfold readBodyBytes
  split
  · exact LineReader.discard_aimed aimed _
  · exact LineReader.take_aimed aimed _
  · exact LineReader.take_aimed aimed _

theorem iterate_steady {reader : RequestReader} (h : reader.Steady)
    (live : reader.failure = .none) : reader.iterate.1.Steady where
  visited := h.visited.round live
  aimed := by
    cases hline : reader.phase.isLine with
    | true =>
      rw [iterate_line hline]
      exact readNextLine_aimed hline
    | false =>
      rw [iterate_bytes hline]
      exact fun _ => (readBodyBytes_paid hline (h.aimed hline)).1

/-- No round gives a byte back. -/
theorem iterate_length {reader : RequestReader} (h : reader.Steady) :
    reader.iterate.1.unread.length ≤ reader.unread.length := by
  obtain ⟨taken, hcut, -⟩ := h.visited.takes
  have hlength := congrArg List.length hcut
  rw [List.length_append] at hlength
  omega

/-- What a round of a live reader searches, it does not search again. -/
theorem iterate_paid {reader : RequestReader} (h : reader.Steady) (live : reader.failure = .none) :
    (reader.iterate.2 = none →
      reader.iterate.1.unsearched + reader.searched ≤ reader.unsearched) ∧
    reader.iterate.1.unsearched + reader.searched ≤ reader.unsearched + 1 := by
  cases hline : reader.phase.isLine with
  | true =>
    rw [iterate_line hline]
    exact readNextLine_paid hline live
  | false =>
    have hlive := unsearched_live live
    have hle := reader.readBodyBytes.1.unsearched_le
    have hpaid := (readBodyBytes_paid hline (h.aimed hline)).2
    rw [iterate_bytes hline]
    exact ⟨fun _ => by omega, by omega⟩

end RequestReader

/-- Rounds of the loop, and the bytes they search. -/
structure Work where
  rounds : Nat := 0
  searched : Nat := 0
  deriving DecidableEq, Repr

namespace RequestReader

def loopWork (reader : RequestReader) : Work :=
  match h : reader.iterate with
  | (_, some _) => { rounds := 1, searched := reader.searched }
  | (next, none) =>
    have : next.pendingWork next.unread < reader.pendingWork reader.unread := by
      have hshrinks := reader.iterate_shrinks
      rw [h] at hshrinks
      exact hshrinks (by simp [GoesOn])
    let rest := loopWork next
    { rounds := rest.rounds + 1, searched := reader.searched + rest.searched }
termination_by reader.pendingWork reader.unread

/-- The work of `next_request`. -/
def nextWork (reader : RequestReader) : Work :=
  if reader.failure ≠ .none then {} else reader.loopWork

theorem loopWork_answer {reader next : RequestReader} {result : RequestResult}
    (h : reader.iterate = (next, some result)) :
    reader.loopWork = { rounds := 1, searched := reader.searched } := by
  rw [loopWork]
  split
  · rfl
  · rename_i hgo
    rw [h] at hgo
    cases hgo

theorem loopWork_goes {reader next : RequestReader} (h : reader.iterate = (next, none)) :
    reader.loopWork =
      { rounds := next.loopWork.rounds + 1
        searched := reader.searched + next.loopWork.searched } := by
  rw [loopWork]
  split
  · rename_i hanswer
    rw [h] at hanswer
    cases hanswer
  · rename_i hgo
    rw [h] at hgo
    cases hgo
    rfl

theorem loop_paid {reader : RequestReader} (h : reader.Steady) (live : reader.failure = .none) :
    reader.loop.1.Steady ∧
      reader.loop.1.unread.length + reader.loopWork.rounds ≤ reader.unread.length + 1 ∧
      reader.loop.1.unsearched + reader.loopWork.searched ≤ reader.unsearched + 1 := by
  fun_induction loop reader with
  | case1 reader next result hiterate =>
    have hsteady := iterate_steady h live
    have hpaid := (iterate_paid h live).2
    have hshorter := iterate_length h
    rw [hiterate] at hsteady hpaid hshorter
    rw [loopWork_answer hiterate]
    exact ⟨hsteady, Nat.succ_le_succ hshorter, hpaid⟩
  | case2 reader next hiterate hlt ih =>
    have hsteady := iterate_steady h live
    have hcost := (iterate_paid h live).1 (by rw [hiterate])
    have hless := h.visited.shrinks (by rw [hiterate])
    rw [hiterate] at hsteady hcost hless
    obtain ⟨hlast, hrounds, hsearched⟩ := ih hsteady (h.visited.live_next live hiterate).2
    rw [loopWork_goes hiterate]
    refine ⟨hlast, ?_, ?_⟩
    · simp only at hless ⊢
      omega
    · simp only at hcost ⊢
      omega

theorem nextRequest_paid {reader : RequestReader} (h : reader.Steady) :
    reader.nextRequest.1.Steady ∧
      reader.nextRequest.1.unread.length + reader.nextWork.rounds ≤ reader.unread.length + 1 ∧
      reader.nextRequest.1.unsearched + reader.nextWork.searched ≤ reader.unsearched + 1 := by
  by_cases live : reader.failure = .none
  · have hwork : reader.nextWork = reader.loopWork := by rw [nextWork, if_neg (by simp [live])]
    rw [nextRequest_live live, hwork]
    exact loop_paid h live
  · have hwork : reader.nextWork = {} := by rw [nextWork, if_pos live]
    rw [nextRequest_failed live, hwork]
    exact ⟨h, Nat.le_succ _, Nat.le_succ _⟩

theorem append_steady {reader : RequestReader} (h : reader.Steady) (more : Bytes) :
    (reader.append more).Steady where
  visited := h.visited.append more
  aimed hline := reader.lineReader.append_aimed more (h.aimed hline)

theorem append_unsearched (reader : RequestReader) (more : Bytes) :
    (reader.append more).unsearched ≤ reader.unsearched + more.length := by
  have hunscanned := reader.lineReader.unscanned_append more
  unfold unsearched
  change (if reader.failure = _ then (reader.lineReader.append more).unscanned else 0) ≤ _
  split <;> omega

end RequestReader

/-- What the owner of a reader does to it. -/
inductive Op where
  | append (more : Bytes)
  | nextRequest

namespace Op

def apply (reader : RequestReader) : Op → RequestReader
  | .append more => reader.append more
  | .nextRequest => reader.nextRequest.1

def appended : Op → Nat
  | .append more => more.length
  | .nextRequest => 0

def calls : Op → Nat
  | .append _ => 0
  | .nextRequest => 1

def moved (reader : RequestReader) : Op → Nat
  | .append _ => reader.lineReader.moved
  | .nextRequest => 0

def work (reader : RequestReader) : Op → Work
  | .append _ => {}
  | .nextRequest => reader.nextWork

theorem steady {reader : RequestReader} (h : reader.Steady) (op : Op) :
    (op.apply reader).Steady := by
  cases op with
  | append more => exact RequestReader.append_steady h more
  | nextRequest => exact (RequestReader.nextRequest_paid h).1

end Op

theorem RequestReader.fresh_steady : ({} : RequestReader).Steady :=
  ⟨.fresh, fun _ => rfl⟩

/-- Reading is linear: over any sequence of appends and calls, dropping the dead prefix moves
no more bytes than were appended, and searching looks at no more than these and one for each
call, in no more rounds. -/
theorem RequestReader.reads_linear (ops : List Op) :
    spent Op.apply Op.moved {} ops ≤ (ops.map Op.appended).sum ∧
    spent Op.apply (fun reader op => (op.work reader).searched) {} ops ≤
      (ops.map Op.appended).sum + (ops.map Op.calls).sum ∧
    spent Op.apply (fun reader op => (op.work reader).rounds) {} ops ≤
      (ops.map Op.appended).sum + (ops.map Op.calls).sum := by
  have hcredit : (ops.map fun op => op.appended + op.calls).sum =
      (ops.map Op.appended).sum + (ops.map Op.calls).sum := List.sum_map_add
  refine ⟨?_, ?_, ?_⟩
  · have hpaid := spent_le Op.apply Op.moved (fun _ => True)
      (fun reader => reader.lineReader.buffer.length) Op.appended (fun _ _ _ => trivial) ?_ {}
      trivial ops
    · simp only [List.length_nil, Nat.zero_add] at hpaid
      omega
    · intro reader op _
      cases op with
      | append more => exact reader.lineReader.moved_append more
      | nextRequest => exact Nat.le_of_eq (congrArg _ reader.nextRequest_buffer)
  · have hpaid := spent_le Op.apply (fun reader op => (op.work reader).searched) Steady unsearched
      (fun op => op.appended + op.calls) (fun _ op h => op.steady h) ?_ {} fresh_steady ops
    · rw [hcredit] at hpaid
      have hzero : ({} : RequestReader).unsearched = 0 := rfl
      omega
    · intro reader op h
      cases op with
      | append more => exact reader.append_unsearched more
      | nextRequest => exact (nextRequest_paid h).2.2
  · have hpaid := spent_le Op.apply (fun reader op => (op.work reader).rounds) Steady
      (fun reader => reader.unread.length) (fun op => op.appended + op.calls)
      (fun _ op h => op.steady h) ?_ {} fresh_steady ops
    · rw [hcredit] at hpaid
      simp only [fresh_unread, List.length_nil, Nat.zero_add] at hpaid
      omega
    · intro reader op h
      cases op with
      | append more => simp [Op.apply, Op.work, Op.appended, Op.calls]
      | nextRequest => exact (nextRequest_paid h).2.1

end Carafe.Http
