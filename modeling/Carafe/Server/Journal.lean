import Carafe.Http.Memory
import Carafe.Server.Connection

/-!
# Runs of a connection

Any calls of `next_request`, with any rounds. A run keeps a journal: the bytes that
have arrived, each with the time of its read, the answers of the reader, and where
the request handed over last ends.
-/

namespace Carafe.Server
open Http Net TokenStream

/-- A byte and the time it was read at. -/
abbrev Stamped := UInt8 × TimePoint

def Round.arrivals (round : Round) : List Stamped :=
  match round.read with
  | .bytes chunk _ _ => chunk.map (·, round.after)
  | .ended | .failed _ _ => []

structure Journal where
  arrived : List Stamped := []
  results : List RequestResult := []
  /-- Where the request handed over last ends, and how much had arrived then. -/
  handed : Nat := 0
  seen : Nat := 0

namespace Journal

def bytes (journal : Journal) : Bytes := journal.arrived.map Prod.fst

def answer (journal : Journal) (parsed : RequestResult) (unread : Bytes) : Journal :=
  { journal with
    results := journal.results ++ [parsed]
    handed :=
      if parsed.request.isSome then journal.arrived.length - unread.length else journal.handed
    seen := if parsed.request.isSome then journal.arrived.length else journal.seen }

def read (journal : Journal) (round : Round) : Journal :=
  { journal with arrived := journal.arrived ++ round.arrivals }

end Journal

/-- Connections that passes of the loop in `next_request` lead to. -/
inductive Run (deadlines : Deadlines) : Journal → Connection → Prop where
  | fresh : Run deadlines {} { deadlines := deadlines }
  | answered {journal : Journal} {conn next : Connection} {parsed : RequestResult}
      (h : Run deadlines journal conn) (parse : conn.parse = (next, some parsed)) :
      Run deadlines (journal.answer parsed next.reader.unread) next
  | waited {journal : Journal} {conn waiting : Connection} (h : Run deadlines journal conn)
      (parse : conn.parse = (waiting, none)) : Run deadlines journal waiting
  | read {journal : Journal} {conn waiting next : Connection} {round : Round}
      (h : Run deadlines journal conn) (parse : conn.parse = (waiting, none))
      (receive : waiting.receive round = (next, none)) : Run deadlines (journal.read round) next

theorem Run.pass {deadlines : Deadlines} {journal : Journal} {conn : Connection}
    (h : Run deadlines journal conn) (round : Round) (idle : conn.parse.2 = none)
    (arrives : (conn.parse.1.receive round).2 = none) :
    Run deadlines (journal.read round) (conn.parse.1.receive round).1 :=
  .read h (Prod.ext rfl idle) (Prod.ext rfl arrives)

theorem Run.hand {deadlines : Deadlines} {journal : Journal} {conn : Connection}
    (h : Run deadlines journal conn) (ready : conn.parse.2.isSome = true) :
    Run deadlines (journal.answer (conn.parse.2.get ready) conn.parse.1.reader.unread)
      conn.parse.1 :=
  .answered h (Prod.ext rfl (Option.some_get ready).symm)

/-- A connection at the point where `next_request` reads from the socket. -/
def Waits (deadlines : Deadlines) (journal : Journal) (waiting : Connection) : Prop :=
  ∃ conn, Run deadlines journal conn ∧ conn.parse = (waiting, none)

namespace Connection

theorem parse_some {conn next : Connection} {parsed : RequestResult}
    (h : conn.parse = (next, some parsed)) : conn.reader.nextRequest = (next.reader, parsed) ∧
      (parsed.error ≠ .none ∨ parsed.request.isSome = true) ∧
      next = { conn with
        reader := next.reader
        requestInProgress :=
          if parsed.request.isSome then false else conn.requestInProgress } := by
  unfold parse at h
  dsimp only at h
  split at h
  · rename_i hanswer
    simp only [Prod.mk.injEq, Option.some.injEq] at h
    obtain ⟨rfl, rfl⟩ := h
    exact ⟨rfl, hanswer, rfl⟩
  · cases h

theorem parse_none {conn waiting : Connection} (h : conn.parse = (waiting, none)) :
    conn.reader.nextRequest.1 = waiting.reader ∧ conn.reader.nextRequest.2.error = .none ∧
      conn.reader.nextRequest.2.request = none ∧
      waiting = { conn with reader := waiting.reader } := by
  unfold parse at h
  dsimp only at h
  split at h
  · cases h
  · rename_i hanswer
    simp only [Prod.mk.injEq, and_true] at h
    subst h
    simp only [not_or, not_not, Bool.not_eq_true, Option.isSome_eq_false_iff,
      Option.isNone_iff_eq_none] at hanswer
    exact ⟨rfl, hanswer.1, hanswer.2, rfl⟩

theorem receive_none {waiting next : Connection} {round : Round}
    (h : waiting.receive round = (next, none)) : ∃ chunk arrived fits,
      round.read = .bytes chunk arrived fits ∧ next = waiting.received chunk round.after := by
  unfold receive at h
  split at h
  · cases h
  · cases hread : round.read with
    | bytes chunk arrived fits =>
      rw [hread] at h
      simp only [Prod.mk.injEq, and_true] at h
      exact ⟨chunk, arrived, fits, rfl, h.symm⟩
    | ended | failed =>
      rw [hread] at h
      cases h

@[simp] theorem received_reader (conn : Connection) (chunk : Bytes) (now : TimePoint) :
    (conn.received chunk now).reader = conn.reader.append chunk := by
  unfold received
  dsimp only
  split <;> rfl

@[simp] theorem received_deadlines (conn : Connection) (chunk : Bytes) (now : TimePoint) :
    (conn.received chunk now).deadlines = conn.deadlines := by
  unfold received
  dsimp only
  split <;> rfl

end Connection

/-- A connection keeps to what bounds the input it holds. -/
theorem Run.driven {deadlines : Deadlines} {journal : Journal} {conn : Connection}
    (h : Run deadlines journal conn) : Driven conn.reader := by
  induction h with
  | fresh => exact .fresh
  | answered _ parse ih =>
    have hcall := ih.call
    rw [(Connection.parse_some parse).1] at hcall
    exact hcall
  | waited _ parse ih =>
    rw [← (Connection.parse_none parse).1]
    exact ih.call
  | read _ parse receive ih =>
    obtain ⟨hreader, error, pending, -⟩ := Connection.parse_none parse
    obtain ⟨chunk, -, fits, -, rfl⟩ := Connection.receive_none receive
    rw [Connection.received_reader, ← hreader]
    exact ih.append error pending fits

theorem Round.arrivals_bytes {round : Round} {chunk : Bytes} {arrived : chunk ≠ []}
    {fits : chunk.length ≤ maxBufferLength} (h : round.read = .bytes chunk arrived fits) :
    round.arrivals.map Prod.fst = chunk := by
  simp [Round.arrivals, h, Function.comp_def]

/-- An answer without a request or an error is "nothing yet", from a live reader. -/
theorem ran_silent {stream : Bytes} {results : List RequestResult} {reader : RequestReader}
    (h : Ran stream results reader) (noError : reader.nextRequest.2.error = .none)
    (noRequest : reader.nextRequest.2.request = none) :
    reader.nextRequest.2 = {} ∧ reader.nextRequest.1.failure = .none ∧
      framing.Stuck reader.nextRequest.1.state reader.nextRequest.1.unread := by
  have live : reader.failure = .none := by
    by_contra lost
    rw [RequestReader.nextRequest_failed lost] at noError
    exact lost noError
  obtain ⟨p, stands⟩ := h.stands live
  have hanswers := stands.answers (RequestReader.nextRequest_answered stands.sane live)
  change reader.nextRequest.2 = {} ∧ reader.nextRequest.1.state.failure = .none ∧ _
  generalize reader.nextRequest.1.state = t at hanswers ⊢
  generalize reader.nextRequest.1.unread = rest at hanswers ⊢
  generalize reader.nextRequest.2 = result at hanswers noError noRequest ⊢
  cases hanswers with
  | verdict _ verdict =>
    cases verdict with
    | delivered => cases noRequest
    | refused => cases noError
    | failed lost => exact False.elim (lost noError)
  | pending _ stands stuck => exact ⟨rfl, stands.live, stuck⟩
  | @overlong _ _ _ s =>
    rw [refuseLine_answer] at noError
    exact False.elim (s.refuseLine_lost.1 noError)

theorem answersOf_answer {parsed : RequestResult}
    (h : parsed.error ≠ .none ∨ parsed.request.isSome = true) : answersOf [parsed] = [parsed] := by
  have hne : parsed ≠ {} := by
    rintro rfl
    simp at h
  simp [answersOf, hne]

theorem answersOf_silent : answersOf [({} : RequestResult)] = [] := by
  simp [answersOf]

/-- Asking a reader that has nothing yet leaves it stuck, with the same answers. -/
theorem ran_waiting {stream : Bytes} {results : List RequestResult} {conn waiting : Connection}
    (h : Ran stream results conn.reader) (parse : conn.parse = (waiting, none)) :
    ∃ results', Ran stream results' waiting.reader ∧ answersOf results' = answersOf results ∧
      waiting.reader.failure = .none ∧
      framing.Stuck waiting.reader.state waiting.reader.unread := by
  obtain ⟨hreader, noError, noRequest, -⟩ := Connection.parse_none parse
  obtain ⟨hsilent, live, stuck⟩ := ran_silent h noError noRequest
  rw [hreader] at live stuck
  have hcall := h.call
  rw [hsilent, hreader] at hcall
  exact ⟨_, hcall, by rw [answersOf_concat, answersOf_silent, List.append_nil], live, stuck⟩

theorem Journal.read_bytes (journal : Journal) {round : Round} {chunk : Bytes}
    {arrived : chunk ≠ []} {fits : chunk.length ≤ maxBufferLength}
    (h : round.read = .bytes chunk arrived fits) :
    (journal.read round).bytes = journal.bytes ++ chunk := by
  simp [bytes, read, Round.arrivals_bytes h]

/-- The journal is that of the reader. -/
theorem Run.ran {deadlines : Deadlines} {journal : Journal} {conn : Connection}
    (h : Run deadlines journal conn) : ∃ results, Ran journal.bytes results conn.reader ∧
      answersOf results = journal.results := by
  induction h with
  | fresh => exact ⟨[], .fresh, rfl⟩
  | @answered journal conn next parsed _ parse ih =>
    obtain ⟨results, hran, hanswers⟩ := ih
    obtain ⟨hnext, hanswer, -⟩ := Connection.parse_some parse
    have hcall := hran.call
    rw [hnext] at hcall
    refine ⟨_, hcall, ?_⟩
    rw [answersOf_concat, answersOf_answer hanswer, hanswers]
    rfl
  | waited _ parse ih =>
    obtain ⟨results, hran, hanswers⟩ := ih
    obtain ⟨results', hran', hsame, -⟩ := ran_waiting hran parse
    exact ⟨results', hran', hsame.trans hanswers⟩
  | @read journal conn waiting next round _ parse receive ih =>
    obtain ⟨results, hran, hanswers⟩ := ih
    obtain ⟨results', hran', hsame, -⟩ := ran_waiting hran parse
    obtain ⟨chunk, arrived, fits, hread, rfl⟩ := Connection.receive_none receive
    refine ⟨results', ?_, hsame.trans hanswers⟩
    rw [journal.read_bytes hread, Connection.received_reader]
    exact hran'.append chunk

/-- Where the reader stands when the socket is read. -/
theorem Waits.position {deadlines : Deadlines} {journal : Journal} {waiting : Connection}
    (h : Waits deadlines journal waiting) :
    Position journal.bytes journal.results waiting.reader.state waiting.reader.unread := by
  obtain ⟨conn, run, parse⟩ := h
  obtain ⟨results, hran, hanswers⟩ := run.ran
  obtain ⟨results', hran', hsame, live, stuck⟩ := ran_waiting hran parse
  obtain ⟨bytes, hcut, hreads⟩ := hran'.reads live
  rw [hsame, hanswers] at hreads
  rw [hcut]
  exact .of_reads hreads live stuck

/-- The request handed over last ends where the first whole requests end. -/
theorem Run.handed {deadlines : Deadlines} {journal : Journal} {conn : Connection}
    (h : Run deadlines journal conn) :
    journal.handed ≤ journal.seen ∧ journal.seen ≤ journal.arrived.length ∧
      ∃ results, Extents (journal.bytes.take journal.handed) results := by
  induction h with
  | fresh => exact ⟨Nat.le_refl _, Nat.le_refl _, [], .nil⟩
  | @answered journal conn next parsed run parse ih =>
    by_cases hrequest : parsed.request.isSome = true
    · obtain ⟨results, hran, -⟩ := run.ran
      obtain ⟨hnext, -, -⟩ := Connection.parse_some parse
      have hdelivered := hran.delivered
      rw [hnext] at hdelivered
      obtain ⟨bytes, hcut, whole⟩ := hdelivered (Option.isSome_iff_ne_none.mp hrequest)
      have hlen : journal.arrived.length - next.reader.unread.length = bytes.length := by
        have hbytes := congrArg List.length hcut
        simp only [Journal.bytes, List.length_map, List.length_append] at hbytes
        omega
      simp only [Journal.answer, hrequest, if_true]
      refine ⟨Nat.sub_le _ _, Nat.le_refl _, answersOf results ++ [parsed], ?_⟩
      rw [hlen]
      change Extents (journal.bytes.take bytes.length) _
      rw [hcut, List.take_left]
      exact whole
    · simpa [Journal.answer, hrequest, Journal.bytes] using ih
  | waited _ _ ih => exact ih
  | @read journal conn waiting next round _ _ _ ih =>
    obtain ⟨hhanded, hseen, results, hextents⟩ := ih
    have hlen : journal.seen ≤ (journal.read round).arrived.length := by
      simp only [Journal.read, List.length_append]
      omega
    have htake : (journal.read round).bytes.take journal.handed =
        journal.bytes.take journal.handed := by
      simp only [Journal.bytes, Journal.read, List.map_append]
      rw [List.take_append_of_le_length (by simp; omega)]
    exact ⟨hhanded, hlen, results, by rw [← htake] at hextents; exact hextents⟩

/-- Behind the request handed over last there is only one way to go on. -/
theorem Run.pending_eq {deadlines : Deadlines} {journal : Journal} {conn : Connection}
    (h : Run deadlines journal conn)
    (undrained : Unfinished (journal.bytes.drop journal.handed)) {done pending : List Stamped}
    {finished : List RequestResult} (cut : journal.arrived = done ++ pending)
    (whole : Extents (done.map Prod.fst) finished) (unfinished : Unfinished (pending.map Prod.fst)) :
    pending = journal.arrived.drop journal.handed := by
  obtain ⟨-, -, results, handed⟩ := h.handed
  have hsame : journal.bytes.take journal.handed ++ journal.bytes.drop journal.handed =
      done.map Prod.fst ++ pending.map Prod.fst := by
    rw [List.take_append_drop, Journal.bytes, cut, List.map_append]
  obtain ⟨-, -, hpending⟩ := handed.unique whole undrained unfinished hsame
  have hlen := congrArg List.length hpending
  simp only [Journal.bytes, List.length_drop, List.length_map] at hlen
  have hdrop : journal.arrived.drop (journal.arrived.length - pending.length) = pending := by
    rw [cut, List.length_append, Nat.add_sub_cancel, List.drop_left]
  have hle : pending.length ≤ journal.arrived.length := by
    rw [cut, List.length_append]
    omega
  have hhanded : journal.handed ≤ journal.arrived.length := by
    have hbounds := h.handed
    omega
  rw [← hdrop]
  congr 1
  omega

/-- The flag is set by the first read behind the last handover, and so is the deadline. -/
structure Clocked (deadlines : Deadlines) (journal : Journal) (conn : Connection) : Prop where
  limits : conn.deadlines = deadlines
  flag : conn.requestInProgress = true ↔ journal.seen < journal.arrived.length
  deadline : ∀ first ∈ (journal.arrived.drop journal.seen).head?,
    conn.requestDeadline = first.2 + deadlines.request.span

theorem Clocked.waiting {deadlines : Deadlines} {journal : Journal} {conn waiting : Connection}
    (h : Clocked deadlines journal conn) (parse : conn.parse = (waiting, none)) :
    Clocked deadlines journal waiting := by
  rw [(Connection.parse_none parse).2.2.2]
  exact ⟨h.limits, h.flag, h.deadline⟩

theorem Clocked.received {deadlines : Deadlines} {journal : Journal} {waiting : Connection}
    (h : Clocked deadlines journal waiting) (seen : journal.seen ≤ journal.arrived.length)
    {round : Round} {chunk : Bytes} {arrived : chunk ≠ []} {fits : chunk.length ≤ maxBufferLength}
    (hread : round.read = .bytes chunk arrived fits) :
    Clocked deadlines (journal.read round) (waiting.received chunk round.after) := by
  have harrivals : round.arrivals = chunk.map (·, round.after) := by simp [Round.arrivals, hread]
  have hpos : 0 < chunk.length := List.length_pos_of_ne_nil arrived
  have hlen : (journal.read round).seen < (journal.read round).arrived.length := by
    simp only [Journal.read, harrivals, List.length_append, List.length_map]
    omega
  by_cases hflag : waiting.requestInProgress = true
  · have hmore := h.flag.mp hflag
    refine ⟨by rw [Connection.received_deadlines, h.limits], ?_, ?_⟩
    · simpa [Connection.received, hflag] using hlen
    · have hdeadline : (waiting.received chunk round.after).requestDeadline =
          waiting.requestDeadline := by
        simp [Connection.received, hflag]
      intro first hfirst
      rw [hdeadline]
      refine h.deadline first ?_
      simp only [Journal.read, List.head?_drop] at hfirst ⊢
      rwa [List.getElem?_append_left hmore] at hfirst
  · have hall : journal.seen = journal.arrived.length := by
      have hnot := mt h.flag.mpr hflag
      omega
    refine ⟨by rw [Connection.received_deadlines, h.limits], ?_, ?_⟩
    · simpa [Connection.received, hflag] using hlen
    · have hdeadline : (waiting.received chunk round.after).requestDeadline =
          round.after + deadlines.request.span := by
        simp [Connection.received, hflag, h.limits]
      intro first hfirst
      rw [hdeadline]
      simp only [Journal.read, harrivals, List.head?_drop, hall] at hfirst
      rw [List.getElem?_append_right (Nat.le_refl _), Nat.sub_self, List.getElem?_map] at hfirst
      obtain ⟨ch, -, rfl⟩ := Option.map_eq_some_iff.mp hfirst
      rfl

theorem Run.clocked {deadlines : Deadlines} {journal : Journal} {conn : Connection}
    (h : Run deadlines journal conn) : Clocked deadlines journal conn := by
  induction h with
  | fresh => exact ⟨rfl, by simp, by simp⟩
  | @answered journal conn next parsed _ parse ih =>
    rw [(Connection.parse_some parse).2.2]
    by_cases hrequest : parsed.request.isSome = true
    · exact ⟨ih.limits, by simp [Journal.answer, hrequest], by simp [Journal.answer, hrequest]⟩
    · exact ⟨ih.limits, by simpa [Journal.answer, hrequest] using ih.flag,
        by simpa [Journal.answer, hrequest] using ih.deadline⟩
  | waited _ parse ih => exact ih.waiting parse
  | read run parse receive ih =>
    obtain ⟨chunk, arrived, fits, hread, rfl⟩ := Connection.receive_none receive
    exact (ih.waiting parse).received run.handed.2.1 hread

end Carafe.Server
