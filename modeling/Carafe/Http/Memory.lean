import Carafe.Http.Isolation
import Carafe.Http.Extents

/-!
# Memory held for one connection

A connection appends only when the reader has nothing to answer, and then no phase
has left it more unread bytes than it waits for. The dead prefix of the buffer stays
until it outweighs what is unread, so the buffer is at most twice that and one read.
-/

namespace Carafe.Http
open Search TokenStream

namespace LineReader

/-- Behind an append the dead prefix is shorter than what was unread. -/
theorem append_length (reader : LineReader) (more : Bytes) :
    (reader.append more).buffer.length ≤ 2 * reader.unread.length + more.length := by
  have hle := reader.begin_le
  rw [length_unread]
  unfold append
  split
  · simp only [List.length_append, List.length_drop]
    omega
  · simp only [List.length_append]
    omega

@[simp] theorem nextLine_buffer (reader : LineReader) :
    reader.nextLine.1.buffer = reader.buffer := by
  unfold nextLine
  split
  · split <;> rfl
  · split <;> rfl

@[simp] theorem take_buffer (reader : LineReader) (n : Nat) :
    (reader.take n).1.buffer = reader.buffer := by
  unfold take
  split <;> rfl

@[simp] theorem discard_buffer (reader : LineReader) (n : Nat) :
    (reader.discard n).1.buffer = reader.buffer := rfl

end LineReader

namespace RequestReader

theorem iterate_buffer (reader : RequestReader) :
    reader.iterate.1.lineReader.buffer = reader.lineReader.buffer := by
  have hbytes : reader.readBodyBytes.1.lineReader.buffer = reader.lineReader.buffer := by
    unfold readBodyBytes
    split
    · exact LineReader.discard_buffer _ _
    · exact LineReader.take_buffer _ _
    · exact LineReader.take_buffer _ _
  unfold iterate
  cases reader.phase with
  | body | discard | chunkData => exact hbytes
  | requestLine | headers | chunkSize | trailers => exact LineReader.nextLine_buffer _

theorem loop_buffer (reader : RequestReader) :
    reader.loop.1.lineReader.buffer = reader.lineReader.buffer := by
  fun_induction loop reader with
  | case1 reader next result hiterate =>
    have hbuffer := reader.iterate_buffer
    rw [hiterate] at hbuffer
    exact hbuffer
  | case2 reader next hiterate hlt ih =>
    have hbuffer := reader.iterate_buffer
    rw [hiterate] at hbuffer
    exact ih.trans hbuffer

/-- A call moves offsets only. -/
theorem nextRequest_buffer (reader : RequestReader) :
    reader.nextRequest.1.lineReader.buffer = reader.lineReader.buffer := by
  unfold nextRequest
  split
  · rfl
  · exact loop_buffer reader

end RequestReader

/-- Less is unread than the phase waits for. -/
def Waiting (a : Assembly) (unread : Bytes) : Prop :=
  match a.phase with
  | .requestLine | .headers | .chunkSize | .trailers => unread.length ≤ maxLineLength
  | .body => unread.length < a.bodyBytes
  | .chunkData => unread.length < a.chunkBytes + crlfSize
  | .discard => unread = []

theorem Waiting.settle {a : Assembly} {unread : Bytes} (h : Waiting a.settle unread) :
    Waiting a unread := by
  unfold Waiting at *
  rw [Assembly.settle_phase] at h
  cases hphase : a.phase with
  | chunkData =>
    rw [hphase, Assembly.settle_chunkData hphase] at h
    exact h
  | body | discard | requestLine | headers | chunkSize | trailers =>
    rw [hphase] at h
    exact h

theorem Stands.waiting {p rest : Bytes} {s : Assembly} (h : Stands p s)
    (stuck : framing.Stuck s rest) (short : s.phase.isLine = true → rest.length ≤ maxLineLength) :
    Waiting s rest := by
  -- Enough bytes for the phase would be a token of it.
  have few : ∀ n, 0 < n → (∀ c : Bytes, c.length = n → s.Token c) → rest.length < n := by
    intro n pos htoken
    by_contra hmany
    have hlength : (rest.take n).length = n := by
      rw [List.length_take]
      omega
    exact stuck _ (htoken _ hlength) (List.take_prefix n rest)
  unfold Waiting
  cases hphase : s.phase with
  | requestLine | headers | chunkSize | trailers => exact short (by rw [hphase]; rfl)
  | body =>
    have pos := h.sane (Or.inl hphase)
    exact few _ pos fun c hc => ⟨h.live, by rw [hphase]; exact ⟨pos, hc⟩⟩
  | chunkData =>
    exact few _ (Nat.succ_pos _) fun c hc => ⟨h.live, by rw [hphase]; exact hc⟩
  | discard =>
    have pos := h.sane (Or.inr hphase)
    have hnone := few 1 Nat.one_pos fun c hc => ⟨h.live, by rw [hphase]; exact ⟨pos, hc⟩⟩
    exact List.length_eq_zero_iff.mp (Nat.lt_one_iff.mp hnone)

/-- What is waited for fits in the largest body and its terminator. -/
theorem Stands.unread_le {p rest : Bytes} {s : Assembly} (h : Stands p s) (waiting : Waiting s rest) :
    rest.length ≤ maxBodyBytes + 1 := by
  have hline : rest.length ≤ maxLineLength → rest.length ≤ maxBodyBytes + 1 := by
    intro hle
    simp only [maxLineLength, maxBodyBytes] at *
    omega
  cases h with
  | draining h =>
    unfold Waiting at waiting
    rw [h.phase] at waiting
    simp [show rest = [] from waiting]
  | partly h =>
    cases h with
    | start | head | between | trailing => exact hline waiting
    | body _ _ _ fits =>
      have hlt : rest.length < _ := waiting
      simp only [Head.awaiting] at hlt
      omega
    | inChunk _ _ _ line _ fits =>
      have hlt : rest.length < _ := waiting
      simp only [Head.inChunk, crlfSize] at hlt
      omega

/-- Nothing yet is what a live reader answers when it waits. -/
theorem Answers.waiting {p unread rest : Bytes} {t : Assembly} {result : RequestResult}
    (h : Answers p unread t rest result) (error : result.error = .none)
    (pending : result.request = none) : ∃ d, Stands d t ∧ Waiting t rest := by
  cases h with
  | @verdict _ d _ _ _ _ verdict =>
    cases verdict with
    | delivered => cases pending
    | refused => cases error
    | failed lost => exact False.elim (lost error)
  | @pending _ d _ _ _ stands stuck short => exact ⟨d, stands, stands.waiting stuck short⟩
  | @overlong _ _ _ s _ _ _ _ =>
    rw [refuseLine_answer] at error
    exact False.elim (s.refuseLine_lost.1 error)

structure Assembly.Capped (a : Assembly) : Prop where
  body : a.request.body.length ≤ maxBodyBytes
  headBytes : a.headBytes ≤ maxHeadBytes
  fieldCount : a.fieldCount ≤ maxFields

theorem Partly.capped {p : Bytes} {s : Assembly} (h : Partly p s) : s.Capped := by
  cases h with
  | start => exact ⟨Nat.zero_le _, Nat.zero_le _, Nat.zero_le _⟩
  | head head => exact ⟨Nat.zero_le _, head.headSize, head.fieldCount⟩
  | @body head complete => exact ⟨Nat.zero_le _, complete.size, head.fieldCount⟩
  | @between head complete _ _ fits => exact ⟨fits, complete.size, head.fieldCount⟩
  | @inChunk head complete _ _ _ _ fits =>
    exact ⟨Nat.le_of_add_right_le fits, complete.size, head.fieldCount⟩
  | trailing _ _ _ fits _ _ _ count size => exact ⟨fits, size, count⟩

theorem Account.capped {bytes : Bytes} {results : List RequestResult} {s : Assembly}
    (h : Account bytes results s) : s.Capped := by
  cases h with
  | between _ partly => exact partly.capped
  | @dropping _ _ _ _ head complete => exact ⟨Nat.zero_le _, complete.size, head.fieldCount⟩

/-- Readers as a connection drives them: it appends one read at a time, and only behind an
answer that there is nothing yet. -/
inductive Driven : RequestReader → Prop where
  | fresh : Driven {}
  | call {reader : RequestReader} (h : Driven reader) : Driven reader.nextRequest.1
  | append {reader : RequestReader} (h : Driven reader)
      (error : reader.nextRequest.2.error = .none)
      (pending : reader.nextRequest.2.request = none) {more : Bytes} (short : more.length ≤ 4096) :
      Driven (reader.nextRequest.1.append more)

theorem Driven.ran {reader : RequestReader} (h : Driven reader) :
    ∃ stream results, Ran stream results reader := by
  induction h with
  | fresh => exact ⟨_, _, .fresh⟩
  | call _ ih =>
    obtain ⟨stream, results, hran⟩ := ih
    exact ⟨_, _, hran.call⟩
  | append _ _ _ _ ih =>
    obtain ⟨stream, results, hran⟩ := ih
    exact ⟨_, _, hran.call.append _⟩

theorem Ran.waiting {stream : Bytes} {results : List RequestResult} {reader : RequestReader}
    (h : Ran stream results reader) (error : reader.nextRequest.2.error = .none)
    (pending : reader.nextRequest.2.request = none) :
    ∃ d, Stands d reader.nextRequest.1.state ∧
      Waiting reader.nextRequest.1.state reader.nextRequest.1.unread := by
  have live : reader.failure = .none := by
    by_contra lost
    rw [RequestReader.nextRequest_failed lost] at error
    exact lost error
  obtain ⟨p, stands⟩ := h.stands live
  exact (stands.answers (RequestReader.nextRequest_answered stands.sane live)).waiting error pending

theorem Ran.capped {stream : Bytes} {results : List RequestResult} {reader : RequestReader}
    (h : Ran stream results reader) (live : reader.failure = .none) : reader.Capped := by
  obtain ⟨bytes, -, hreads⟩ := h.reads live
  have hcapped := (Account.front.reads hreads live).capped
  exact ⟨hcapped.body, hcapped.headBytes, hcapped.fieldCount⟩

theorem Driven.buffer_le {reader : RequestReader} (h : Driven reader) :
    reader.lineReader.buffer.length ≤ 2 * (maxBodyBytes + 2) + 4096 := by
  induction h with
  | fresh => exact Nat.zero_le _
  | call _ ih =>
    rw [RequestReader.nextRequest_buffer]
    exact ih
  | @append reader h error pending more short _ =>
    obtain ⟨stream, results, hran⟩ := h.ran
    obtain ⟨d, stands, waiting⟩ := hran.waiting error pending
    have hunread := stands.unread_le waiting
    have hlength := reader.nextRequest.1.lineReader.append_length more
    change (reader.nextRequest.1.lineReader.append more).buffer.length ≤ _
    change reader.nextRequest.1.lineReader.unread.length ≤ _ at hunread
    omega

/-- One connection holds a bounded amount of input, whatever it is sent. -/
theorem Driven.bounded {reader : RequestReader} (h : Driven reader) :
    (reader.nextRequest.2.error = .none → reader.nextRequest.2.request = none →
      Waiting reader.nextRequest.1.toAssembly reader.nextRequest.1.unread) ∧
    reader.lineReader.buffer.length ≤ 2 * (maxBodyBytes + 2) + 4096 ∧
    (reader.failure = .none → reader.Capped) := by
  obtain ⟨stream, results, hran⟩ := h.ran
  refine ⟨fun error pending => ?_, h.buffer_le, hran.capped⟩
  obtain ⟨d, -, waiting⟩ := hran.waiting error pending
  exact waiting.settle

/-- Half a request line is waited for. -/
theorem Driven.bounded_half :
    Waiting (({} : RequestReader).nextRequest.1.append (bytes "GET /")).nextRequest.1.toAssembly
      (({} : RequestReader).nextRequest.1.append (bytes "GET /")).nextRequest.1.unread :=
  (Driven.bounded (.append .fresh (by decide +kernel) (by decide +kernel) (by decide))).1
    (by decide +kernel) (by decide +kernel)

end Carafe.Http
