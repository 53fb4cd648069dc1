import Carafe.Http.Framing
import Carafe.Http.PlainReader
import Carafe.Library.Loops

/-!
# Every call returns

The loop of `next_request` has no counter. What bounds it is that a round without an
answer takes bytes off the stream: a line with its terminator, or as many body bytes
as are due, which are never none.
-/

namespace Carafe.Http
open Loops Search

/-- Readers at the head of a round, in any run of appends and calls. -/
inductive Visited : RequestReader → Prop where
  | fresh : Visited {}
  | append {reader : RequestReader} (h : Visited reader) (more : Bytes) :
      Visited (reader.append more)
  | round {reader : RequestReader} (h : Visited reader) (live : reader.failure = .none) :
      Visited reader.iterate.1

namespace Assembly

/-- A phase that waits for bytes waits for one at least. -/
structure Awaits (a : Assembly) : Prop where
  body : a.Sane
  chunk : a.phase = .chunkData → 0 < a.chunkBytes

/-- What a round in each phase takes from the front of the unread bytes. -/
def Takes (a : Assembly) (taken : Bytes) : Prop :=
  match a.phase with
  | .requestLine | .headers | .chunkSize | .trailers => ∃ line, taken = line ++ crlf
  | .body => 0 < a.bodyBytes ∧ taken.length = a.bodyBytes
  | .chunkData => 0 < a.chunkBytes ∧ taken.length = a.chunkBytes + crlfSize
  | .discard => 0 < taken.length ∧ taken.length ≤ a.bodyBytes

theorem Takes.positive {a : Assembly} {taken : Bytes} (h : a.Takes taken) : 0 < taken.length := by
  unfold Takes at h
  cases hphase : a.phase with
  | requestLine | headers | chunkSize | trailers =>
    rw [hphase] at h
    obtain ⟨line, rfl⟩ := h
    simp [crlf]
  | body =>
    rw [hphase] at h
    exact h.2 ▸ h.1
  | chunkData =>
    rw [hphase] at h
    have hlength : taken.length = a.chunkBytes + crlfSize := h.2
    omega
  | discard =>
    rw [hphase] at h
    exact h.1

section Chunk
variable {a : Assembly}

/-- The answer does not wait for the data of a chunk. -/
def Unchunked (answer : Assembly × Option RequestResult) : Prop := answer.1.phase ≠ .chunkData

/-- The next phase is a chunk that was just announced: one byte at least, and not more than
the body has room for. -/
def Announces (a b : Assembly) : Prop :=
  ∃ n, 0 < n ∧ a.request.body.length + n ≤ maxBodyBytes ∧
    b = { a with chunkBytes := n, phase := .chunkData }

theorem Lined.chunk_cases {answer : Assembly × Option RequestResult} (h : a.Lined answer)
    (other : a.phase ≠ .chunkData) : Unchunked answer ∨ a.Announces answer.1 := by
  cases h with
  | chunk pos fits => exact Or.inr ⟨_, pos, fits, rfl⟩
  | failed | field | trailer => exact Or.inl other
  | started | chunked | refused | body | lastChunk | finished =>
    left
    simp [Unchunked, handOver, refuse, finishRequest, armNextRequest]

/-- Behind a round a chunk is due that was due before, or that the round has announced. -/
theorem pull_chunk (unread : Bytes) (chunk : (a.pull unread).2.1.phase = .chunkData) :
    (a.phase = .chunkData ∧ (a.pull unread).2.1.chunkBytes = a.chunkBytes ∧
      (a.pull unread).2.1.request = a.request) ∨ a.Announces (a.pull unread).2.1 := by
  unfold pull at chunk ⊢
  cases hphase : a.phase with
  | requestLine | headers | chunkSize | trailers =>
    right
    have hline : a.phase.isLine = true := by rw [hphase]; rfl
    have hother : a.phase ≠ .chunkData := Phase.isLine.ne_chunkData hline
    rw [hphase] at chunk
    dsimp only at chunk ⊢
    rcases onLine_lined hline (LineReader.lineOf unread).2 with heq | hlined
    · rw [heq] at chunk
      exact absurd chunk hother
    · exact (hlined.chunk_cases hother).resolve_left fun other => other chunk
  | discard =>
    rw [hphase] at chunk
    refine absurd chunk ?_
    simp only [onDiscard]
    split
    · simp [hphase]
    · simp [armNextRequest]
  | body =>
    rw [hphase] at chunk
    refine absurd chunk ?_
    dsimp only
    split
    · simp [onBody, hphase]
    · simp [onBody, handOver, finishRequest, armNextRequest]
  | chunkData =>
    refine Or.inl ⟨rfl, ?_⟩
    rw [hphase] at chunk
    dsimp only at chunk ⊢
    split
    · exact ⟨rfl, rfl⟩
    · rename_i hlong
      rw [if_neg hlong] at chunk
      simp only [onChunk, acceptChunk] at chunk ⊢
      split
      · exact ⟨rfl, rfl⟩
      · rename_i hends
        rw [if_neg hends] at chunk
        cases chunk

theorem pull_due (h : a.Awaits) (unread : Bytes)
    (chunk : (a.pull unread).2.1.phase = .chunkData) : 0 < (a.pull unread).2.1.chunkBytes := by
  rcases pull_chunk unread chunk with ⟨hphase, hbytes, -⟩ | ⟨n, pos, -, heq⟩
  · rw [hbytes]
    exact h.chunk hphase
  · rw [heq]
    exact pos

theorem pull_awaits (h : a.Awaits) (unread : Bytes) : (a.pull unread).2.1.Awaits :=
  ⟨(pull_quiet h.body unread).1, pull_due h unread⟩

/-- One round takes what its phase is due from the front, or it takes nothing and answers. -/
theorem pull_takes (h : a.Awaits) (unread : Bytes) : ∃ taken,
    unread = taken ++ (a.pull unread).1 ∧
      ((taken = [] ∧ (a.pull unread).2.2 ≠ none) ∨ a.Takes taken) := by
  unfold pull Takes
  cases hphase : a.phase with
  | requestLine | headers | chunkSize | trailers =>
    rcases LineReader.lineOf_cases unread with
      ⟨line, rest, rfl, -, -, heq⟩ | ⟨-, heq⟩ | ⟨-, -, heq⟩
    · rw [heq]
      exact ⟨line ++ crlf, rfl, Or.inr ⟨line, rfl⟩⟩
    · rw [heq]
      exact ⟨[], rfl, Or.inl ⟨rfl, by simp [onLine, handOver]⟩⟩
    · rw [heq]
      exact ⟨[], rfl, Or.inl ⟨rfl, by simp [onLine]⟩⟩
  | discard =>
    have hdue : 0 < a.bodyBytes := h.body (Or.inr hphase)
    refine ⟨unread.take a.bodyBytes, (List.take_append_drop _ _).symm, ?_⟩
    by_cases hempty : unread = []
    · refine Or.inl ⟨by simp [hempty], ?_⟩
      rw [onDiscard_more (by simpa [hempty] using hdue)]
      simp
    · have hsome : 0 < unread.length := List.length_pos_of_ne_nil hempty
      refine Or.inr ⟨?_, ?_⟩
      · rw [List.length_take]
        omega
      · rw [List.length_take]
        omega
  | body =>
    have hdue : 0 < a.bodyBytes := h.body (Or.inl hphase)
    dsimp only
    split
    · exact ⟨[], rfl, Or.inl ⟨rfl, by simp [onBody]⟩⟩
    · refine ⟨unread.take a.bodyBytes, (List.take_append_drop _ _).symm, Or.inr ⟨hdue, ?_⟩⟩
      rw [List.length_take]
      omega
  | chunkData =>
    dsimp only
    split
    · exact ⟨[], rfl, Or.inl ⟨rfl, by simp [onChunk]⟩⟩
    · refine ⟨unread.take (a.chunkBytes + crlfSize), (List.take_append_drop _ _).symm,
        Or.inr ⟨h.chunk hphase, ?_⟩⟩
      rw [List.length_take]
      omega

end Chunk

end Assembly

namespace RequestReader

/-- `read_next_line`, without a result in the phases that it has no case for. -/
def readNextLineChecked (reader : RequestReader) :
    Option (RequestReader × Option RequestResult) :=
  match reader.phase with
  | .requestLine | .headers | .chunkSize | .trailers => some reader.readNextLine
  | .body | .discard | .chunkData => none

/-- `read_body_bytes`, without a result where more is dropped than is due. -/
def readBodyBytesChecked (reader : RequestReader) :
    Option (RequestReader × Option RequestResult) :=
  match reader.phase with
  | .discard =>
    (sizeSub reader.bodyBytes (reader.lineReader.discard reader.bodyBytes).2).map fun _ =>
      reader.readBodyBytes
  | _ => some reader.readBodyBytes

def iterateChecked (reader : RequestReader) : Option (RequestReader × Option RequestResult) :=
  match reader.phase with
  | .body | .discard | .chunkData => reader.readBodyBytesChecked
  | .requestLine | .headers | .chunkSize | .trailers => reader.readNextLineChecked

/-- `next_request` with a bound on the rounds of its loop. -/
def nextRequestWithin (n : Nat) (reader : RequestReader) :
    Option (RequestReader × RequestResult) :=
  if reader.failure ≠ .none then
    let answer := reader.fail reader.failure
    some ({ reader with toAssembly := answer.1 }, answer.2)
  else rounds iterate n reader

theorem iterateChecked_eq (reader : RequestReader) : reader.iterateChecked = some reader.iterate := by
  have hdropped : (reader.lineReader.discard reader.bodyBytes).2 ≤ reader.bodyBytes :=
    Nat.min_le_left _ _
  unfold iterateChecked iterate readBodyBytesChecked readNextLineChecked
  cases reader.phase with
  | requestLine | headers | chunkSize | trailers => rfl
  | body | chunkData => rfl
  | discard =>
    simp only [sizeSub_of_le hdropped, Option.map_some]

theorem loop_of_rounds {reader : RequestReader} {n : Nat} {answer : RequestReader × RequestResult}
    (h : rounds iterate n reader = some answer) : reader.loop = answer := by
  induction n generalizing reader with
  | zero => cases h
  | succ n ih =>
    rw [loop]
    split
    · rename_i hround
      rw [rounds_answer hround] at h
      exact Option.some.inj h
    · rename_i hround
      rw [rounds_silent hround] at h
      exact ih h

end RequestReader

namespace Visited
variable {reader : RequestReader}

theorem awaits (h : Visited reader) : reader.Awaits := by
  induction h with
  | fresh => exact ⟨RequestReader.fresh_sane, fun chunk => by cases chunk⟩
  | append h more ih => exact ih
  | @round reader h live ih =>
    have hpull := Assembly.pull_awaits ih reader.unread
    rwa [← reader.iterate_pull] at hpull

/-- A silent round leaves the reader live. -/
theorem live_next (h : Visited reader) (live : reader.failure = .none) {next : RequestReader}
    (silent : reader.iterate = (next, none)) : Visited next ∧ next.failure = .none := by
  have hnext := h.round live
  have hquiet := Assembly.pull_quiet h.awaits.body reader.unread
  rw [← reader.iterate_pull, silent] at hquiet
  rw [silent] at hnext
  exact ⟨hnext, (hquiet.2 rfl).trans live⟩

/-- A call of `next_request` leads to the head of a round again. -/
theorem call (h : Visited reader) : Visited reader.nextRequest.1 := by
  by_cases live : reader.failure = .none
  · rw [RequestReader.nextRequest_live live]
    fun_induction RequestReader.loop reader with
    | case1 reader next result hround =>
      have hnext := h.round live
      rwa [hround] at hnext
    | case2 reader next hround _ ih =>
      obtain ⟨hnext, hlive⟩ := h.live_next live hround
      exact ih hnext hlive
  · rwa [RequestReader.nextRequest_failed live]

theorem takes (h : Visited reader) : ∃ taken, reader.unread = taken ++ reader.iterate.1.unread ∧
    ((taken = [] ∧ reader.iterate.2 ≠ none) ∨ reader.Takes taken) := by
  obtain ⟨taken, hcut, htakes⟩ := Assembly.pull_takes h.awaits reader.unread
  rw [← reader.iterate_pull] at hcut htakes
  exact ⟨taken, hcut, htakes⟩

theorem shrinks (h : Visited reader) (silent : reader.iterate.2 = none) :
    reader.iterate.1.unread.length < reader.unread.length := by
  obtain ⟨taken, hcut, htakes⟩ := h.takes
  have hpositive : 0 < taken.length := by
    rcases htakes with ⟨-, hanswer⟩ | htakes
    · exact absurd silent hanswer
    · exact htakes.positive
  have hlength := congrArg List.length hcut
  rw [List.length_append] at hlength
  omega

/-- One round more than there are unread bytes is enough. -/
theorem within (h : Visited reader) :
    reader.nextRequestWithin (reader.unread.length + 1) = some reader.nextRequest := by
  unfold RequestReader.nextRequestWithin
  by_cases live : reader.failure = .none
  · rw [if_neg (not_not_intro live), RequestReader.nextRequest_live live]
    have goes : ∀ s next, Visited s ∧ s.failure = .none → s.iterate = (next, none) →
        (Visited next ∧ next.failure = .none) ∧ next.unread.length < s.unread.length := by
      rintro s next ⟨hs, hlive⟩ hround
      have hshrinks := hs.shrinks (by rw [hround])
      rw [hround] at hshrinks
      exact ⟨hs.live_next hlive hround, hshrinks⟩
    obtain ⟨last, hlast⟩ := rounds_enough (fun s => Visited s ∧ s.failure = .none)
      (fun s => s.unread.length) goes ⟨h, live⟩ (Nat.lt_succ_self _)
    rw [hlast, RequestReader.loop_of_rounds hlast]
  · rw [if_pos live, RequestReader.nextRequest, if_pos live]

/-- From every reader at the head of a round the call returns, and a round that does not
answer has taken what its phase was due. -/
theorem returns (h : Visited reader) :
    reader.nextRequestWithin (reader.unread.length + 1) = some reader.nextRequest ∧
    reader.iterateChecked = some reader.iterate ∧
    (reader.phase = .discard → 0 < reader.bodyBytes) ∧
    (∃ taken, reader.unread = taken ++ reader.iterate.1.unread ∧
      ((taken = [] ∧ reader.iterate.2 ≠ none) ∨ reader.Takes taken)) ∧
    (reader.iterate.2 = none → reader.iterate.1.unread.length < reader.unread.length) :=
  ⟨h.within, reader.iterateChecked_eq, fun discard => h.awaits.body (Or.inr discard), h.takes,
    h.shrinks⟩

/-- A start line, and the call that finds nothing behind it. -/
theorem returns_line :
    let reader := ({} : RequestReader).append (bytes "GET / HTTP/1.1\r\n")
    reader.nextRequestWithin 17 = some reader.nextRequest ∧
      reader.iterate.1.unread.length < reader.unread.length := by
  have hvisited := Visited.fresh.append (bytes "GET / HTTP/1.1\r\n")
  exact ⟨hvisited.returns.1, hvisited.returns.2.2.2.2 (by decide +kernel)⟩

end Visited

end Carafe.Http
