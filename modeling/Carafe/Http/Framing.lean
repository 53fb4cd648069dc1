import Carafe.Http.RequestReader
import Carafe.Library.TokenStream

/-!
# The reader as a token machine

What the reader takes from the stream in one piece is determined by its phase: a
line with its terminator, a whole declared body, a chunk with the two bytes
behind it, one byte of a refused body. This module states those pieces as the
tokens of a machine and shows that `next_request` reads exactly them, however the
line reader keeps its buffer.
-/

namespace Carafe.Http
open Search TokenStream

/-- One line and its terminator. -/
def IsLine (piece : Bytes) : Prop :=
  ∃ line, piece = line ++ crlf ∧ ¬ crlf <:+: line ∧ line.length ≤ maxLineLength

def Phase.isLine : Phase → Bool
  | .requestLine | .headers | .chunkSize | .trailers => true
  | .body | .discard | .chunkData => false

namespace Assembly

/-- The size of a chunk is meaningful only while its data is awaited. -/
def settle (a : Assembly) : Assembly :=
  { a with chunkBytes := if a.phase = .chunkData then a.chunkBytes else 0 }

/-- The pieces of the stream each phase waits for. -/
def Token (a : Assembly) (piece : Bytes) : Prop :=
  a.failure = .none ∧ match a.phase with
    | .requestLine | .headers | .chunkSize | .trailers => IsLine piece
    | .body => 0 < a.bodyBytes ∧ piece.length = a.bodyBytes
    | .chunkData => piece.length = a.chunkBytes + crlfSize
    | .discard => 0 < a.bodyBytes ∧ piece.length = 1

/-- What the reader makes of one such piece. -/
def consume (a : Assembly) (piece : Bytes) : Assembly × Option RequestResult :=
  match a.phase with
  | .requestLine | .headers | .chunkSize | .trailers =>
    a.acceptLine (piece.take (piece.length - crlfSize))
  | .body => a.onBody (some piece)
  | .chunkData => a.onChunk (some piece)
  | .discard => ((a.onDiscard piece.length).1, none)

end Assembly

theorem IsLine.unique {c d : Bytes} (hc : IsLine c) (hd : IsLine d) (h : c <+: d) : c = d := by
  obtain ⟨line, rfl, clear, _⟩ := hc
  obtain ⟨line', rfl, clear', _⟩ := hd
  obtain ⟨rest, hrest⟩ := h
  have hfirst := findPattern_line (by decide : (13 : UInt8) ≠ 10) clear rest
  have hfirst' := findPattern_line (by decide : (13 : UInt8) ≠ 10) clear' []
  rw [List.append_nil] at hfirst'
  change findPattern crlf 0 (line ++ crlf ++ rest) = _ at hfirst
  rw [hrest] at hfirst
  have hlen : line.length = line'.length := Option.some.inj (hfirst.symm.trans hfirst')
  exact List.IsPrefix.eq_of_length ⟨rest, hrest⟩ (by simp [hlen])

theorem Assembly.Token.nonempty {a : Assembly} {c : Bytes} (h : a.Token c) : c ≠ [] := by
  rintro rfl
  obtain ⟨_, h⟩ := h
  cases hphase : a.phase <;> simp only [hphase, IsLine, crlfSize] at h
  all_goals simp [crlf] at h
  all_goals omega

theorem Assembly.Token.prefixFree {a : Assembly} {c d : Bytes} (hc : a.Token c) (hd : a.Token d)
    (h : c <+: d) : c = d := by
  obtain ⟨_, hc⟩ := hc
  obtain ⟨_, hd⟩ := hd
  cases hphase : a.phase <;> simp only [hphase] at hc hd
  case requestLine | headers | chunkSize | trailers => exact hc.unique hd h
  case body | discard => exact h.eq_of_length (hc.2.trans hd.2.symm)
  case chunkData => exact h.eq_of_length (hc.trans hd.symm)

/-- The machine whose outputs are the answers of `next_request`. -/
def framing : Machine UInt8 Assembly RequestResult where
  token := Assembly.Token
  next a piece := ((a.consume piece).1.settle, (a.consume piece).2)
  nonempty _ _ := Assembly.Token.nonempty
  prefixFree _ _ _ := Assembly.Token.prefixFree

namespace Assembly

theorem settle_eq {a : Assembly} (h : a.phase ≠ .chunkData) :
    a.settle = { a with chunkBytes := 0 } := by
  simp [settle, h]

theorem settle_chunkData {a : Assembly} (h : a.phase = .chunkData) : a.settle = a := by
  unfold settle
  rw [if_pos h]

@[simp] theorem settle_phase (a : Assembly) : a.settle.phase = a.phase := rfl
@[simp] theorem settle_failure (a : Assembly) : a.settle.failure = a.failure := rfl
@[simp] theorem settle_bodyBytes (a : Assembly) : a.settle.bodyBytes = a.bodyBytes := rfl
@[simp] theorem settle_request (a : Assembly) : a.settle.request = a.request := rfl

def settled (answer : Assembly × Option RequestResult) : Assembly × Option RequestResult :=
  (answer.1.settle, answer.2)

section Handlers
variable {a : Assembly} (h : a.phase ≠ .chunkData)
include h

theorem handleRequestLine_settle (line : Bytes) :
    settled (handleRequestLine { a with chunkBytes := 0 } line) =
      settled (a.handleRequestLine line) := by
  unfold handleRequestLine
  cases parseRequestLine line with
  | error err => cases err <;> simp [settled, settle, fail, handOver, h]
  | ok value => simp [settled, settle]

theorem completeHead_settle :
    settled (completeHead { a with chunkBytes := 0 }) = settled a.completeHead := by
  unfold completeHead
  dsimp only
  split
  · simp [settled, settle, fail, handOver, h]
  split
  · simp [settled, settle, fail, handOver, h]
  split
  · simp [settled, settle]
  split
  · simp [settled, settle, refuse, handOver]
  split
  · simp [settled, settle, handOver, finishRequest, armNextRequest]
  · simp [settled, settle]

theorem handleFieldLine_settle (line : Bytes) :
    settled (handleFieldLine { a with chunkBytes := 0 } line) =
      settled (a.handleFieldLine line) := by
  unfold handleFieldLine
  split
  · exact completeHead_settle h
  dsimp only
  split
  · simp [settled, settle, fail, handOver, h]
  cases parseHeaderField line <;> simp [settled, settle, fail, handOver, h]

theorem handleChunkSize_settle (line : Bytes) :
    settled (handleChunkSize { a with chunkBytes := 0 } line) =
      settled (a.handleChunkSize line) := by
  unfold handleChunkSize
  dsimp only
  repeat' split
  all_goals simp [settled, settle, fail, handOver, h]

theorem handleTrailerLine_settle (line : Bytes) :
    settled (handleTrailerLine { a with chunkBytes := 0 } line) =
      settled (a.handleTrailerLine line) := by
  unfold handleTrailerLine
  dsimp only
  repeat' split
  all_goals simp [settled, settle, fail, handOver, finishRequest, armNextRequest, h]

end Handlers

theorem Phase.isLine.ne_chunkData {phase : Phase} (h : phase.isLine = true) :
    phase ≠ .chunkData := by
  rintro rfl
  cases h

theorem acceptLine_settle {a : Assembly} (h : a.phase.isLine = true) (line : Bytes) :
    settled (a.settle.acceptLine line) = settled (a.acceptLine line) := by
  have hne := Phase.isLine.ne_chunkData h
  by_cases hsize : a.phase = .chunkSize
  · rw [acceptLine_chunkSize hsize, acceptLine_chunkSize (a := a.settle) hsize, settle_eq hne]
    exact handleChunkSize_settle hne line
  · have hcharge : a.settle.charge line = { a.charge line with chunkBytes := 0 } := by
      rw [settle_eq hne]
      rfl
    have hne' : (a.charge line).phase ≠ .chunkData := hne
    rw [acceptLine_charged hsize, acceptLine_charged (a := a.settle) hsize, hcharge]
    change settled (if (a.charge line).headBytes > maxHeadBytes then _ else _) = _
    split
    · simp [settled, settle, fail, handOver, hne']
    · rw [settle_phase]
      cases hphase : a.phase with
      | requestLine => exact handleRequestLine_settle hne' line
      | headers => exact handleFieldLine_settle hne' line
      | trailers => exact handleTrailerLine_settle hne' line
      | body | discard | chunkData | chunkSize => simp [settled, settle, hne']

/-- What a line makes of the request at hand: the answers of the four handlers. -/
inductive Lined (a : Assembly) : Assembly × Option RequestResult → Prop where
  | failed (headBytes fieldCount : Nat) {error : RequestError} (lost : error ≠ .none) :
      Lined a (handOver
        (fail { a with headBytes := headBytes, fieldCount := fieldCount } error))
  | started (headBytes : Nat) (line : RequestLine) (phase : a.phase = .requestLine) :
      Lined a ({ a with
        headBytes := headBytes
        request := { a.request with
          method := line.method, target := line.target, version := line.version }
        phase := .headers }, none)
  | field (headBytes fieldCount : Nat) (field : HeaderField) :
      Lined a ({ a with
        headBytes := headBytes
        fieldCount := fieldCount
        request := { a.request with headers := a.request.headers.add field } }, none)
  | chunked (headBytes : Nat) :
      Lined a ({ a with headBytes := headBytes, phase := .chunkSize }, none)
  | refused (headBytes : Nat) {bodyBytes : Nat} (large : maxBodyBytes < bodyBytes) :
      Lined a (handOver
        (refuse { a with headBytes := headBytes, bodyBytes := bodyBytes } .bodyTooLarge))
  | body (headBytes : Nat) {bodyBytes : Nat} (pos : 0 < bodyBytes) :
      Lined a ({ a with headBytes := headBytes, bodyBytes := bodyBytes, phase := .body }, none)
  | lastChunk : Lined a ({ a with phase := .trailers }, none)
  | chunk {chunkBytes : Nat} (pos : 0 < chunkBytes)
      (fits : a.request.body.length + chunkBytes ≤ maxBodyBytes) :
      Lined a ({ a with chunkBytes := chunkBytes, phase := .chunkData }, none)
  | trailer (headBytes fieldCount : Nat) :
      Lined a ({ a with headBytes := headBytes, fieldCount := fieldCount }, none)
  | finished (headBytes bodyBytes : Nat) :
      Lined a (handOver
        (finishRequest { a with headBytes := headBytes, bodyBytes := bodyBytes }))

section Lined
variable {a : Assembly}

theorem handleRequestLine_lined (h : a.phase = .requestLine) (line : Bytes) :
    a.Lined ((a.charge line).handleRequestLine line) := by
  unfold handleRequestLine
  cases parseRequestLine line with
  | error err => cases err <;> exact .failed _ a.fieldCount (by decide)
  | ok value => exact .started _ value h

theorem completeHead_lined (line : Bytes) : a.Lined (a.charge line).completeHead := by
  unfold completeHead
  dsimp only
  split
  · exact .failed _ a.fieldCount (by decide)
  split
  · exact .failed _ a.fieldCount ‹_›
  split
  · exact .chunked _
  split
  · exact .refused _ ‹_›
  split
  · exact .finished _ _
  · exact .body _ (Nat.pos_of_ne_zero ‹_›)

theorem handleFieldLine_lined (line : Bytes) : a.Lined ((a.charge line).handleFieldLine line) := by
  unfold handleFieldLine
  split
  · exact completeHead_lined line
  dsimp only
  split
  · exact .failed _ _ (by decide)
  cases parseHeaderField line with
  | none => exact .failed _ _ (by decide)
  | some field => exact .field _ _ field

theorem handleChunkSize_lined (line : Bytes) : a.Lined (a.handleChunkSize line) := by
  unfold handleChunkSize
  dsimp only
  split
  · exact .failed a.headBytes a.fieldCount ‹_›
  split
  · exact .lastChunk
  split
  · exact .failed a.headBytes a.fieldCount (by decide)
  · exact .chunk (Nat.pos_of_ne_zero ‹_›) (Nat.le_of_not_lt ‹_›)

theorem handleTrailerLine_lined (line : Bytes) :
    a.Lined ((a.charge line).handleTrailerLine line) := by
  unfold handleTrailerLine
  split
  · exact .finished _ a.bodyBytes
  dsimp only
  split
  · exact .failed _ _ (by decide)
  split
  · exact .failed _ _ (by decide)
  · exact .trailer _ _

theorem acceptLine_lined (h : a.phase.isLine = true) (line : Bytes) :
    a.Lined (a.acceptLine line) := by
  by_cases hsize : a.phase = .chunkSize
  · rw [acceptLine_chunkSize hsize]
    exact handleChunkSize_lined line
  · rw [acceptLine_charged hsize]
    split
    · exact .failed _ a.fieldCount (by decide)
    cases hphase : a.phase with
    | requestLine => exact handleRequestLine_lined hphase line
    | headers => exact handleFieldLine_lined line
    | trailers => exact handleTrailerLine_lined line
    | chunkSize => exact absurd hphase hsize
    | body | discard | chunkData =>
      rw [hphase] at h
      cases h

theorem refuseLine_lined (a : Assembly) : a.Lined (handOver a.refuseLine) := by
  obtain ⟨error, lost, heq⟩ := a.refuseLine_fails
  rw [heq]
  exact .failed a.headBytes a.fieldCount lost

/-- There is no line yet, or a line has done all that it can do. -/
theorem onLine_lined (h : a.phase.isLine = true) (read : LineResult) :
    a.onLine read = (a, some {}) ∨ a.Lined (a.onLine read) := by
  unfold onLine
  split
  · exact Or.inr a.refuseLine_lined
  · exact Or.inl rfl
  · exact Or.inr (acceptLine_lined h _)

end Lined

/-- A body or a drain is only ever awaited with bytes left to come. -/
def Sane (a : Assembly) : Prop :=
  a.phase = .body ∨ a.phase = .discard → 0 < a.bodyBytes

/-- A round that answers nothing leaves the failure alone. -/
def Quiet (a : Assembly) (answer : Assembly × Option RequestResult) : Prop :=
  answer.1.Sane ∧ (answer.2 = none → answer.1.failure = a.failure)

section Quiet
variable {a : Assembly}

theorem Sane.of_line (h : a.phase.isLine = true) : a.Sane := by
  rintro (h' | h') <;> simp [h', Phase.isLine] at h

theorem Lined.quiet {answer : Assembly × Option RequestResult} (h : a.Lined answer)
    (line : a.phase.isLine = true) : a.Quiet answer := by
  cases h with
  | failed => exact ⟨Sane.of_line line, by simp [handOver]⟩
  | started | chunked | lastChunk => exact ⟨Sane.of_line rfl, fun _ => rfl⟩
  | field | trailer => exact ⟨Sane.of_line line, fun _ => rfl⟩
  | refused _ large =>
    exact ⟨fun _ => Nat.lt_of_le_of_lt (Nat.zero_le _) large, by simp [handOver]⟩
  | finished => exact ⟨Sane.of_line rfl, by simp [handOver]⟩
  | body _ pos => exact ⟨fun _ => pos, fun _ => rfl⟩
  | chunk => exact ⟨by simp [Sane], fun _ => rfl⟩

theorem onDiscard_quiet (n : Nat) : a.Quiet (a.onDiscard n) := by
  unfold onDiscard
  dsimp only
  split
  · exact ⟨fun _ => ‹_›, by simp⟩
  · exact ⟨Sane.of_line rfl, fun _ => rfl⟩

theorem acceptChunk_quiet (h : a.phase = .chunkData) (chunk : Bytes) :
    a.Quiet (a.acceptChunk chunk) := by
  unfold acceptChunk
  split
  · exact ⟨by simp [Sane, handOver, Assembly.fail, h], by simp [handOver]⟩
  · exact ⟨Sane.of_line rfl, fun _ => rfl⟩

/-- What one round keeps. -/
theorem pull_quiet (hs : a.Sane) (unread : Bytes) : a.Quiet (a.pull unread).2 := by
  unfold pull
  cases hphase : a.phase with
  | requestLine | headers | chunkSize | trailers =>
    have h : a.phase.isLine = true := by rw [hphase]; rfl
    rcases onLine_lined h (LineReader.lineOf unread).2 with heq | hlined
    · dsimp only
      rw [heq]
      exact ⟨Sane.of_line h, by simp⟩
    · exact hlined.quiet h
  | discard => exact onDiscard_quiet _
  | body =>
    dsimp only
    split
    · exact ⟨hs, fun _ => rfl⟩
    · exact ⟨Sane.of_line rfl, by simp [onBody, handOver]⟩
  | chunkData =>
    dsimp only
    split
    · exact ⟨hs, fun _ => rfl⟩
    · exact acceptChunk_quiet hphase _

end Quiet

theorem token_settle {a : Assembly} {piece : Bytes} : a.settle.Token piece ↔ a.Token piece := by
  by_cases h : a.phase = .chunkData
  · rw [settle_chunkData h]
  · rw [settle_eq h]
    unfold Token
    cases hphase : a.phase <;> first | rfl | exact absurd hphase h

theorem onDiscard_more {a : Assembly} {n : Nat} (h : n < a.bodyBytes) :
    a.onDiscard n = ({ a with bodyBytes := a.bodyBytes - n }, some {}) := by
  unfold onDiscard
  dsimp only
  rw [if_pos (by omega)]

theorem onDiscard_done {a : Assembly} {n : Nat} (h : a.bodyBytes ≤ n) :
    a.onDiscard n = (a.armNextRequest, none) := by
  unfold onDiscard
  dsimp only
  rw [if_neg (by omega)]
  rfl

theorem consume_settle (a : Assembly) (piece : Bytes) :
    settled (a.settle.consume piece) = settled (a.consume piece) := by
  unfold consume
  rw [settle_phase]
  cases h : a.phase with
  | requestLine | headers | chunkSize | trailers =>
    exact acceptLine_settle (by rw [h]; rfl) _
  | body => simp [settled, settle, onBody, handOver, finishRequest, armNextRequest, h]
  | chunkData => rw [settle_chunkData h]
  | discard =>
    dsimp only
    rcases Nat.lt_or_ge piece.length a.bodyBytes with hmore | hdone
    · rw [onDiscard_more hmore, onDiscard_more (a := a.settle) hmore]
      simp [settled, settle, h]
    · rw [onDiscard_done hdone, onDiscard_done (a := a.settle) hdone]
      simp [settled, settle, armNextRequest]

theorem next_settle (a : Assembly) (piece : Bytes) :
    framing.next a.settle piece = settled (a.consume piece) :=
  consume_settle a piece

theorem consume_line {a : Assembly} (h : a.phase.isLine = true) (line : Bytes) :
    a.consume (line ++ crlf) = a.acceptLine line := by
  have htake : (line ++ crlf).take ((line ++ crlf).length - crlfSize) = line := by
    simp [crlf, crlfSize]
  unfold consume
  rw [htake]
  cases hphase : a.phase <;> simp [hphase, Phase.isLine] at h <;> rfl

theorem token_line {a : Assembly} (live : a.failure = .none) (h : a.phase.isLine = true)
    {line : Bytes} (clear : ¬ crlf <:+: line) (short : line.length ≤ maxLineLength) :
    a.Token (line ++ crlf) := by
  refine ⟨live, ?_⟩
  cases hphase : a.phase <;> simp [hphase, Phase.isLine] at h
  all_goals exact ⟨line, rfl, clear, short⟩

theorem Token.isLine {a : Assembly} {piece : Bytes} (h : a.phase.isLine = true)
    (token : a.Token piece) : IsLine piece := by
  have hline := token.2
  cases hphase : a.phase <;> simp only [hphase] at h hline
  case requestLine | headers | chunkSize | trailers => exact hline
  all_goals cases h

/-- A live reader waiting for a line is stuck where the line reader has none. -/
theorem stuck_line {a : Assembly} (h : a.phase.isLine = true) {unread : Bytes}
    (hline : (LineReader.lineOf unread).2.line = none) : framing.Stuck a unread := by
  rintro c token ⟨rest, rfl⟩
  obtain ⟨line, rfl, clear, short⟩ := Token.isLine h token
  rw [LineReader.lineOf_line clear short] at hline
  cases hline

theorem stuck_short {a : Assembly} {unread : Bytes} {n : Nat} (hlen : unread.length < n)
    (h : ∀ c, a.Token c → c.length = n) : framing.Stuck a unread := by
  intro c token hpre
  have hle := hpre.length_le
  rw [h c token] at hle
  omega

/-- What is answered when no piece is complete: an overlong line, or nothing yet. -/
def stalled (a : Assembly) (unread : Bytes) : Assembly × RequestResult :=
  if a.phase.isLine = true ∧ (LineReader.lineOf unread).2.error = .lineTooLong then a.refuseLine
  else (a, {})

/-- Dropping some bytes of a refused body is dropping them one by one. -/
theorem discard_reads {a : Assembly} (live : a.failure = .none) (h : a.phase = .discard)
    (hpos : 0 < a.bodyBytes) (dropped : Bytes) (hle : dropped.length ≤ a.bodyBytes) :
    framing.Reads a.settle dropped [] (a.onDiscard dropped.length).1.settle := by
  induction dropped generalizing a with
  | nil =>
    have heq : (a.onDiscard 0).1 = a := by rw [onDiscard_more hpos]; rfl
    rw [List.length_nil, heq]
    exact .done _
  | cons ch rest ih =>
    have token : a.settle.Token [ch] := by
      rw [token_settle]
      exact ⟨live, by rw [h]; exact ⟨hpos, rfl⟩⟩
    have hnext : framing.next a.settle [ch] = ((a.onDiscard 1).1.settle, none) := by
      rw [next_settle]
      simp only [consume, h]
      rfl
    change framing.Reads a.settle ([ch] ++ rest) (Option.toList none ++ []) _
    refine Machine.Reads.step token hnext ?_
    rw [List.length_cons] at hle ⊢
    rcases Nat.lt_or_ge 1 a.bodyBytes with hmore | hlast
    · have hone : (a.onDiscard 1).1 = { a with bodyBytes := a.bodyBytes - 1 } := by
        rw [onDiscard_more hmore]
      have hrest : a.onDiscard (rest.length + 1) =
          ({ a with bodyBytes := a.bodyBytes - 1 } : Assembly).onDiscard rest.length := by
        unfold onDiscard
        dsimp only
        rw [Nat.add_comm, Nat.sub_add_eq]
      rw [hone, hrest]
      exact ih live h (by simp; omega) (by simp; omega)
    · obtain rfl : rest = [] := List.length_eq_zero_iff.mp (by omega)
      exact .done _

/-- How an answer comes about: the machine has made an output, or it is stuck. -/
def Answered (s : Assembly) (unread : Bytes) (s' : Assembly) (rest : Bytes)
    (result : RequestResult) : Prop :=
  framing.Polls s unread (some result) s' rest ∨
  ∃ t, framing.Polls s unread none t rest ∧ stalled t rest = (s', result)

/-- What one round does, in terms of the machine: silent tokens, or an answer. -/
def Round (a : Assembly) (unread rest : Bytes) (answer : Assembly × Option RequestResult) :
    Prop :=
  match answer.2 with
  | none => ∃ e, unread = e ++ rest ∧ framing.Reads a.settle e [] answer.1.settle
  | some result => Answered a.settle unread answer.1.settle rest result

/-- A complete token that is not a byte of a refused body makes a round of its own. -/
theorem Round.of_token {a : Assembly} {piece : Bytes} (token : a.Token piece) (rest : Bytes) :
    Round a (piece ++ rest) rest (a.consume piece) := by
  have token' := token_settle.mpr token
  have hnext := a.next_settle piece
  unfold Round
  rcases hc : a.consume piece with ⟨a', out⟩
  rw [hc] at hnext
  cases out with
  | none => exact ⟨piece, rfl, Machine.Reads.single token' hnext⟩
  | some result =>
    exact Or.inl (.emit (e := []) (by simp) (.done _) token' hnext)

theorem Round.of_stuck {a : Assembly} {unread : Bytes} (stuck : framing.Stuck a.settle unread)
    (answer : Assembly × RequestResult) (h : stalled a.settle unread = (answer.1.settle, answer.2)) :
    Round a unread unread (handOver answer) :=
  Or.inr ⟨a.settle, .wait (e := []) rfl (.done _) stuck, h⟩

theorem refuseLine_settle {a : Assembly} (h : a.phase.isLine = true) :
    a.settle.refuseLine = (a.refuseLine.1.settle, a.refuseLine.2) := by
  rw [settle_eq (Phase.isLine.ne_chunkData h)]
  unfold refuseLine
  cases hphase : a.phase <;> simp [Assembly.fail, settle, hphase]
  simp [hphase, Phase.isLine] at h

theorem round_line {a : Assembly} (live : a.failure = .none) (h : a.phase.isLine = true)
    (unread : Bytes) : Round a unread (LineReader.lineOf unread).1
      (a.onLine (LineReader.lineOf unread).2) := by
  rcases LineReader.lineOf_cases unread with
    ⟨line, rest, rfl, clear, short, heq⟩ | ⟨-, heq⟩ | ⟨-, -, heq⟩
  · rw [heq]
    have hround := Round.of_token (token_line live h clear short) rest
    rwa [consume_line h] at hround
  · have stuck : framing.Stuck a.settle unread := stuck_line (a := a.settle) h (by rw [heq])
    rw [heq]
    refine Round.of_stuck stuck _ ?_
    rw [stalled, if_pos ⟨h, by rw [heq]⟩, refuseLine_settle h]
  · have stuck : framing.Stuck a.settle unread := stuck_line (a := a.settle) h (by rw [heq])
    rw [heq]
    refine Round.of_stuck stuck (a, {}) ?_
    rw [stalled, if_neg (by rw [heq]; simp)]

theorem stalled_body {a : Assembly} (h : a.phase.isLine = false) (unread : Bytes) :
    stalled a unread = (a, {}) := by
  simp [stalled, h]

theorem round_discard {a : Assembly} (live : a.failure = .none) (h : a.phase = .discard)
    (hpos : 0 < a.bodyBytes) (unread : Bytes) : Round a unread (unread.drop a.bodyBytes)
      (a.onDiscard (min a.bodyBytes unread.length)) := by
  rcases Nat.lt_or_ge unread.length a.bodyBytes with hshort | hall
  · have hreads := discard_reads live h hpos unread (Nat.le_of_lt hshort)
    rw [Nat.min_eq_right (Nat.le_of_lt hshort), List.drop_eq_nil_of_le (Nat.le_of_lt hshort)]
    rw [onDiscard_more hshort] at hreads ⊢
    refine Or.inr ⟨_, .wait (e := unread) (by simp) hreads ?_, stalled_body ?_ _⟩
    · refine stuck_short (n := 1) (by simp) fun c token => ?_
      have hlen := token.2
      simp only [settle_phase, h] at hlen
      exact hlen.2
    · simp [h, Phase.isLine]
  · have hlen : (unread.take a.bodyBytes).length = a.bodyBytes := by simp [hall]
    have hreads := discard_reads live h hpos (unread.take a.bodyBytes) (by omega)
    rw [hlen] at hreads
    rw [Nat.min_eq_left hall]
    rw [onDiscard_done (Nat.le_refl _)] at hreads ⊢
    exact ⟨_, (List.take_append_drop _ _).symm, hreads⟩

/-- One round of the loop reads whole tokens. -/
theorem round_pull {a : Assembly} (sane : a.Sane) (live : a.failure = .none) (unread : Bytes) :
    Round a unread (a.pull unread).1 (a.pull unread).2 := by
  unfold pull
  cases hphase : a.phase with
  | requestLine | headers | chunkSize | trailers =>
    exact round_line live (by rw [hphase]; rfl) unread
  | discard => exact round_discard live hphase (sane (Or.inr hphase)) unread
  | body =>
    have hpos := sane (Or.inl hphase)
    dsimp only
    split
    · rename_i hshort
      refine Round.of_stuck (stuck_short hshort fun c token => ?_) (a, {}) (stalled_body ?_ _)
      · have hlen := token.2
        simp only [settle_phase, hphase] at hlen
        exact hlen.2
      · simp [hphase, Phase.isLine]
    · have token : a.Token (unread.take a.bodyBytes) :=
        ⟨live, by rw [hphase]; exact ⟨hpos, by simp; omega⟩⟩
      have hround := Round.of_token token (unread.drop a.bodyBytes)
      rwa [List.take_append_drop, consume, hphase] at hround
  | chunkData =>
    dsimp only
    split
    · rename_i hshort
      refine Round.of_stuck (stuck_short hshort fun c token => ?_) (a, {}) (stalled_body ?_ _)
      · have hlen := token.2
        rw [settle_chunkData hphase] at hlen
        simpa only [hphase] using hlen
      · simp [hphase, Phase.isLine]
    · have token : a.Token (unread.take (a.chunkBytes + crlfSize)) :=
        ⟨live, by rw [hphase]; simp; omega⟩
      have hround := Round.of_token token (unread.drop (a.chunkBytes + crlfSize))
      rwa [List.take_append_drop, consume, hphase] at hround

end Assembly

namespace RequestReader
open Assembly

/-- The reader's state as the machine sees it. -/
def state (reader : RequestReader) : Assembly := reader.toAssembly.settle

theorem loop_answered (reader : RequestReader) (sane : reader.Sane)
    (live : reader.failure = .none) :
    Answered reader.state reader.unread reader.loop.1.state reader.loop.1.unread reader.loop.2 ∧
      reader.loop.1.Sane := by
  fun_induction loop reader with
  | case1 reader next result h =>
    have hround := round_pull sane live reader.unread
    have hquiet := pull_quiet sane reader.unread
    rw [← reader.iterate_pull, h] at hround hquiet
    exact ⟨hround, hquiet.1⟩
  | case2 reader next h _ ih =>
    have hround := round_pull sane live reader.unread
    have hquiet := pull_quiet sane reader.unread
    rw [← reader.iterate_pull, h] at hround hquiet
    obtain ⟨e, hcut, hreads⟩ := hround
    obtain ⟨hanswer, hsane⟩ := ih hquiet.1 ((hquiet.2 rfl).trans live)
    refine ⟨?_, hsane⟩
    change reader.unread = e ++ next.unread at hcut
    rw [hcut]
    rcases hanswer with hpoll | ⟨t, hpoll, ht⟩
    · exact Or.inl (hpoll.of_silent hreads)
    · exact Or.inr ⟨t, hpoll.of_silent hreads, ht⟩

theorem Answered.unique {s s₁ s₂ : Assembly} {unread rest₁ rest₂ : Bytes}
    {result₁ result₂ : RequestResult} (h₁ : Answered s unread s₁ rest₁ result₁)
    (h₂ : Answered s unread s₂ rest₂ result₂) :
    s₁ = s₂ ∧ rest₁ = rest₂ ∧ result₁ = result₂ := by
  rcases h₁ with h₁ | ⟨t₁, h₁, hs₁⟩ <;> rcases h₂ with h₂ | ⟨t₂, h₂, hs₂⟩
  · obtain ⟨heq, hs, hv⟩ := h₁.unique h₂
    exact ⟨hs, hv, Option.some.inj heq⟩
  · cases (h₁.unique h₂).1
  · cases (h₁.unique h₂).1
  · obtain ⟨-, rfl, rfl⟩ := h₁.unique h₂
    rw [hs₁, Prod.mk.injEq] at hs₂
    exact ⟨hs₂.1, rfl, hs₂.2⟩

/-- A failure repeats itself and changes nothing. -/
theorem nextRequest_failed {reader : RequestReader} (h : reader.failure ≠ .none) :
    reader.nextRequest = (reader,
      { error := reader.failure, streamContinues := false, version := reader.request.version }) := by
  rw [nextRequest, if_pos h]
  rfl

theorem nextRequest_live {reader : RequestReader} (h : reader.failure = .none) :
    reader.nextRequest = reader.loop := by
  rw [nextRequest, if_neg (by simp [h])]

/-- What `next_request` does, for a reader that has not failed. -/
theorem nextRequest_answered {reader : RequestReader} (sane : reader.Sane)
    (live : reader.failure = .none) :
    Answered reader.state reader.unread reader.nextRequest.1.state reader.nextRequest.1.unread
      reader.nextRequest.2 := by
  rw [nextRequest_live live]
  exact (reader.loop_answered sane live).1

@[simp] theorem append_state (reader : RequestReader) (more : Bytes) :
    (reader.append more).state = reader.state := rfl

@[simp] theorem append_unread (reader : RequestReader) (more : Bytes) :
    (reader.append more).unread = reader.unread ++ more :=
  reader.lineReader.unread_append more

@[simp] theorem state_failure (reader : RequestReader) : reader.state.failure = reader.failure :=
  rfl

@[simp] theorem fresh_state : ({} : RequestReader).state = {} := rfl

@[simp] theorem fresh_unread : ({} : RequestReader).unread = [] := rfl

theorem fresh_sane : ({} : RequestReader).Sane := by
  rintro (h | h) <;> cases h

end RequestReader

end Carafe.Http
