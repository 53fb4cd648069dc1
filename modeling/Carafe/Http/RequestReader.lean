import Carafe.Http.RequestParser
import Carafe.Http.LineReader

/-!
# The request reader

Seven phases over one line reader. `Assembly` holds every member of the class but
the line reader: the handlers of one line or one run of body bytes work on it
alone, and `RequestReader` adds the two ways of taking input from the buffer and
the loop over them.
-/

namespace Carafe.Http
open Search

inductive RequestError where
  | none
  | malformed
  | unknownMethod
  | unsupportedVersion
  | requestLineTooLong
  | headerTooLong
  | tooManyHeaders
  | headTooLarge
  | bodyTooLarge
  | unsupportedTransferEncoding
  deriving DecidableEq, Repr

/-- Nothing yet, a request, or a failure. -/
structure RequestResult where
  error : RequestError := .none
  request : Option Request := none
  streamContinues : Bool := true
  version : Version := .http10
  deriving DecidableEq

inductive Phase where
  | requestLine
  | headers
  | body
  | discard
  | chunkSize
  | chunkData
  | trailers
  deriving DecidableEq, Repr

def maxHeadBytes : Nat := 65536
def maxFields : Nat := 100
def crlfSize : Nat := 2
def maxBodyBytes : Nat := 1048576
def maxDrainBytes : Nat := 8388608

structure BodyLength where
  error : RequestError := .none
  bytes : Nat := 0
  chunked : Bool := false
  deriving DecidableEq, Repr

structure Codings where
  count : Nat := 0
  chunked : Nat := 0
  last : Bytes := []
  deriving DecidableEq, Repr

structure ChunkLength where
  error : RequestError := .none
  bytes : Nat := 0
  deriving DecidableEq, Repr

def chunkedCoding : Bytes := bytes "chunked"
def transferEncoding : Bytes := bytes "transfer-encoding"
def contentLength : Bytes := bytes "content-length"
def host : Bytes := bytes "host"

def Codings.see (codings : Codings) (coding : Bytes) : Codings where
  count := codings.count + 1
  chunked := codings.chunked + (asciiEqualsLowered chunkedCoding coding).toNat
  last := coding

/-- Several Transfer-Encoding fields are one list and are walked as one. -/
def transferCodings (headers : Headers) : Codings :=
  headers.fields.foldl (fun codings field =>
    if field.name ≠ transferEncoding then codings
    else (listElements field.value).foldl Codings.see codings) {}

def contentLengthDigits (length : Nat) : Bytes → BodyLength
  | [] => { bytes := length }
  | digit :: rest =>
    if digit < '0'.toUInt8 ∨ digit > '9'.toUInt8 then { error := .malformed }
    else
      let length := length * 10 + (digit.toNat - '0'.toNat)
      if length > maxDrainBytes then { error := .bodyTooLarge }
      else contentLengthDigits length rest

def parseContentLength (value : Bytes) : BodyLength :=
  if value = [] then { error := .malformed } else contentLengthDigits 0 value

def semicolon : UInt8 := ';'.toUInt8

def chunkSizeDigits (size : Nat) : Bytes → ChunkLength
  | [] => { bytes := size }
  | ch :: rest =>
    match asciiHexValue ch with
    | none => { error := .malformed }
    | some digit =>
      let size := size * 16 + digit
      if size > maxBodyBytes then { error := .bodyTooLarge } else chunkSizeDigits size rest

def parseChunkSize (line : Bytes) : ChunkLength :=
  let line := match find semicolon 0 line with
    | some ext => line.take ext
    | none => line
  if line = [] then { error := .malformed } else chunkSizeDigits 0 line

def measureBody (headers : Headers) (version : Version) : BodyLength :=
  if headers.contains transferEncoding then
    if headers.contains contentLength then { error := .malformed }
    else if version = .http10 then { error := .malformed }
    else
      let codings := transferCodings headers
      if asciiEqualsLowered chunkedCoding codings.last = false ∨ codings.chunked > 1 then
        { error := .malformed }
      else if codings.count > 1 then { error := .unsupportedTransferEncoding }
      else { chunked := true }
  else if headers.count contentLength > 1 then { error := .malformed }
  else match headers.get contentLength with
    | none => {}
    | some value => parseContentLength value

structure Assembly where
  phase : Phase := .requestLine
  request : Request := {}
  failure : RequestError := .none
  headBytes : Nat := 0
  bodyBytes : Nat := 0
  chunkBytes : Nat := 0
  fieldCount : Nat := 0
  deriving DecidableEq

namespace Assembly

def armNextRequest (a : Assembly) : Assembly :=
  { a with phase := .requestLine, request := {}, headBytes := 0, bodyBytes := 0, fieldCount := 0 }

def finishRequest (a : Assembly) : Assembly × RequestResult :=
  (a.armNextRequest, { request := some a.request })

/-- Loses the stream: the failure latches. -/
def fail (a : Assembly) (error : RequestError) : Assembly × RequestResult :=
  ({ a with failure := error },
    { error := error, streamContinues := false, version := a.request.version })

/-- Answerable and read past: the declared body is dropped next. -/
def refuse (a : Assembly) (error : RequestError) : Assembly × RequestResult :=
  ({ a with phase := .discard }, { error := error, version := a.request.version })

/-- An answer for the caller, where no answer means reading on. -/
def handOver (answer : Assembly × RequestResult) : Assembly × Option RequestResult :=
  (answer.1, some answer.2)

def handleRequestLine (a : Assembly) (line : Bytes) : Assembly × Option RequestResult :=
  match parseRequestLine line with
  | .error .malformed => handOver (a.fail .malformed)
  | .error .unknownMethod => handOver (a.fail .unknownMethod)
  | .error .unsupportedVersion => handOver (a.fail .unsupportedVersion)
  | .ok value =>
    ({ a with
        request := { a.request with
          method := value.method, target := value.target, version := value.version }
        phase := .headers }, none)

def completeHead (a : Assembly) : Assembly × Option RequestResult :=
  let hostCount := a.request.headers.count host
  if hostCount > 1 ∨ (hostCount = 0 ∧ a.request.version = .http11) then handOver (a.fail .malformed)
  else
    let body := measureBody a.request.headers a.request.version
    if body.error ≠ .none then handOver (a.fail body.error)
    else if body.chunked then ({ a with phase := .chunkSize }, none)
    else
      let a := { a with bodyBytes := body.bytes }
      if a.bodyBytes > maxBodyBytes then handOver (a.refuse .bodyTooLarge)
      else if a.bodyBytes = 0 then handOver a.finishRequest
      else ({ a with phase := .body }, none)

def handleFieldLine (a : Assembly) (line : Bytes) : Assembly × Option RequestResult :=
  if line = [] then a.completeHead
  else
    let a := { a with fieldCount := a.fieldCount + 1 }
    if a.fieldCount > maxFields then handOver (a.fail .tooManyHeaders)
    else match parseHeaderField line with
      | none => handOver (a.fail .malformed)
      | some field =>
        ({ a with request := { a.request with headers := a.request.headers.add field } }, none)

def handleChunkSize (a : Assembly) (line : Bytes) : Assembly × Option RequestResult :=
  let chunk := parseChunkSize line
  if chunk.error ≠ .none then handOver (a.fail chunk.error)
  else if chunk.bytes = 0 then ({ a with phase := .trailers }, none)
  else if a.request.body.length + chunk.bytes > maxBodyBytes then handOver (a.fail .bodyTooLarge)
  else ({ a with chunkBytes := chunk.bytes, phase := .chunkData }, none)

def handleTrailerLine (a : Assembly) (line : Bytes) : Assembly × Option RequestResult :=
  if line = [] then handOver a.finishRequest
  else
    let a := { a with fieldCount := a.fieldCount + 1 }
    if a.fieldCount > maxFields then handOver (a.fail .tooManyHeaders)
    -- Parsed to reject a malformed one, then dropped.
    else if (parseHeaderField line).isNone then handOver (a.fail .malformed)
    else (a, none)

/-- Which failure an overlong line is depends on which line was asked for. -/
def refuseLine (a : Assembly) : Assembly × RequestResult :=
  match a.phase with
  | .requestLine => a.fail .requestLineTooLong
  | .headers | .trailers => a.fail .headerTooLong
  | .chunkSize | .body | .discard | .chunkData => a.fail .malformed

def charge (a : Assembly) (line : Bytes) : Assembly :=
  { a with headBytes := a.headBytes + (line.length + crlfSize) }

def acceptLine (a : Assembly) (line : Bytes) : Assembly × Option RequestResult :=
  -- Chunk-size lines are body framing and not charged to the head.
  let a := if a.phase ≠ .chunkSize then a.charge line else a
  if a.phase ≠ .chunkSize ∧ a.headBytes > maxHeadBytes then handOver (a.fail .headTooLarge)
  else match a.phase with
    | .requestLine => a.handleRequestLine line
    | .headers => a.handleFieldLine line
    | .chunkSize => a.handleChunkSize line
    | .trailers => a.handleTrailerLine line
    | .body | .discard | .chunkData => (a, none)

theorem acceptLine_chunkSize {a : Assembly} (h : a.phase = .chunkSize) (line : Bytes) :
    a.acceptLine line = a.handleChunkSize line := by
  simp [acceptLine, h]

/-- In the other line phases the budget comes first. -/
theorem acceptLine_charged {a : Assembly} (h : a.phase ≠ .chunkSize) (line : Bytes) :
    a.acceptLine line =
      if (a.charge line).headBytes > maxHeadBytes then
        handOver ((a.charge line).fail .headTooLarge)
      else match a.phase with
        | .requestLine => (a.charge line).handleRequestLine line
        | .headers => (a.charge line).handleFieldLine line
        | .trailers => (a.charge line).handleTrailerLine line
        | _ => (a.charge line, none) := by
  have hphase : (a.charge line).phase = a.phase := rfl
  simp only [acceptLine, h, ne_eq, not_false_eq_true, if_true, hphase, true_and]
  split
  · rfl
  · cases hp : a.phase <;> first | rfl | exact absurd hp h

/-- `read_next_line` once the line reader has answered. -/
def onLine (a : Assembly) : LineResult → Assembly × Option RequestResult
  | { error := .lineTooLong, .. } => handOver a.refuseLine
  | { error := .none, line := none } => (a, some {})
  | { error := .none, line := some line } => a.acceptLine line

def acceptChunk (a : Assembly) (chunk : Bytes) : Assembly × Option RequestResult :=
  if chunk.drop a.chunkBytes ≠ crlf then handOver (a.fail .malformed)
  else
    ({ a with
        request := { a.request with body := a.request.body ++ chunk.take a.chunkBytes }
        phase := .chunkSize }, none)

/-- `read_body_bytes`, once the line reader has answered. -/
def onDiscard (a : Assembly) (dropped : Nat) : Assembly × Option RequestResult :=
  let a := { a with bodyBytes := a.bodyBytes - dropped }
  if a.bodyBytes > 0 then (a, some {}) else (a.armNextRequest, none)

def onBody (a : Assembly) : Option Bytes → Assembly × Option RequestResult
  | none => (a, some {})
  | some body => handOver { a with request := { a.request with body := body } }.finishRequest

def onChunk (a : Assembly) : Option Bytes → Assembly × Option RequestResult
  | none => (a, some {})
  | some chunk => a.acceptChunk chunk

end Assembly

structure RequestReader extends Assembly where
  lineReader : LineReader := {}

namespace RequestReader

def unread (reader : RequestReader) : Bytes := reader.lineReader.unread

def append (reader : RequestReader) (more : Bytes) : RequestReader :=
  { reader with lineReader := reader.lineReader.append more }

def readBodyBytes (reader : RequestReader) : RequestReader × Option RequestResult :=
  match reader.phase with
  | .discard =>
    let read := reader.lineReader.discard reader.bodyBytes
    let answer := reader.onDiscard read.2
    ({ toAssembly := answer.1, lineReader := read.1 }, answer.2)
  | .body =>
    let read := reader.lineReader.take reader.bodyBytes
    let answer := reader.onBody read.2
    ({ toAssembly := answer.1, lineReader := read.1 }, answer.2)
  | _ =>
    let read := reader.lineReader.take (reader.chunkBytes + crlfSize)
    let answer := reader.onChunk read.2
    ({ toAssembly := answer.1, lineReader := read.1 }, answer.2)

def readNextLine (reader : RequestReader) : RequestReader × Option RequestResult :=
  let read := reader.lineReader.nextLine
  let answer := reader.onLine read.2
  ({ toAssembly := answer.1, lineReader := read.1 }, answer.2)

/-- One round of the loop in `next_request`. -/
def iterate (reader : RequestReader) : RequestReader × Option RequestResult :=
  match reader.phase with
  | .body | .discard | .chunkData => reader.readBodyBytes
  | .requestLine | .headers | .chunkSize | .trailers => reader.readNextLine

end RequestReader

/-- What is asked of the unread bytes in each phase: the bytes left, and the answer. -/
def Assembly.pull (a : Assembly) (unread : Bytes) : Bytes × Assembly × Option RequestResult :=
  match a.phase with
  | .discard => (unread.drop a.bodyBytes, a.onDiscard (min a.bodyBytes unread.length))
  | .body =>
    if unread.length < a.bodyBytes then (unread, a.onBody none)
    else (unread.drop a.bodyBytes, a.onBody (some (unread.take a.bodyBytes)))
  | .chunkData =>
    if unread.length < a.chunkBytes + crlfSize then (unread, a.onChunk none)
    else (unread.drop (a.chunkBytes + crlfSize),
      a.onChunk (some (unread.take (a.chunkBytes + crlfSize))))
  | .requestLine | .headers | .chunkSize | .trailers =>
    ((LineReader.lineOf unread).1, a.onLine (LineReader.lineOf unread).2)

namespace RequestReader

theorem readNextLine_pull (reader : RequestReader) :
    (reader.readNextLine.1.unread, reader.readNextLine.1.toAssembly, reader.readNextLine.2) =
      ((LineReader.lineOf reader.unread).1, reader.onLine (LineReader.lineOf reader.unread).2) := by
  rw [unread, unread, ← reader.lineReader.nextLine_spec]
  rfl

theorem onDiscard_pull (reader : RequestReader) :
    ((reader.lineReader.discard reader.bodyBytes).1.unread,
      reader.onDiscard (reader.lineReader.discard reader.bodyBytes).2) =
      (reader.unread.drop reader.bodyBytes,
        reader.onDiscard (min reader.bodyBytes reader.unread.length)) := by
  have h := reader.lineReader.discard_spec reader.bodyBytes
  rw [Prod.mk.injEq] at h
  rw [h.1, h.2]
  rfl

theorem take_pull (reader : RequestReader) (n : Nat)
    (answer : Option Bytes → Assembly × Option RequestResult) :
    ((reader.lineReader.take n).1.unread, answer (reader.lineReader.take n).2) =
      if reader.unread.length < n then (reader.unread, answer none)
      else (reader.unread.drop n, answer (some (reader.unread.take n))) := by
  have h := reader.lineReader.take_spec n
  change _ = if reader.unread.length < n then (reader.unread, none)
    else (reader.unread.drop n, some (reader.unread.take n)) at h
  split at h
  · rw [Prod.mk.injEq] at h
    rw [if_pos ‹_›, h.1, h.2]
  · rw [Prod.mk.injEq] at h
    rw [if_neg ‹_›, h.1, h.2]

/-- A round depends on the buffer only through the bytes that are not yet read. -/
theorem iterate_pull (reader : RequestReader) :
    (reader.iterate.1.unread, reader.iterate.1.toAssembly, reader.iterate.2) =
      reader.toAssembly.pull reader.unread := by
  unfold iterate Assembly.pull
  cases h : reader.phase with
  | requestLine => exact reader.readNextLine_pull
  | headers => exact reader.readNextLine_pull
  | chunkSize => exact reader.readNextLine_pull
  | trailers => exact reader.readNextLine_pull
  | discard =>
    simp only [readBodyBytes, h]
    exact reader.onDiscard_pull
  | body =>
    simp only [readBodyBytes, h]
    exact reader.take_pull reader.bodyBytes reader.onBody
  | chunkData =>
    simp only [readBodyBytes, h]
    exact reader.take_pull (reader.chunkBytes + crlfSize) reader.onChunk

end RequestReader

/-- What a round makes smaller: the unread bytes and, where the end of a body takes none,
the phase. -/
def Assembly.pendingWork (a : Assembly) (unread : Bytes) : Nat :=
  2 * unread.length + if a.phase = .discard ∨ a.phase = .body then 1 else 0

/-- The round answers nothing, or something behind which the stream goes on. -/
def GoesOn (out : Option RequestResult) : Prop :=
  ∀ result ∈ out, result ≠ {} ∧ (result.request = none → result.streamContinues = true)

theorem Assembly.pendingWork_lt {a b : Assembly} {unread rest : Bytes}
    (h : rest.length + 2 ≤ unread.length) : b.pendingWork rest < a.pendingWork unread := by
  unfold pendingWork
  split <;> split <;> omega

theorem Assembly.refuseLine_fails (a : Assembly) :
    ∃ error, error ≠ .none ∧ a.refuseLine = a.fail error := by
  unfold refuseLine
  cases a.phase with
  | requestLine => exact ⟨.requestLineTooLong, by decide, rfl⟩
  | headers | trailers => exact ⟨.headerTooLong, by decide, rfl⟩
  | chunkSize | body | discard | chunkData => exact ⟨.malformed, by decide, rfl⟩

/-- An overlong line loses the stream. -/
theorem Assembly.refuseLine_lost (a : Assembly) :
    a.refuseLine.1.failure ≠ .none ∧ a.refuseLine.2 ≠ {} ∧
      a.refuseLine.2.request = none ∧ a.refuseLine.2.streamContinues = false := by
  obtain ⟨error, lost, heq⟩ := a.refuseLine_fails
  rw [heq]
  exact ⟨lost, by simp [fail], rfl, rfl⟩

theorem Assembly.onLine_shrinks {a : Assembly} {unread : Bytes}
    (h : GoesOn (a.onLine (LineReader.lineOf unread).2).2) :
    (a.onLine (LineReader.lineOf unread).2).1.pendingWork (LineReader.lineOf unread).1 <
      a.pendingWork unread := by
  rcases LineReader.lineOf_cases unread with ⟨line, rest, rfl, -, -, heq⟩ | ⟨-, heq⟩ | ⟨-, -, heq⟩
  · rw [heq]
    exact pendingWork_lt (by simp [crlf])
  · rw [heq] at h
    obtain ⟨-, -, hrequest, hstops⟩ := a.refuseLine_lost
    have hgoes := (h _ rfl).2 hrequest
    rw [hstops] at hgoes
    cases hgoes
  · rw [heq] at h
    exact False.elim ((h {} rfl).1 rfl)

theorem Assembly.pull_shrinks {a : Assembly} {unread : Bytes} (h : GoesOn (a.pull unread).2.2) :
    (a.pull unread).2.1.pendingWork (a.pull unread).1 < a.pendingWork unread := by
  unfold pull at h ⊢
  cases hphase : a.phase with
  | requestLine | headers | chunkSize | trailers =>
    rw [hphase] at h
    exact onLine_shrinks h
  | discard =>
    rw [hphase] at h
    simp only [onDiscard] at h ⊢
    split at h
    · exact False.elim ((h {} rfl).1 rfl)
    · rename_i hdone
      rw [if_neg hdone]
      simp only [pendingWork, hphase, armNextRequest, List.length_drop]
      simp only [reduceCtorEq, or_false, if_false, if_true]
      omega
  | body =>
    rw [hphase] at h
    simp only at h ⊢
    split at h
    · exact False.elim ((h {} rfl).1 rfl)
    · rename_i hlen
      rw [if_neg hlen]
      simp only [pendingWork, hphase, onBody, handOver, finishRequest, armNextRequest,
        List.length_drop]
      simp only [reduceCtorEq, or_false, or_true, if_false, if_true]
      omega
  | chunkData =>
    rw [hphase] at h
    simp only at h ⊢
    split at h
    · exact False.elim ((h {} rfl).1 rfl)
    · rename_i hlen
      rw [if_neg hlen]
      apply pendingWork_lt
      simp only [List.length_drop, crlfSize] at hlen ⊢
      omega

theorem Assembly.pull_le (a : Assembly) (unread : Bytes) :
    (a.pull unread).2.1.pendingWork (a.pull unread).1 ≤ a.pendingWork unread := by
  by_cases h : GoesOn (a.pull unread).2.2
  · exact Nat.le_of_lt (pull_shrinks h)
  unfold pull at h ⊢
  cases hphase : a.phase with
  | requestLine | headers | chunkSize | trailers =>
    rcases LineReader.lineOf_cases unread with
      ⟨line, rest, rfl, -, -, heq⟩ | ⟨-, heq⟩ | ⟨-, -, heq⟩
    · rw [heq]
      exact Nat.le_of_lt (pendingWork_lt (by simp [crlf]))
    · rw [heq]
      simp [onLine, handOver, refuseLine, hphase, Assembly.fail, pendingWork]
    · rw [heq]
      exact Nat.le_refl _
  | discard =>
    simp only [hphase, onDiscard] at h ⊢
    split
    · simp only [pendingWork, hphase, List.length_drop]
      omega
    · rename_i hdone
      rw [if_neg hdone] at h
      exact False.elim (h (by simp [GoesOn]))
  | body =>
    simp only [hphase] at h ⊢
    split
    · exact Nat.le_refl _
    · rename_i hlen
      rw [if_neg hlen] at h
      exact False.elim (h (by simp [GoesOn, onBody, handOver, finishRequest]))
  | chunkData =>
    simp only
    split
    · exact Nat.le_refl _
    · rename_i hlen
      refine Nat.le_of_lt (pendingWork_lt ?_)
      simp only [List.length_drop, crlfSize] at hlen ⊢
      omega

namespace RequestReader

theorem iterate_le (reader : RequestReader) :
    reader.iterate.1.pendingWork reader.iterate.1.unread ≤ reader.pendingWork reader.unread := by
  have hpull := reader.iterate_pull
  have hle := reader.toAssembly.pull_le reader.unread
  rw [← hpull] at hle
  exact hle

theorem iterate_shrinks (reader : RequestReader) (h : GoesOn reader.iterate.2) :
    reader.iterate.1.pendingWork reader.iterate.1.unread < reader.pendingWork reader.unread := by
  have hpull := reader.iterate_pull
  have hshrinks := @Assembly.pull_shrinks reader.toAssembly reader.unread
  rw [← hpull] at hshrinks
  exact hshrinks h

/-- The loop of `next_request`: rounds until one of them answers. -/
def loop (reader : RequestReader) : RequestReader × RequestResult :=
  match h : reader.iterate with
  | (next, some result) => (next, result)
  | (next, none) =>
    have : next.pendingWork next.unread < reader.pendingWork reader.unread := by
      have hshrinks := reader.iterate_shrinks
      rw [h] at hshrinks
      exact hshrinks (by simp [GoesOn])
    loop next
termination_by reader.pendingWork reader.unread

def nextRequest (reader : RequestReader) : RequestReader × RequestResult :=
  if reader.failure ≠ .none then
    let answer := reader.fail reader.failure
    ({ reader with toAssembly := answer.1 }, answer.2)
  else reader.loop

theorem loop_shrinks {reader : RequestReader} (h : GoesOn (some reader.loop.2)) :
    reader.loop.1.pendingWork reader.loop.1.unread < reader.pendingWork reader.unread := by
  fun_induction loop reader with
  | case1 reader next result hiterate =>
    have hshrinks := reader.iterate_shrinks
    rw [hiterate] at hshrinks
    exact hshrinks h
  | case2 reader next hiterate hlt ih => exact Nat.lt_trans (ih h) hlt

theorem loop_le (reader : RequestReader) :
    reader.loop.1.pendingWork reader.loop.1.unread ≤ reader.pendingWork reader.unread := by
  fun_induction loop reader with
  | case1 reader next result hiterate =>
    have hle := reader.iterate_le
    rwa [hiterate] at hle
  | case2 reader next hiterate hlt ih => exact Nat.le_of_lt (Nat.lt_of_le_of_lt ih hlt)

theorem nextRequest_le (reader : RequestReader) :
    reader.nextRequest.1.pendingWork reader.nextRequest.1.unread ≤
      reader.pendingWork reader.unread := by
  unfold nextRequest
  split
  · exact Nat.le_refl _
  · exact loop_le reader

/-- A call behind which the stream goes on has taken something from it. -/
theorem nextRequest_shrinks {reader : RequestReader} (h : GoesOn (some reader.nextRequest.2)) :
    reader.nextRequest.1.pendingWork reader.nextRequest.1.unread <
      reader.pendingWork reader.unread := by
  unfold nextRequest at h ⊢
  split at h
  · cases (h _ rfl).2 rfl
  · rename_i live
    rw [if_neg live]
    exact loop_shrinks h

end RequestReader

end Carafe.Http
