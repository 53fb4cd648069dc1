import Carafe.Server.Journal
import Carafe.Server.Pipeline

/-!
# Serving one connection

The loop of `serve_connection`: what a call of `next_request` came to is answered, by
the pipeline or with a status of its own, until there is nobody left to answer.
-/

namespace Carafe.Server
open Http Net

def statusFor : RequestError → Int
  | .unknownMethod | .unsupportedTransferEncoding => 501
  | .unsupportedVersion => 505
  | .bodyTooLarge => 413
  | .requestLineTooLong => 414
  | .headerTooLong | .tooManyHeaders | .headTooLarge => 431
  | .malformed | .none => 400

def timedOut (osError : Errno) : Bool :=
  osError = eagain ∨ osError = ewouldblock ∨ osError = etimedout

def connectionName : Bytes := bytes "connection"
def closeOption : Bytes := bytes "close"
def keepAliveOption : Bytes := bytes "keep-alive"

theorem lowered_connectionName : connectionName.map asciiLower = connectionName := by decide

/-- Several Connection fields are one list. -/
def hasConnectionOption (headers : Headers) (option : Bytes) : Bool :=
  headers.fields.any fun header =>
    header.name = connectionName ∧ (listElements header.value).any (asciiEqualsLowered option)

def clientWantsClose (request : Request) : Bool :=
  if hasConnectionOption request.headers closeOption then true
  else match request.version with
    | .http10 => !hasConnectionOption request.headers keepAliveOption
    | .http11 => false

/-- One response as it is written, and whether the connection ends with it. -/
structure Reply where
  response : Response
  closing : Bool
  withBody : Bool

def Reply.bytes (reply : Reply) : Bytes := reply.response.serialize reply.withBody

/-- The close is announced before it is performed. -/
def answer (response : Response) (closing withBody : Bool) : Reply where
  response :=
    if closing then
      { response with headers := response.headers.add ⟨connectionName, closeOption⟩ }
    else response
  closing := closing
  withBody := withBody

def timeoutReply : Reply := answer (statusResponse 408) true true

/-- A failure carries no headers to consult. -/
def failureReply (error : RequestError) (streamContinues : Bool) (version : Version) : Reply :=
  answer (statusResponse (statusFor error)) (!streamContinues || version = .http10) true

def handledReply (pipeline : Pipeline) (request : Request) : Reply :=
  let answered := pipeline.respond request
  answer answered.2 (clientWantsClose answered.1) (answered.1.method ≠ .head)

/-- What one pass of the loop writes, if anything. -/
def replyTo (pipeline : Pipeline) (conn : Connection) (result : ConnectionResult) : Option Reply :=
  if result.error ≠ .none ∨ result.osError ≠ 0 then
    if result.osError ≠ 0 then
      -- A client that asked and heard nothing back; any other read failure has nobody to tell.
      if timedOut result.osError ∧ conn.requestInProgress then some timeoutReply else none
    else some (failureReply result.error result.streamContinues result.version)
  else result.request.map (handledReply pipeline)

/-- One pass of the loop that answers: the connection and the result behind
`next_request`, and the reply. -/
structure Turn where
  conn : Connection
  result : ConnectionResult
  reply : Reply

namespace Connection

/-- What every pass makes smaller: the rounds that are left, weighted by what a read can
add to the buffer, and the work of the reader. -/
def pendingWork (conn : Connection) (rounds : List Round) : Nat :=
  (2 * maxBufferLength + 1) * rounds.length + conn.reader.pendingWork conn.reader.unread

theorem parse_work {conn next : Connection} {out : Option RequestResult}
    (h : conn.parse = (next, out)) (rounds : List Round) :
    next.pendingWork rounds ≤ conn.pendingWork rounds := by
  have hle := conn.reader.nextRequest_le
  cases out with
  | none =>
    rw [(parse_none h).1] at hle
    exact Nat.add_le_add_left hle _
  | some parsed =>
    rw [(parse_some h).1] at hle
    exact Nat.add_le_add_left hle _

theorem receive_work {conn next : Connection} {round : Round} {out : Option ConnectionResult}
    (h : conn.receive round = (next, out)) (rounds : List Round) :
    next.pendingWork rounds < conn.pendingWork (round :: rounds) := by
  have hsame : conn.pendingWork rounds < conn.pendingWork (round :: rounds) := by
    simp only [pendingWork, List.length_cons, Nat.mul_succ]
    omega
  cases out with
  | none =>
    obtain ⟨chunk, arrived, fits, -, rfl⟩ := receive_none h
    simp only [pendingWork, received_reader, RequestReader.append_unread, List.length_cons,
      Nat.mul_succ, Assembly.pendingWork, List.length_append]
    change _ + (_ + if conn.reader.phase = .discard ∨ conn.reader.phase = .body then 1 else 0) < _
    omega
  | some result =>
    obtain rfl : next = conn := by
      unfold receive at h
      split at h
      · exact (Prod.mk.inj h).1.symm
      · split at h
        · exact (Prod.mk.inj h).1.symm
        · exact (Prod.mk.inj h).1.symm
        · cases h
    exact hsame

/-- A call takes rounds off the script, unless the reader had its answer already. -/
theorem nextRequest_work {conn next : Connection} {rounds rest : List Round}
    {out : Option ConnectionResult} (h : conn.nextRequest rounds = (next, out, rest)) :
    next.pendingWork rest < conn.pendingWork rounds ∨ rest = rounds ∧
      next.pendingWork rest ≤ conn.pendingWork rounds ∧
      ∀ result ∈ out, ∃ parsed, conn.parse = (next, some parsed) ∧ result = resultOf parsed := by
  induction rounds generalizing conn with
  | nil =>
    unfold nextRequest at h
    rcases hparse : conn.parse with ⟨conn', parsed⟩
    rw [hparse] at h
    cases parsed with
    | none =>
      simp only [Prod.mk.injEq] at h
      obtain ⟨rfl, rfl, rfl⟩ := h
      exact Or.inr ⟨rfl, parse_work hparse [], by simp⟩
    | some parsed =>
      simp only [Prod.mk.injEq] at h
      obtain ⟨rfl, rfl, rfl⟩ := h
      exact Or.inr ⟨rfl, parse_work hparse [],
        fun result hresult => ⟨parsed, rfl, (Option.some.inj hresult).symm⟩⟩
  | cons round rounds ih =>
    unfold nextRequest at h
    rcases hparse : conn.parse with ⟨conn', parsed⟩
    rw [hparse] at h
    have hle := parse_work hparse (round :: rounds)
    cases parsed with
    | some parsed =>
      simp only [Prod.mk.injEq] at h
      obtain ⟨rfl, rfl, rfl⟩ := h
      exact Or.inr ⟨rfl, hle, fun result hresult => ⟨parsed, rfl, (Option.some.inj hresult).symm⟩⟩
    | none =>
      refine Or.inl ?_
      rcases hreceive : conn'.receive round with ⟨conn'', result⟩
      have hlt := receive_work hreceive rounds
      simp only [hreceive] at h
      cases result with
      | some result =>
        simp only [Prod.mk.injEq] at h
        obtain ⟨rfl, -, rfl⟩ := h
        exact Nat.lt_of_lt_of_le hlt hle
      | none =>
        have hrest : next.pendingWork rest ≤ conn''.pendingWork rounds := by
          rcases ih h with hless | ⟨-, hless, -⟩
          · exact Nat.le_of_lt hless
          · exact hless
        omega

end Connection

/-- The reply to an answer of the reader. -/
def parsedReply (pipeline : Pipeline) (parsed : RequestResult) : Option Reply :=
  if parsed.error ≠ .none then
    some (failureReply parsed.error parsed.streamContinues parsed.version)
  else parsed.request.map (handledReply pipeline)

theorem replyTo_parsed (pipeline : Pipeline) (conn : Connection) (parsed : RequestResult) :
    replyTo pipeline conn (Connection.resultOf parsed) = parsedReply pipeline parsed := by
  simp [replyTo, parsedReply, Connection.resultOf]

theorem parsedReply_goesOn {pipeline : Pipeline} {parsed : RequestResult} {reply : Reply}
    (h : parsedReply pipeline parsed = some reply) (goesOn : reply.closing = false) :
    GoesOn (some parsed) := by
  intro result hresult
  obtain rfl := Option.some.inj hresult
  unfold parsedReply at h
  split at h
  · rename_i herror
    refine ⟨fun h => herror (by rw [h]), fun _ => ?_⟩
    rw [← Option.some.inj h] at goesOn
    simp only [failureReply, answer, Bool.or_eq_false_iff, Bool.not_eq_false'] at goesOn
    exact goesOn.1
  · obtain ⟨request, hrequest, -⟩ := Option.map_eq_some_iff.mp h
    refine ⟨fun h => ?_, by simp [hrequest]⟩
    rw [h] at hrequest
    cases hrequest

/-- A pass behind which the loop goes on has used up a round or bytes of the buffer. -/
theorem pass_work {pipeline : Pipeline} {conn next : Connection} {rounds rest : List Round}
    {result : ConnectionResult} {reply : Reply}
    (hnext : conn.nextRequest rounds = (next, some result, rest))
    (hreply : replyTo pipeline next result = some reply) (goesOn : reply.closing = false) :
    next.pendingWork rest < conn.pendingWork rounds := by
  rcases Connection.nextRequest_work hnext with hlt | ⟨rfl, -, hparsed⟩
  · exact hlt
  · obtain ⟨parsed, hparse, rfl⟩ := hparsed result rfl
    obtain ⟨hreader, -, -⟩ := Connection.parse_some hparse
    have hshrinks := @RequestReader.nextRequest_shrinks conn.reader
    rw [hreader] at hshrinks
    rw [replyTo_parsed] at hreply
    exact Nat.add_lt_add_left (hshrinks (parsedReply_goesOn hreply goesOn)) _

/-- With the rounds that are left and the writes so far; a write that fails ends the loop. -/
def serve (pipeline : Pipeline) (writes : Nat → Bool) (written : Nat) (conn : Connection)
    (rounds : List Round) : List Turn :=
  match hnext : conn.nextRequest rounds with
  | (_, none, _) => []
  | (next, some result, rest) =>
    match hreply : replyTo pipeline next result with
    | none => []
    | some reply =>
      if hopen : reply.closing = false ∧ writes written = true then
        have := pass_work hnext hreply hopen.1
        ⟨next, result, reply⟩ :: serve pipeline writes (written + 1) next rest
      else [⟨next, result, reply⟩]
termination_by conn.pendingWork rounds

/-- Where `next_request` goes to the socket, and what comes of it. -/
structure Wait where
  conn : Connection
  round : Round

namespace Wait

/-- What the read fails with, the deadline ahead of it included; 0 for bytes and the end. -/
def osError (wait : Wait) : Errno :=
  if wait.conn.applyReadDeadline wait.round ≠ 0 then wait.conn.applyReadDeadline wait.round
  else match wait.round.read with
    | .failed osError _ => osError
    | .ended | .bytes _ _ _ => 0

def arrivals (wait : Wait) : List Stamped :=
  if wait.osError = 0 then wait.round.arrivals else []

end Wait

/-- The waits of one call of `next_request`. -/
def Connection.waits (conn : Connection) : List Round → List Wait
  | [] => []
  | round :: rounds => match conn.parse with
    | (_, some _) => []
    | (conn, none) => ⟨conn, round⟩ :: match conn.receive round with
      | (_, some _) => []
      | (conn, none) => conn.waits rounds

/-- What the calls of `next_request` that `serve` makes leave in a log. -/
def serveLog {α : Type} (log : Connection → List Round → List α) (pipeline : Pipeline)
    (writes : Nat → Bool) (written : Nat) (conn : Connection) (rounds : List Round) : List α :=
  log conn rounds ++ match hnext : conn.nextRequest rounds with
  | (_, none, _) => []
  | (next, some result, rest) =>
    match hreply : replyTo pipeline next result with
    | none => []
    | some reply =>
      if hopen : reply.closing = false ∧ writes written = true then
        have := pass_work hnext hreply hopen.1
        serveLog log pipeline writes (written + 1) next rest
      else []
termination_by conn.pendingWork rounds

def serveWaits (pipeline : Pipeline) (writes : Nat → Bool) (written : Nat) (conn : Connection)
    (rounds : List Round) : List Wait :=
  serveLog Connection.waits pipeline writes written conn rounds

section Log
variable {α : Type} {log : Connection → List Round → List α} {pipeline : Pipeline}
  {writes : Nat → Bool} {written : Nat} {conn next : Connection} {rounds rest : List Round}

theorem serveLog_over {out : Option ConnectionResult}
    (hnext : conn.nextRequest rounds = (next, out, rest))
    (stops : ∀ result ∈ out, ∀ reply ∈ replyTo pipeline next result,
      ¬ (reply.closing = false ∧ writes written = true)) :
    serveLog log pipeline writes written conn rounds = log conn rounds := by
  rw [serveLog]
  split
  · exact List.append_nil _
  · rename_i hcall
    rw [hnext] at hcall
    simp only [Prod.mk.injEq] at hcall
    obtain ⟨rfl, rfl, rfl⟩ := hcall
    split
    · exact List.append_nil _
    · rename_i hreply
      rw [dif_neg (stops _ rfl _ hreply)]
      exact List.append_nil _

theorem serveLog_on {result : ConnectionResult} {reply : Reply}
    (hnext : conn.nextRequest rounds = (next, some result, rest))
    (hreply : replyTo pipeline next result = some reply)
    (hopen : reply.closing = false ∧ writes written = true) :
    serveLog log pipeline writes written conn rounds =
      log conn rounds ++ serveLog log pipeline writes (written + 1) next rest := by
  rw [serveLog]
  split
  · rename_i hcall
    rw [hnext] at hcall
    cases hcall
  · rename_i hcall
    rw [hnext] at hcall
    simp only [Prod.mk.injEq, Option.some.injEq] at hcall
    obtain ⟨rfl, rfl, rfl⟩ := hcall
    split
    · rename_i hnone
      rw [hreply] at hnone
      cases hnone
    · rename_i hsome
      rw [hreply] at hsome
      cases hsome
      rw [dif_pos hopen]

theorem serveLog_last {result : ConnectionResult} {reply : Reply}
    (hnext : conn.nextRequest rounds = (next, some result, rest))
    (hreply : replyTo pipeline next result = some reply)
    (shut : ¬ (reply.closing = false ∧ writes written = true)) :
    serveLog log pipeline writes written conn rounds = log conn rounds := by
  refine serveLog_over hnext fun result' hresult reply' hmem => ?_
  obtain rfl := Option.some.inj hresult
  rw [hreply] at hmem
  obtain rfl := Option.some.inj hmem
  exact shut

end Log

end Carafe.Server
