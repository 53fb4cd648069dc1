import Carafe.Http.ResponseFormat
import Carafe.Server.Serving

/-!
# Responses to HEAD

A client that asked with HEAD expects a response to stop at the blank line. The
loop keeps to this where it answers a request that was handed over. Where it answers
a failure it does not look at the method, and the body it writes is taken for the
front of the next response.
-/

namespace Carafe.Server
open Http Net

namespace Turn

/-- The request that was handed over, unless the turn answers a failure. -/
def handled (turn : Turn) : Option Request :=
  if turn.result.error ≠ .none ∨ turn.result.osError ≠ 0 then none else turn.result.request

/-- The method of the request that is answered, as far as it is known. -/
def asks (turn : Turn) : Option Method :=
  if turn.result.error ≠ .none ∨ turn.result.osError ≠ 0 then turn.conn.reader.asked
  else turn.result.request.map Request.method

/-- A turn of the loop. -/
def Answers (pipeline : Pipeline) (turn : Turn) : Prop :=
  replyTo pipeline turn.conn turn.result = some turn.reply

/-- What a client expects that knows the methods it has sent. -/
def expectsBody (turn : Turn) : Bool := turn.asks ≠ some .head

theorem Answers.cases {pipeline : Pipeline} {turn : Turn} (h : turn.Answers pipeline) :
    (turn.handled = none ∧
      ∃ status closing, turn.reply = answer (statusResponse status) closing true) ∨
    ∃ request, turn.handled = some request ∧ turn.asks = some request.method ∧
      turn.reply = handledReply pipeline request := by
  unfold Answers replyTo at h
  unfold handled asks
  split at h
  · rename_i failed
    refine Or.inl ⟨if_pos failed, ?_⟩
    split at h
    · split at h
      · exact ⟨_, _, (Option.some.inj h).symm⟩
      · cases h
    · exact ⟨_, _, (Option.some.inj h).symm⟩
  · rename_i fine
    obtain ⟨request, hrequest, hreply⟩ := Option.map_eq_some_iff.mp h
    refine Or.inr ⟨request, ?_, ?_, hreply.symm⟩
    · rw [if_neg fine, hrequest]
    · rw [if_neg fine, hrequest, Option.map_some]

end Turn

theorem answer_bytes (response : Response) (closing withBody : Bool) :
    (answer response closing withBody).bytes =
      (answer response closing withBody).response.serialize withBody := rfl

theorem answer_body (response : Response) (closing withBody : Bool) :
    (answer response closing withBody).response.body = response.body := by
  cases closing <;> rfl

theorem answer_callerFields (response : Response) (closing withBody : Bool) :
    (answer response closing withBody).response.callerFields = response.callerFields ++
      if closing then [⟨connectionName, closeOption⟩] else [] := by
  have hother : connectionName ≠ contentLength := by decide
  cases closing with
  | false => simp [answer]
  | true => simp [answer, Response.callerFields, lowered_connectionName, hother]

theorem answer_spelled {response : Response} {closing withBody : Bool} :
    (∀ field ∈ (answer response closing withBody).response.callerFields, field.Spelled) ↔
      ∀ field ∈ response.callerFields, field.Spelled := by
  have hclose : HeaderField.Spelled ⟨connectionName, closeOption⟩ := by decide
  rw [answer_callerFields]
  cases closing with
  | false => simp
  | true => simp [or_imp, forall_and, hclose]

theorem statusResponse_spelled (status : Int) :
    ∀ field ∈ (statusResponse status).callerFields, field.Spelled := by
  have hfirst : ∀ field ∈ (statusResponse 0).callerFields, field.Spelled := by decide
  exact hfirst

theorem statusResponse_body (status : Int) : (statusResponse status).body ≠ [] := by
  simp [statusResponse, textResponse, bytes]

namespace Turn
variable {pipeline : Pipeline} {turn : Turn}

/-- The response to a HEAD stops at the blank line unless it answers a failure. -/
theorem Answers.stops_iff (h : turn.Answers pipeline) (head : turn.asks = some .head) :
    turn.reply.bytes = turn.reply.response.serializeHead ↔ turn.handled ≠ none := by
  rcases h.cases with ⟨hnone, status, closing, hreply⟩ | ⟨request, hrequest, hasks, hreply⟩
  · have hbody := statusResponse_body status
    rw [hnone, hreply, answer_bytes, Response.serialize_stops, answer_body]
    simp [hbody]
  · rw [head] at hasks
    have hmethod : request.method = .head := (Option.some.inj hasks).symm
    rw [hrequest, hreply, handledReply, answer_bytes, Response.serialize_stops]
    simp [Pipeline.respond, hmethod]

/-- Where it does, what is written is what the client expects. -/
theorem Answers.expected (h : turn.Answers pipeline)
    (stops : turn.asks = some .head → turn.reply.bytes = turn.reply.response.serializeHead) :
    turn.reply.bytes = turn.reply.response.serialize turn.expectsBody := by
  by_cases head : turn.asks = some .head
  · rw [stops head]
    simp [expectsBody, head, Response.serialize]
  · have hexpects : turn.expectsBody = true := by simp [expectsBody, head]
    rw [hexpects]
    rcases h.cases with ⟨-, status, closing, hreply⟩ | ⟨request, -, hasks, hreply⟩
    · rw [hreply, answer_bytes]
    · have hmethod : request.method ≠ .head := by
        rintro hmethod
        exact head (by rw [hasks, hmethod])
      rw [hreply, handledReply, answer_bytes]
      simp [Pipeline.respond, hmethod]

theorem Answers.spelled_iff (h : turn.Answers pipeline) :
    (∀ field ∈ turn.reply.response.callerFields, field.Spelled) ↔
      ∀ request ∈ turn.handled, ∀ field ∈ (pipeline.respond request).2.callerFields,
        field.Spelled := by
  rcases h.cases with ⟨hnone, status, closing, hreply⟩ | ⟨request, hrequest, -, hreply⟩
  · have hspelled := statusResponse_spelled status
    rw [hreply, answer_spelled, hnone]
    simpa using hspelled
  · rw [hreply, handledReply, answer_spelled, hrequest]
    simp

end Turn

section Runs
variable {pipeline : Pipeline} {deadlines : Deadlines} {writes : Nat → Bool}

theorem Serving.answers {journal : Journal} {conn : Connection} {turns : List Turn}
    (h : Serving pipeline deadlines writes journal conn turns) :
    ∀ turn ∈ turns, turn.Answers pipeline := by
  induction h with
  | start => simp
  | read _ _ _ _ ih => exact ih
  | parsed _ _ _ replies ih =>
    intro turn hturn
    rcases List.mem_append.mp hturn with hold | hnew
    · exact ih turn hold
    · rw [List.mem_singleton.mp hnew, Turn.Answers, replyTo_parsed]
      exact replies
  | stopped _ _ _ _ replies ih =>
    intro turn hturn
    rcases List.mem_append.mp hturn with hold | hnew
    · exact ih turn hold
    · rw [List.mem_singleton.mp hnew]
      exact replies

/-- The method that a response answers stands on the wire. -/
theorem Serving.asks {journal : Journal} {conn : Connection} {turns : List Turn}
    (h : Serving pipeline deadlines writes journal conn turns) :
    ∀ turn ∈ turns, ∀ method ∈ turn.asks, OnWire journal.bytes method := by
  have hfailed : ∀ {journal : Journal} {conn : Connection} {method : Method},
      Run deadlines journal conn → conn.reader.asked = some method →
      OnWire journal.bytes method := by
    intro journal conn method run asked
    obtain ⟨results, hran, -⟩ := run.ran
    exact hran.asks asked
  induction h with
  | start => simp
  | @read journal conn waiting next turns round _ _ _ receive ih =>
    intro turn hturn method hmethod
    obtain ⟨chunk, arrived, fits, hread, -⟩ := Connection.receive_none receive
    rw [journal.read_bytes hread]
    exact (ih turn hturn method hmethod).append chunk
  | @parsed journal conn next turns parsed reply h' goesOn parse replies ih =>
    intro turn hturn method hmethod
    rcases List.mem_append.mp hturn with hold | hnew
    · exact ih turn hold method hmethod
    · rw [List.mem_singleton.mp hnew, Turn.asks] at hmethod
      split at hmethod
      · exact hfailed (h'.run.answered parse) hmethod
      · obtain ⟨request, hrequest, rfl⟩ := Option.map_eq_some_iff.mp hmethod
        obtain ⟨results, hran, -⟩ := h'.run.ran
        obtain ⟨hnext, -, -⟩ := Connection.parse_some parse
        exact hran.delivered_asks (by rw [hnext]; exact hrequest)
  | @stopped journal conn waiting next turns round result reply h' goesOn parse receive replies ih =>
    intro turn hturn method hmethod
    rcases List.mem_append.mp hturn with hold | hnew
    · exact ih turn hold method hmethod
    · obtain ⟨rfl, -, noRequest⟩ := Connection.receive_some receive
      rw [List.mem_singleton.mp hnew, Turn.asks] at hmethod
      split at hmethod
      · exact hfailed (h'.run.waited parse) hmethod
      · rw [noRequest] at hmethod
        cases hmethod

/-- What a client makes of all that is written, by the methods it has sent. -/
def clientReads (turns : List Turn) : Option (List Received) :=
  readResponses (turns.map Turn.expectsBody) (turns.flatMap fun turn => turn.reply.bytes)

theorem clientReads_iff {turns : List Turn}
    (h : ∀ turn ∈ turns, turn.reply.bytes = turn.reply.response.serialize turn.expectsBody) :
    clientReads turns = some (turns.map fun turn => turn.reply.response.received turn.expectsBody) ↔
      ∀ turn ∈ turns, ∀ field ∈ turn.reply.response.callerFields, field.Spelled := by
  have hsent := @readResponses_serialize
    (turns.map fun turn => (turn.reply.response, turn.expectsBody))
  have hbytes : (turns.flatMap fun turn => turn.reply.bytes) =
      turns.flatMap fun turn => turn.reply.response.serialize turn.expectsBody :=
    List.flatMap_congr h
  rw [clientReads, hbytes]
  simpa [List.flatMap_map, Function.comp_def] using hsent

/-- In every run the responses to HEAD stop at the blank line and the client recovers all
responses, if and only if every HEAD is handed over and all fields arrive as they were set. -/
theorem Serving.heads_bare {journal : Journal} {conn : Connection} {turns : List Turn}
    (h : Serving pipeline deadlines writes journal conn turns) :
    ((∀ turn ∈ turns, turn.asks = some .head →
        turn.reply.bytes = turn.reply.response.serializeHead) ∧
      clientReads turns =
        some (turns.map fun turn => turn.reply.response.received turn.expectsBody)) ↔
    (∀ turn ∈ turns, turn.asks = some .head → turn.handled ≠ none) ∧
      ∀ turn ∈ turns, ∀ request ∈ turn.handled,
        ∀ field ∈ (pipeline.respond request).2.callerFields, field.Spelled := by
  have hanswers := h.answers
  have hstops : (∀ turn ∈ turns, turn.asks = some .head →
      turn.reply.bytes = turn.reply.response.serializeHead) ↔
      ∀ turn ∈ turns, turn.asks = some .head → turn.handled ≠ none :=
    forall₃_congr fun turn hturn head => (hanswers turn hturn).stops_iff head
  have hspelled : (∀ turn ∈ turns, ∀ field ∈ turn.reply.response.callerFields, field.Spelled) ↔
      ∀ turn ∈ turns, ∀ request ∈ turn.handled,
        ∀ field ∈ (pipeline.respond request).2.callerFields, field.Spelled :=
    forall₂_congr fun turn hturn => (hanswers turn hturn).spelled_iff
  rw [← hstops, ← hspelled]
  refine and_congr_right fun stops => clientReads_iff ?_
  intro turn hturn
  exact (hanswers turn hturn).expected (stops turn hturn)

end Runs

/-- A HEAD for a route that is not there. -/
theorem Serving.heads_bare_missing : ∃ journal conn turns,
    Serving {} {} (fun _ => true) journal conn turns ∧ turns.map Turn.asks = [some .head] ∧
      clientReads turns =
        some (turns.map fun turn => turn.reply.response.received turn.expectsBody) := by
  obtain ⟨journal, conn, h⟩ := serving_script {}
    [⟨0, 0, .bytes (bytes "HEAD / HTTP/1.1\r\nHost: a\r\n\r\n") (by decide) (by decide), 0⟩]
  refine ⟨journal, conn, _, h, by decide +kernel, ((Serving.heads_bare h).mpr ⟨?_, ?_⟩).2⟩
  · decide +kernel
  · decide +kernel

/-- A HEAD with a body that is refused: the 413 has a body, and the connection stays open. -/
theorem Serving.head_answered_with_body : ¬ ∀ pipeline deadlines writes journal conn turns,
    Serving pipeline deadlines writes journal conn turns → ∀ turn ∈ turns,
      turn.asks = some .head → turn.reply.bytes = turn.reply.response.serializeHead := by
  intro all
  obtain ⟨journal, conn, h⟩ := serving_script {}
    [⟨0, 0, .bytes (bytes "HEAD / HTTP/1.1\r\nHost: a\r\nContent-Length: 2000000\r\n\r\n")
      (by decide) (by decide), 0⟩]
  have hall := all _ _ _ _ _ _ h
  revert hall
  decide +kernel

end Carafe.Server
