import Carafe.Server.HeadResponses

/-!
# Persistence

Whether the loop asks for another request is decided by one reply after the other.
The options a client sends are the comma-separated list that all its Connection
fields make together, however the list is spread over them.
-/

namespace Carafe.Server
open Http Net

/-- The Connection fields as one field. -/
def connectionValue (headers : Headers) : Bytes :=
  [comma].intercalate
    ((headers.fields.filter fun field => field.name = connectionName).map HeaderField.value)

/-- Options are compared without regard to case. -/
def connectionOptions (headers : Headers) : List Bytes :=
  (elementsOf (connectionValue headers)).map (·.map asciiLower)

/-- What RFC 9112 makes of them, by the version. -/
def WantsClose (request : Request) : Prop :=
  closeOption ∈ connectionOptions request.headers ∨
    request.version = .http10 ∧ keepAliveOption ∉ connectionOptions request.headers

theorem elementsOf_intercalate (values : List Bytes) :
    elementsOf ([comma].intercalate values) = values.flatMap elementsOf := by
  induction values with
  | nil => simp [List.intercalate]
  | cons value values ih =>
    cases values with
    | nil => simp [List.intercalate]
    | cons next values =>
      have hcut : [comma].intercalate (value :: next :: values) =
          value ++ comma :: [comma].intercalate (next :: values) := by
        simp [List.intercalate, List.intersperse]
      rw [hcut, elementsOf_append, ih]
      rfl

theorem mem_connectionOptions {headers : Headers} {option : Bytes} :
    option ∈ connectionOptions headers ↔ ∃ field ∈ headers.fields, field.name = connectionName ∧
      ∃ element ∈ elementsOf field.value, element.map asciiLower = option := by
  simp only [connectionOptions, connectionValue, elementsOf_intercalate, List.mem_map,
    List.mem_flatMap, List.mem_filter, decide_eq_true_eq]
  constructor
  · rintro ⟨element, ⟨value, ⟨field, ⟨hfield, hname⟩, rfl⟩, helement⟩, hoption⟩
    exact ⟨field, hfield, hname, element, helement, hoption⟩
  · rintro ⟨field, hfield, hname, element, helement, hoption⟩
    exact ⟨element, ⟨field.value, ⟨field, ⟨hfield, hname⟩, rfl⟩, helement⟩, hoption⟩

theorem hasConnectionOption_iff {headers : Headers} {option : Bytes} :
    hasConnectionOption headers option = true ↔ option ∈ connectionOptions headers := by
  rw [mem_connectionOptions]
  simp [hasConnectionOption, listElements_eq, asciiEqualsLowered_iff]

theorem clientWantsClose_iff (request : Request) :
    clientWantsClose request = true ↔ WantsClose request := by
  unfold clientWantsClose WantsClose
  rw [← hasConnectionOption_iff, ← hasConnectionOption_iff]
  split
  · simp [*]
  · cases request.version <;> simp [*]

/-- Whitespace ahead of a list is not part of it. -/
theorem elementsOf_ows {ows : Bytes} (blank : ∀ ch ∈ ows, isOws ch = true) (value : Bytes) :
    elementsOf (ows ++ value) = elementsOf value := by
  have hfresh : comma ∉ ows := fun hmem => absurd (blank comma hmem) (by decide)
  have htrim (piece : Bytes) : Search.trim isOws (ows ++ piece) = Search.trim isOws piece := by
    rw [Search.trim, Search.trim, List.dropWhile_append_of_pos blank]
  by_cases hcomma : comma ∈ value
  · obtain ⟨piece, rest, rfl, fresh⟩ := List.eq_append_cons_of_mem hcomma
    rw [← List.append_assoc, elementsOf_comma (by simp [hfresh, fresh]), elementsOf_comma fresh,
      htrim]
  · rw [elementsOf_piece hcomma, elementsOf_piece (by simp [hfresh, hcomma]), htrim]

/-- One field or two that have its list between them. -/
theorem connectionOptions_cut {joined split : Headers} {front mid back : List HeaderField}
    {first ows second : Bytes} (blank : ∀ ch ∈ ows, isOws ch = true)
    (one : joined.fields =
      front ++ ⟨connectionName, first ++ comma :: (ows ++ second)⟩ :: (mid ++ back))
    (two : split.fields =
      front ++ ⟨connectionName, first⟩ :: (mid ++ ⟨connectionName, second⟩ :: back))
    (option : Bytes) : option ∈ connectionOptions joined ↔ option ∈ connectionOptions split := by
  rw [mem_connectionOptions, mem_connectionOptions, one, two]
  simp only [List.mem_append, List.mem_cons, or_and_right, exists_or, exists_eq_left, true_and,
    elementsOf_append, elementsOf_ows blank]
  exact or_congr_right (or_assoc.trans (or_congr_right or_left_comm))

/-- Every call of `next_request` that the loop makes, with the turn it comes to if it is
answered. -/
def passes (pipeline : Pipeline) (writes : Nat → Bool) (written : Nat) (conn : Connection)
    (rounds : List Round) : List (Option Turn) :=
  match hnext : conn.nextRequest rounds with
  | (_, none, _) => [none]
  | (next, some result, rest) =>
    match hreply : replyTo pipeline next result with
    | none => [none]
    | some reply =>
      if hopen : reply.closing = false ∧ writes written = true then
        have := pass_work hnext hreply hopen.1
        some ⟨next, result, reply⟩ :: passes pipeline writes (written + 1) next rest
      else [some ⟨next, result, reply⟩]
termination_by conn.pendingWork rounds

section Turns
variable {pipeline : Pipeline} {writes : Nat → Bool} {written : Nat} {conn next : Connection}
  {rounds rest : List Round}

theorem serve_unanswered {result : Option ConnectionResult}
    (hnext : conn.nextRequest rounds = (next, result, rest))
    (hreply : ∀ ended ∈ result, replyTo pipeline next ended = none) :
    serve pipeline writes written conn rounds = [] := by
  rw [serve]
  split
  · rfl
  · rename_i next' ended rest' h
    cases hnext.symm.trans h
    split
    · rfl
    · rename_i reply hsome
      rw [hreply ended rfl] at hsome
      cases hsome

theorem serve_answered {result : ConnectionResult} {reply : Reply}
    (hnext : conn.nextRequest rounds = (next, some result, rest))
    (hreply : replyTo pipeline next result = some reply) :
    serve pipeline writes written conn rounds = ⟨next, result, reply⟩ ::
      if reply.closing = false ∧ writes written = true then
        serve pipeline writes (written + 1) next rest else [] := by
  rw [serve]
  split
  · rename_i h
    cases hnext.symm.trans h
  · rename_i next' ended rest' h
    cases hnext.symm.trans h
    split
    · rename_i hnone
      cases hreply.symm.trans hnone
    · rename_i reply' hsome
      cases hreply.symm.trans hsome
      split <;> rfl

/-- What is answered are the turns. -/
theorem passes_turns (pipeline : Pipeline) (writes : Nat → Bool) (written : Nat)
    (conn : Connection) (rounds : List Round) :
    (passes pipeline writes written conn rounds).filterMap id =
      serve pipeline writes written conn rounds := by
  fun_induction passes pipeline writes written conn rounds with
  | case1 written conn rounds next rest hnext =>
    rw [serve_unanswered hnext (by simp)]
    rfl
  | case2 written conn rounds next result rest hnext hreply =>
    have hended : ∀ ended ∈ some result, replyTo pipeline next ended = none := by
      rintro _ ⟨⟩
      exact hreply
    rw [serve_unanswered hnext hended]
    rfl
  | case3 written conn rounds next result rest hnext reply hreply hopen _ ih =>
    rw [serve_answered hnext hreply, if_pos hopen, ← ih]
    rfl
  | case4 written conn rounds next result rest hnext reply hreply hopen =>
    rw [serve_answered hnext hreply, if_neg hopen]
    rfl

theorem passes_ne_nil (pipeline : Pipeline) (writes : Nat → Bool) (written : Nat)
    (conn : Connection) (rounds : List Round) :
    passes pipeline writes written conn rounds ≠ [] := by
  fun_cases passes pipeline writes written conn rounds <;> exact List.cons_ne_nil _ _

/-- Where every write succeeds, the last pass is the one that ends the connection. -/
theorem passes_turn {front back : List (Option Turn)} {turn : Turn}
    (h : passes pipeline (fun _ => true) written conn rounds = front ++ some turn :: back) :
    turn.Answers pipeline ∧ (back = [] ↔ turn.reply.closing = true) := by
  generalize hwrites : (fun _ => true) = writes at h
  fun_induction passes pipeline writes written conn rounds generalizing front with
  | case1 => simp [List.singleton_eq_append_iff] at h
  | case2 => simp [List.singleton_eq_append_iff] at h
  | case3 written conn rounds next result rest hnext reply hreply hopen _ ih =>
    cases front with
    | nil =>
      obtain ⟨hturn, hback⟩ := List.cons.inj h
      cases hturn
      refine ⟨hreply, fun hnil => ?_, fun hclosing => ?_⟩
      · exact False.elim (passes_ne_nil _ _ _ _ _ (hback.trans hnil))
      · cases hclosing.symm.trans hopen.1
    | cons first front => exact ih (List.cons.inj h).2
  | case4 written conn rounds next result rest hnext reply hreply hopen =>
    have hclosing : reply.closing = true := by
      rw [← hwrites] at hopen
      simpa using hopen
    cases front with
    | nil =>
      obtain ⟨hturn, hback⟩ := List.cons.inj h
      cases hturn
      exact ⟨hreply, fun _ => hclosing, fun _ => hback.symm⟩
    | cons first front => simp at h

end Turns

/-- The reply tells the client that it is the last one. -/
def Reply.announces (reply : Reply) : Prop :=
  ⟨connectionName, closeOption⟩ ∈ reply.response.headers.fields

theorem answer_announces {response : Response} {closing withBody : Bool}
    (plain : response.headers.contains connectionName = false) :
    (answer response closing withBody).announces ↔ closing = true := by
  have habsent : ⟨connectionName, closeOption⟩ ∉ response.headers.fields := by
    intro hmem
    have hcontains :=
      (Headers.contains_iff lowered_connectionName response.headers).mpr ⟨_, hmem, rfl⟩
    rw [plain] at hcontains
    cases hcontains
  cases closing with
  | false => simpa [Reply.announces, answer] using habsent
  | true => simp [Reply.announces, answer, lowered_connectionName]

theorem statusResponse_plain (status : Int) :
    (statusResponse status).headers.contains connectionName = false := by
  have hfirst : (statusResponse 0).headers.contains connectionName = false := by decide
  exact hfirst

theorem respond_wantsClose (pipeline : Pipeline) (request : Request) :
    clientWantsClose (pipeline.respond request).1 = clientWantsClose request := rfl

namespace Turn
variable {pipeline : Pipeline} {turn : Turn}

theorem Answers.handled (h : turn.Answers pipeline) {request : Request}
    (handled : turn.handled = some request) : turn.reply = handledReply pipeline request := by
  rcases h.cases with ⟨hnone, -⟩ | ⟨request', hrequest, -, hreply⟩
  · cases handled.symm.trans hnone
  · cases handled.symm.trans hrequest
    exact hreply

theorem Answers.failure (h : turn.Answers pipeline) (read : turn.result.osError = 0)
    (failed : turn.result.error ≠ .none) : turn.reply =
      failureReply turn.result.error turn.result.streamContinues turn.result.version := by
  unfold Answers replyTo at h
  rw [if_pos (Or.inl failed), if_neg (not_not_intro read)] at h
  exact (Option.some.inj h).symm

theorem Answers.timeout (h : turn.Answers pipeline) (failed : turn.result.osError ≠ 0) :
    turn.reply = timeoutReply := by
  unfold Answers replyTo at h
  rw [if_pos (Or.inr failed), if_pos failed] at h
  split at h
  · exact (Option.some.inj h).symm
  · cases h

/-- Without a Connection field from the pipeline, a reply announces what it does. -/
theorem Answers.announces (h : turn.Answers pipeline)
    (plain : ∀ request ∈ turn.handled,
      (pipeline.respond request).2.headers.contains connectionName = false) :
    turn.reply.announces ↔ turn.reply.closing = true := by
  rcases h.cases with ⟨-, status, closing, hreply⟩ | ⟨request, hrequest, -, hreply⟩
  · rw [hreply]
    exact answer_announces (statusResponse_plain status)
  · rw [hreply]
    exact answer_announces (plain request hrequest)

end Turn

/-- The connection ends exactly when persistence says so, and the reply says so too. -/
theorem passes_persist {pipeline : Pipeline} {conn : Connection} {rounds : List Round}
    (plain : ∀ turn, some turn ∈ passes pipeline (fun _ => true) 0 conn rounds →
      ∀ request ∈ turn.handled,
        (pipeline.respond request).2.headers.contains connectionName = false) :
    (∀ front turn back,
      passes pipeline (fun _ => true) 0 conn rounds = front ++ some turn :: back →
      (∀ request, turn.handled = some request → (back = [] ↔ WantsClose request)) ∧
      (turn.result.osError = 0 → turn.result.error ≠ .none →
        (back = [] ↔ turn.result.streamContinues = false ∨ turn.result.version = .http10)) ∧
      (turn.result.osError ≠ 0 → turn.reply = timeoutReply ∧ back = []) ∧
      (turn.reply.announces ↔ back = [])) ∧
    ∀ (joined split : Request) (front mid back : List HeaderField) (first ows second : Bytes),
      joined.version = split.version → (∀ ch ∈ ows, isOws ch = true) →
      joined.headers.fields =
        front ++ ⟨connectionName, first ++ comma :: (ows ++ second)⟩ :: (mid ++ back) →
      split.headers.fields =
        front ++ ⟨connectionName, first⟩ :: (mid ++ ⟨connectionName, second⟩ :: back) →
      clientWantsClose joined = clientWantsClose split := by
  constructor
  · intro front turn back h
    obtain ⟨answers, ends⟩ := passes_turn h
    have hmem : some turn ∈ passes pipeline (fun _ => true) 0 conn rounds := by
      rw [h]
      simp
    refine ⟨fun request handled => ?_, fun read failed => ?_, fun failed => ?_, ?_⟩
    · rw [ends, answers.handled handled, ← clientWantsClose_iff, ← respond_wantsClose pipeline]
      rfl
    · rw [ends, answers.failure read failed]
      simp [failureReply, answer]
    · have hreply := answers.timeout failed
      exact ⟨hreply, ends.mpr (by rw [hreply]; rfl)⟩
    · rw [ends]
      exact answers.announces (plain turn hmem)
  · intro joined split front mid back first ows second version blank one two
    rw [Bool.eq_iff_iff, clientWantsClose_iff, clientWantsClose_iff, WantsClose, WantsClose, version,
      connectionOptions_cut blank one two, connectionOptions_cut blank one two]

/-- A client that asks to close with the second of its options. -/
def closingRounds : List Round :=
  [⟨0, 0, .bytes (bytes "GET / HTTP/1.1\r\nHost: a\r\nConnection: x, Close\r\n\r\n") (by decide)
    (by decide), 0⟩]

theorem respond_empty_plain (request : Request) :
    ((({} : Pipeline).respond request).2.headers.contains connectionName) = false :=
  statusResponse_plain 404

theorem passes_persist_close : ∃ turn,
    passes {} (fun _ => true) 0 { deadlines := {} } closingRounds = [some turn] ∧
      turn.reply.announces := by
  have hanswered : (passes {} (fun _ => true) 0 { deadlines := {} } closingRounds).map
      Option.isSome = [true] := by decide +kernel
  obtain ⟨pass, hpass, hsome⟩ := List.map_eq_singleton_iff.mp hanswered
  obtain ⟨turn, rfl⟩ := Option.isSome_iff_exists.mp hsome
  have hall := (passes_persist fun turn _ request _ => respond_empty_plain request).1
    [] turn [] hpass
  exact ⟨turn, hpass, hall.2.2.2.mpr rfl⟩

end Carafe.Server
