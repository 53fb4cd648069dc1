import Carafe.Server.Serving

/-!
# One answer for one request

The responses of a run and the requests of its stream, side by side. Every whole
request has one response, in order, and one more response can answer the request
that has begun behind them. What spoils this is a read that times out when nothing
has begun there, or only a request that has been refused before.
-/

namespace Carafe.Server
open Http Net TokenStream

/-- A whole request and its response. -/
inductive Served (pipeline : Pipeline) : Bytes → Reply → Prop where
  | handled (wire : WireRequest) : Served pipeline wire.encode (handledReply pipeline wire.request)
  | refused {head : Head} (complete : head.Complete) {n : Nat} (states : head.StatesLength n)
      (large : maxBodyBytes < n) (bounded : n ≤ maxDrainBytes) (body : Bytes)
      (whole : body.length = n) : Served pipeline (head.text ++ crlf ++ body)
        (failureReply .bodyTooLarge true head.line.version)

/-- What stands behind the whole requests, and a response to the request it begins with. -/
inductive Begun : Bytes → Reply → Prop where
  | refused {head : Head} (complete : head.Complete) {n : Nat} (states : head.StatesLength n)
      (large : maxBodyBytes < n) (bounded : n ≤ maxDrainBytes) (more : Bytes) :
      Begun (head.text ++ crlf ++ more) (failureReply .bodyTooLarge true head.line.version)
  | lost {rest : Bytes} (begun : rest ≠ []) (unfinished : Unfinished rest) (error : RequestError)
      (version : Version) : Begun rest (failureReply error false version)
  | timedOut {rest : Bytes} (begun : rest ≠ []) (unfinished : Unfinished rest) :
      Begun rest timeoutReply

/-- The responses answer the requests of the stream one by one from the first one on. -/
def InOrder (pipeline : Pipeline) (stream : Bytes) (replies : List Reply) : Prop :=
  ∃ (parts : List (Bytes × Reply)) (rest : Bytes),
    stream = (parts.map Prod.fst).flatten ++ rest ∧
    (∀ part ∈ parts, Served pipeline part.1 part.2) ∧
    (replies = parts.map Prod.snd ∨
      ∃ last, replies = parts.map Prod.snd ++ [last] ∧ Begun rest last)

/-- Nothing has begun behind the whole requests, or a request that is refused already. -/
def NothingOwed (reader : RequestReader) : Prop :=
  reader.phase = .discard ∨ (reader.phase = .requestLine ∧ reader.unread = [])

theorem Served.extent {pipeline : Pipeline} {extent : Bytes} {reply : Reply}
    (h : Served pipeline extent reply) : ∃ result, Extent extent result := by
  cases h with
  | handled wire => exact ⟨_, .delivered wire⟩
  | refused complete states large bounded body whole =>
    exact ⟨_, .refused complete states large bounded body whole⟩

theorem Begun.nonempty {rest : Bytes} {reply : Reply} (h : Begun rest reply) : rest ≠ [] := by
  cases h with
  | refused => simp [crlf]
  | lost begun => exact begun
  | timedOut begun => exact begun

section Parts
variable {pipeline : Pipeline}

theorem served_of_extent {extent : Bytes} {result : RequestResult} {reply : Reply}
    (h : Extent extent result) (hreply : parsedReply pipeline result = some reply) :
    Served pipeline extent reply := by
  cases h with
  | delivered wire =>
    obtain rfl : handledReply pipeline wire.request = reply := by
      simpa [parsedReply, delivery] using hreply
    exact .handled wire
  | @refused head complete n states large bounded body whole =>
    obtain rfl : failureReply .bodyTooLarge true head.line.version = reply := by
      simpa [parsedReply, refusal] using hreply
    exact .refused complete states large bounded body whole

theorem served_parts {done : Bytes} {results : List RequestResult} {replies : List Reply}
    (h : Extents done results) (same : results.map (parsedReply pipeline) = replies.map some) :
    ∃ parts : List (Bytes × Reply), done = (parts.map Prod.fst).flatten ∧
      replies = parts.map Prod.snd ∧ ∀ part ∈ parts, Served pipeline part.1 part.2 := by
  obtain ⟨parts, rfl, rfl, all⟩ := h
  induction parts generalizing replies with
  | nil =>
    obtain rfl : replies = [] := by simpa using same.symm
    exact ⟨[], rfl, rfl, by simp⟩
  | cons part parts ih =>
    cases replies with
    | nil => simp at same
    | cons reply replies =>
      simp only [List.map_cons, List.cons.injEq] at same
      obtain ⟨parts', hdone, hreplies, hserved⟩ :=
        ih (fun part h => all part (List.mem_cons_of_mem _ h)) same.2
      refine ⟨(part.1, reply) :: parts', by simp [hdone], by simp [hreplies], ?_⟩
      intro part' hpart'
      rcases List.mem_cons.mp hpart' with rfl | hmem
      · exact served_of_extent (all part List.mem_cons_self) same.1
      · exact hserved part' hmem

theorem extents_of_parts {parts : List (Bytes × Reply)}
    (h : ∀ part ∈ parts, Served pipeline part.1 part.2) :
    ∃ results, Extents (parts.map Prod.fst).flatten results ∧ results.length = parts.length := by
  induction parts using List.reverseRecOn with
  | nil => exact ⟨[], .nil, rfl⟩
  | append_singleton parts part ih =>
    obtain ⟨results, hextents, hlength⟩ := ih fun part' hmem => h part' (by simp [hmem])
    obtain ⟨result, hextent⟩ := (h part (by simp)).extent
    refine ⟨results ++ [result], ?_, by simp [hlength]⟩
    have hsnoc := hextents.snoc hextent
    simpa using hsnoc

/-- Whole requests with their responses, and one more that has begun. -/
theorem InOrder.of_extents {done rest : Bytes} {results : List RequestResult}
    {replies : List Reply} (h : Extents done results)
    (same : results.map (parsedReply pipeline) = replies.map some) :
    InOrder pipeline (done ++ rest) replies ∧
      ∀ last, Begun rest last → InOrder pipeline (done ++ rest) (replies ++ [last]) := by
  obtain ⟨parts, rfl, rfl, served⟩ := served_parts h same
  exact ⟨⟨parts, rest, rfl, served, Or.inl rfl⟩,
    fun last begun => ⟨parts, rest, rfl, served, Or.inr ⟨last, rfl, begun⟩⟩⟩

/-- There are no more responses than whole requests, but for one that has begun. -/
theorem InOrder.count {done pending : Bytes} {results : List RequestResult}
    {replies : List Reply} (whole : Extents done results) (unfinished : Unfinished pending)
    (h : InOrder pipeline (done ++ pending) replies) : replies.length ≤ results.length + 1 ∧
      (replies.length = results.length + 1 → pending ≠ []) := by
  obtain ⟨parts, rest, hcut, served, hreplies⟩ := h
  obtain ⟨results', hextents, hlength⟩ := extents_of_parts served
  obtain ⟨more, moreResults, hdone, rfl, hmore⟩ := whole.split_off hextents unfinished hcut
  rw [List.length_append, hlength]
  rcases hreplies with rfl | ⟨last, rfl, begun⟩
  · rw [List.length_map]
    exact ⟨by omega, fun h => by omega⟩
  · rw [List.length_append, List.length_map, List.length_singleton]
    refine ⟨by omega, fun h => ?_⟩
    obtain rfl : moreResults = [] := List.length_eq_zero_iff.mp (by omega)
    obtain rfl : more = [] := by
      obtain ⟨parts', rfl, hnil, -⟩ := hmore
      simp [List.map_eq_nil_iff.mp hnil.symm]
    rw [hdone, List.append_nil, List.append_cancel_left_eq] at hcut
    rw [hcut]
    exact begun.nonempty

end Parts

section Runs
variable {pipeline : Pipeline} {deadlines : Deadlines} {writes : Nat → Bool}

/-- What a live reader has answered is in order, whatever else it has been given. -/
theorem account_in_order {bytes : Bytes} {results : List RequestResult} {s : Assembly}
    {replies : List Reply} (h : Account bytes results s)
    (same : results.map (parsedReply pipeline) = replies.map some) (unread : Bytes) :
    InOrder pipeline (bytes ++ unread) replies := by
  cases h with
  | between before =>
    rw [List.append_assoc]
    exact (InOrder.of_extents before same).1
  | @dropping done dropped results before head complete n states large bounded more =>
    obtain ⟨first, last, rfl⟩ : ∃ first last, replies = first ++ [last] := by
      have hne : replies ≠ [] := by
        rintro rfl
        simp at same
      exact ⟨_, _, (List.dropLast_append_getLast hne).symm⟩
    rw [List.map_append, List.map_append] at same
    obtain ⟨hfirst, hlast⟩ := List.append_inj' same rfl
    obtain rfl : failureReply .bodyTooLarge true head.line.version = last := by
      simpa [parsedReply, refusal] using hlast
    rw [List.append_assoc]
    refine (InOrder.of_extents before hfirst).2 _ ?_
    rw [List.append_assoc]
    exact .refused complete states large bounded _

/-- The answers of the reader are in order. -/
theorem Serving.answers_in_order {journal : Journal} {conn : Connection} {turns : List Turn}
    (h : Serving pipeline deadlines writes journal conn turns)
    (replies : journal.results.map (parsedReply pipeline) = (turns.map Turn.reply).map some) :
    InOrder pipeline journal.bytes (turns.map Turn.reply) := by
  obtain ⟨results, hran, hresults⟩ := h.run.ran
  by_cases live : conn.reader.failure = .none
  · obtain ⟨bytes, hcut, hreads⟩ := hran.reads live
    have haccount := Account.front.reads hreads live
    rw [List.nil_append, List.nil_append, hresults] at haccount
    rw [hcut]
    exact account_in_order haccount replies _
  · cases h with
    | start => exact False.elim (live rfl)
    | read h _ parse receive =>
      obtain ⟨_, hran', -⟩ := h.run.ran
      obtain ⟨_, _, -, live', -⟩ := ran_waiting hran' parse
      obtain ⟨chunk, arrived, fits, hread, rfl⟩ := Connection.receive_none receive
      rw [Connection.received_reader] at live
      exact False.elim (live live')
    | @parsed journal earlier _ turns parsed reply h goesOn parse hreply =>
      obtain ⟨results', hran', hresults'⟩ := h.run.ran
      obtain ⟨hnext, -, -⟩ := Connection.parse_some parse
      have hanswer := hran'.lost_answer (h.live goesOn)
      have hlost := hran'.lost_call (h.live goesOn)
      rw [hnext] at hanswer hlost
      obtain ⟨done, rest, hcut, hextents, begun, unfinished, -⟩ := hlost live
      have hparsed : parsed = lostAnswer conn.reader.state := hanswer live
      obtain rfl : failureReply conn.reader.failure false
          conn.reader.state.request.version = reply := by
        simpa [parsedReply, hparsed, lostAnswer, live] using hreply
      have hbefore : journal.results.map (parsedReply pipeline) =
          (turns.map Turn.reply).map some := by
        rw [List.map_append] at replies
        simp only [Journal.answer, List.map_append] at replies
        exact (List.append_inj' replies rfl).1
      rw [hresults'] at hextents
      rw [List.map_append]
      change InOrder pipeline journal.bytes _
      rw [hcut]
      exact (InOrder.of_extents hextents hbefore).2 _ (.lost begun unfinished _ _)
    | stopped h _ parse receive =>
      obtain ⟨_, hran', -⟩ := h.run.ran
      obtain ⟨_, _, -, live', -⟩ := ran_waiting hran' parse
      obtain ⟨rfl, -, -⟩ := Connection.receive_some receive
      exact False.elim (live live')

/-- A read that times out is answered in order if a request has begun that is still owed
its answer. -/
theorem Waits.timeout_in_order {journal : Journal} {waiting : Connection} {replies : List Reply}
    (h : Waits deadlines journal waiting)
    (same : journal.results.map (parsedReply pipeline) = replies.map some) :
    InOrder pipeline journal.bytes (replies ++ [timeoutReply]) ↔
      ¬ NothingOwed waiting.reader := by
  have hposition := h.position
  have hphase : waiting.reader.phase = waiting.reader.state.phase := rfl
  rw [NothingOwed, hphase]
  have hlength := congrArg List.length same
  rw [List.length_map, List.length_map] at hlength
  generalize waiting.reader.state = s at hposition
  generalize waiting.reader.unread = unread at hposition
  generalize journal.bytes = stream at hposition
  generalize journal.results = results at hposition same hlength
  cases hposition with
  | @between done p _ _ _ before partly unfinished =>
    constructor
    · rintro inOrder (hdiscard | ⟨hline, rfl⟩)
      · exact partly.phase_ne hdiscard
      · have hcount := (inOrder.count before unfinished).2 (by simp [hlength])
        exact hcount (by rw [partly.fresh hline, List.append_nil])
    · intro owed
      refine (InOrder.of_extents before same).2 _ (.timedOut ?_ unfinished)
      rintro hnil
      obtain ⟨hp, hunread⟩ := List.append_eq_nil_iff.mp hnil
      exact owed (Or.inr ⟨partly.phase_front hp, hunread⟩)
  | @dropping done dropped results before head complete n states large bounded more unfinished =>
    constructor
    · intro inOrder
      have hcount := (inOrder.count before unfinished).1
      simp only [List.length_append, List.length_singleton] at hcount hlength
      omega
    · intro owed
      exact False.elim (owed (Or.inl rfl))

/-- Responses are out of order if and only if a timeout is answered with nothing owed. -/
theorem Serving.in_order_iff {journal : Journal} {conn : Connection} {turns : List Turn}
    (h : Serving pipeline deadlines writes journal conn turns) :
    InOrder pipeline journal.bytes (turns.map Turn.reply) ↔
      ∀ turn ∈ turns, turn.result.osError ≠ 0 → ¬ NothingOwed turn.conn.reader := by
  cases h.shape with
  | answers replies noTimeout =>
    refine iff_of_true (h.answers_in_order replies) ?_
    intro turn hturn timeout
    exact False.elim (timeout (noTimeout turn hturn))
  | @timeout turns turn replies noTimeout waits failed progress hreply =>
    rw [List.map_append, List.map_singleton, hreply, waits.timeout_in_order replies]
    constructor
    · intro owed turn' hturn' timeout
      rcases List.mem_append.mp hturn' with hold | hnew
      · exact False.elim (timeout (noTimeout turn' hold))
      · rw [List.mem_singleton.mp hnew]
        exact owed
    · intro all
      exact all turn (by simp) failed

/-- The responses of a script, and its last wait: only a timeout that is answered can spoil them. -/
theorem Stops.in_order {journal : Journal} {turns : List Turn} {last : List Wait}
    {rounds : List Round} (h : Stops pipeline deadlines writes journal turns last rounds) :
    last.flatMap Wait.arrivals = [] ∧ (∀ turn ∈ turns.dropLast, turn.reply.closing = false) ∧
      (InOrder pipeline journal.bytes (turns.map Turn.reply) ↔
        ∀ wait ∈ last, timedOut wait.osError = true → wait.conn.requestInProgress = true →
          ¬ NothingOwed wait.conn.reader) := by
  have hanswered : ∀ {conn : Connection}, Serving pipeline deadlines writes journal conn turns →
      (∀ turn ∈ turns, turn.result.osError = 0) → InOrder pipeline journal.bytes (turns.map Turn.reply) :=
    fun run noTimeout => run.in_order_iff.mpr
      fun turn hturn timeout => False.elim (timeout (noTimeout turn hturn))
  cases h with
  | shut run ended noTimeout =>
    exact ⟨rfl, run.open_before, iff_of_true (hanswered run noTimeout) (by simp)⟩
  | ran run goesOn parse =>
    exact ⟨rfl, run.open_before,
      iff_of_true (hanswered run (run.shape.of_open goesOn).2) (by simp)⟩
  | @unanswered conn waiting round rounds result run goesOn parse receive silent =>
    obtain ⟨hos, harrivals⟩ := Connection.receive_stops receive
    obtain ⟨-, noError, noRequest⟩ := Connection.receive_some receive
    refine ⟨by simpa using harrivals, run.open_before,
      iff_of_true (hanswered run (run.shape.of_open goesOn).2) ?_⟩
    intro wait hwait timeout progress
    obtain rfl := List.mem_singleton.mp hwait
    rw [hos] at timeout
    rw [replyTo_read noError noRequest, if_pos ⟨timeout, progress⟩] at silent
    cases silent
  | @answered conn waiting round rounds reply result before run goesOn parse receive replies last =>
    obtain ⟨hos, harrivals⟩ := Connection.receive_stops receive
    obtain ⟨-, noError, noRequest⟩ := Connection.receive_some receive
    obtain ⟨failed, timeout, progress, -⟩ := replyTo_stopped noError noRequest replies
    have hrun := run.stopped goesOn parse receive replies
    subst last
    refine ⟨by simpa using harrivals, hrun.open_before, hrun.in_order_iff.trans ?_⟩
    constructor
    · intro all wait hwait _ _
      obtain rfl := List.mem_singleton.mp hwait
      exact all ⟨waiting, result, reply⟩ (by simp) failed
    · intro all turn hturn hfailed
      rcases List.mem_append.mp hturn with hold | hnew
      · exact False.elim (hfailed ((run.shape.of_open goesOn).2 turn hold))
      · rw [List.mem_singleton.mp hnew]
        exact all ⟨waiting, round⟩ (by simp) (by rwa [hos]) progress

end Runs

/-- The bytes that have been received. -/
def received (waits : List Wait) : Bytes := (waits.flatMap Wait.arrivals).map Prod.fst

/-- For every script the responses answer the requests one by one, and none is written behind
one that ends the connection, if and only if no read times out while the flag is set and
nothing is owed. -/
theorem serve_one_each (pipeline : Pipeline) (deadlines : Deadlines) (writes : Nat → Bool)
    (rounds : List Round) :
    (InOrder pipeline (received (serveWaits pipeline writes 0 { deadlines := deadlines } rounds))
        ((serve pipeline writes 0 { deadlines := deadlines } rounds).map Turn.reply) ∧
      ∀ turn ∈ (serve pipeline writes 0 { deadlines := deadlines } rounds).dropLast,
        turn.reply.closing = false) ↔
    ∀ wait ∈ serveWaits pipeline writes 0 { deadlines := deadlines } rounds,
      timedOut wait.osError = true → wait.conn.requestInProgress = true →
        ¬ NothingOwed wait.conn.reader := by
  have hstart : Serving pipeline deadlines writes {} { deadlines := deadlines } [] := .start
  obtain ⟨journal, front, last, back, hwaits, -, harrived, hbrought, hstops⟩ :=
    hstart.serve_stops (by simp [Open]) rounds
  simp only [List.nil_append, List.length_nil] at hwaits harrived hstops
  obtain ⟨hnone, hopen, horder⟩ := hstops.in_order
  have hreceived : received (front ++ last) = journal.bytes := by
    rw [received, List.flatMap_append, hnone, List.append_nil, ← harrived]
    rfl
  rw [hwaits, hreceived, and_iff_left hopen, horder]
  constructor
  · intro all wait hwait timeout
    rcases List.mem_append.mp hwait with hfront | hlast
    · exact False.elim (timedOut_ne timeout (hbrought wait hfront))
    · exact all wait hlast timeout
  · intro all wait hwait
    exact all wait (List.mem_append_right _ hwait)

/-- A refused body that stops coming: the request is answered a second time. -/
theorem Serving.answered_twice : ¬ ∀ pipeline deadlines writes journal conn turns,
    Serving pipeline deadlines writes journal conn turns →
      InOrder pipeline journal.bytes (turns.map Turn.reply) := by
  intro all
  obtain ⟨journal, conn, h⟩ := serving_script {}
    [⟨0, 0, .bytes (bytes "POST / HTTP/1.1\r\nHost: a\r\nContent-Length: 2000000\r\n\r\n")
      (by decide) (by decide), 0⟩, ⟨0, 0, .failed eagain (by decide), 0⟩]
  have hall := h.in_order_iff.mp (all _ _ _ _ _ _ h)
  simp only [NothingOwed] at hall
  revert hall
  decide +kernel

end Carafe.Server
