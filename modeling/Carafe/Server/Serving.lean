import Carafe.Server.Serve

/-!
# Runs of `serve_connection`

The passes of the loop one at a time, with the journal of the connection and the
turns taken so far. Whatever `serve` returns is such a run; what holds along all of
them is shown by induction on the passes.
-/

namespace Carafe.Server
open Http Net TokenStream

/-- The last response did not end the connection, and could be written. -/
def Open (writes : Nat → Bool) (turns : List Turn) : Prop :=
  ∀ turn ∈ turns.getLast?, turn.reply.closing = false ∧ writes (turns.length - 1) = true

inductive Serving (pipeline : Pipeline) (deadlines : Deadlines) (writes : Nat → Bool) :
    Journal → Connection → List Turn → Prop where
  | start : Serving pipeline deadlines writes {} { deadlines := deadlines } []
  | read {journal : Journal} {conn waiting next : Connection} {turns : List Turn} {round : Round}
      (h : Serving pipeline deadlines writes journal conn turns) (goesOn : Open writes turns)
      (parse : conn.parse = (waiting, none)) (receive : waiting.receive round = (next, none)) :
      Serving pipeline deadlines writes (journal.read round) next turns
  | parsed {journal : Journal} {conn next : Connection} {turns : List Turn}
      {parsed : RequestResult} {reply : Reply}
      (h : Serving pipeline deadlines writes journal conn turns) (goesOn : Open writes turns)
      (parse : conn.parse = (next, some parsed))
      (replies : parsedReply pipeline parsed = some reply) :
      Serving pipeline deadlines writes (journal.answer parsed next.reader.unread) next
        (turns ++ [⟨next, Connection.resultOf parsed, reply⟩])
  | stopped {journal : Journal} {conn waiting next : Connection} {turns : List Turn}
      {round : Round} {result : ConnectionResult} {reply : Reply}
      (h : Serving pipeline deadlines writes journal conn turns) (goesOn : Open writes turns)
      (parse : conn.parse = (waiting, none)) (receive : waiting.receive round = (next, some result))
      (replies : replyTo pipeline next result = some reply) :
      Serving pipeline deadlines writes journal next (turns ++ [⟨next, result, reply⟩])

namespace Connection

theorem receive_some {waiting next : Connection} {round : Round} {result : ConnectionResult}
    (h : waiting.receive round = (next, some result)) :
    next = waiting ∧ result.error = .none ∧ result.request = none := by
  unfold receive at h
  split at h
  · simp only [Prod.mk.injEq, Option.some.injEq] at h
    obtain ⟨rfl, rfl⟩ := h
    exact ⟨rfl, rfl, rfl⟩
  · split at h
    · simp only [Prod.mk.injEq, Option.some.injEq] at h
      obtain ⟨rfl, rfl⟩ := h
      exact ⟨rfl, rfl, rfl⟩
    · simp only [Prod.mk.injEq, Option.some.injEq] at h
      obtain ⟨rfl, rfl⟩ := h
      exact ⟨rfl, rfl, rfl⟩
    · cases h

/-- A read that ends the call brings no bytes. -/
theorem receive_stops {waiting next : Connection} {round : Round} {result : ConnectionResult}
    (h : waiting.receive round = (next, some result)) :
    (Wait.mk waiting round).osError = result.osError ∧ (Wait.mk waiting round).arrivals = [] := by
  unfold receive at h
  unfold Wait.arrivals Wait.osError
  split at h
  · rename_i hdeadline
    cases h
    simp [hdeadline]
  · rename_i hdeadline
    rw [if_neg hdeadline]
    cases hread : round.read with
    | bytes chunk arrived fits =>
      rw [hread] at h
      cases h
    | ended =>
      rw [hread] at h
      cases h
      simp [Round.arrivals, hread]
    | failed osError error =>
      rw [hread] at h
      cases h
      simp [error]

theorem receive_brings {waiting next : Connection} {round : Round}
    (h : waiting.receive round = (next, none)) :
    (Wait.mk waiting round).osError = 0 ∧ (Wait.mk waiting round).arrivals = round.arrivals := by
  obtain ⟨chunk, arrived, fits, hread, -⟩ := receive_none h
  have hzero : (Wait.mk waiting round).osError = 0 := by
    unfold receive at h
    split at h
    · cases h
    · rename_i hdeadline
      simp only [Wait.osError, if_neg hdeadline, hread]
  exact ⟨hzero, if_pos hzero⟩

end Connection

theorem timedOut_ne {osError : Errno} (h : timedOut osError = true) : osError ≠ 0 := by
  rintro rfl
  revert h
  decide

/-- A read that ends the call is answered exactly if it timed out with the flag set. -/
theorem replyTo_read {pipeline : Pipeline} {conn : Connection} {result : ConnectionResult}
    (noError : result.error = .none) (noRequest : result.request = none) :
    replyTo pipeline conn result =
      if timedOut result.osError = true ∧ conn.requestInProgress = true then some timeoutReply
      else none := by
  unfold replyTo
  rw [noError, noRequest]
  by_cases hos : result.osError = 0
  · have hnever : ¬ (timedOut result.osError = true ∧ conn.requestInProgress = true) :=
      fun h => timedOut_ne h.1 hos
    rw [if_neg (by simpa using hos), if_neg hnever]
    rfl
  · rw [if_pos (.inr hos), if_pos hos]

theorem replyTo_stopped {pipeline : Pipeline} {conn : Connection} {result : ConnectionResult}
    {reply : Reply} (noError : result.error = .none) (noRequest : result.request = none)
    (h : replyTo pipeline conn result = some reply) :
    result.osError ≠ 0 ∧ timedOut result.osError = true ∧ conn.requestInProgress = true ∧
      reply = timeoutReply := by
  rw [replyTo_read noError noRequest] at h
  split at h
  · rename_i htimed
    exact ⟨timedOut_ne htimed.1, htimed.1, htimed.2, (Option.some.inj h).symm⟩
  · cases h

theorem parsedReply_isSome (pipeline : Pipeline) {conn next : Connection} {parsed : RequestResult}
    (parse : conn.parse = (next, some parsed)) : (parsedReply pipeline parsed).isSome = true := by
  obtain ⟨-, hanswer, -⟩ := Connection.parse_some parse
  unfold parsedReply
  split
  · rfl
  · rename_i herror
    simpa using hanswer.resolve_left herror

section Runs
variable {pipeline : Pipeline} {deadlines : Deadlines} {writes : Nat → Bool}

theorem Serving.run {journal : Journal} {conn : Connection} {turns : List Turn}
    (h : Serving pipeline deadlines writes journal conn turns) : Run deadlines journal conn := by
  induction h with
  | start => exact .fresh
  | read _ _ parse receive ih => exact .read ih parse receive
  | parsed _ _ parse _ ih => exact .answered ih parse
  | stopped _ _ parse receive _ ih =>
    rw [(Connection.receive_some receive).1]
    exact .waited ih parse

/-- A run that has gone on through reads, each of which brought bytes. -/
structure Fed (pipeline : Pipeline) (deadlines : Deadlines) (writes : Nat → Bool)
    (journal : Journal) (turns : List Turn) (front : List Wait) (reached : Journal)
    (conn : Connection) : Prop where
  run : Serving pipeline deadlines writes reached conn turns
  arrived : reached.arrived = journal.arrived ++ front.flatMap Wait.arrivals
  brought : ∀ wait ∈ front, wait.osError = 0

theorem Fed.cons {journal reached : Journal} {conn waiting next : Connection} {turns : List Turn}
    {front : List Wait} {round : Round} (receive : waiting.receive round = (next, none))
    (h : Fed pipeline deadlines writes (journal.read round) turns front reached conn) :
    Fed pipeline deadlines writes journal turns (⟨waiting, round⟩ :: front) reached conn := by
  obtain ⟨hzero, harrivals⟩ := Connection.receive_brings receive
  refine ⟨h.run, ?_, List.forall_mem_cons.mpr ⟨hzero, h.brought⟩⟩
  rw [h.arrived, List.flatMap_cons, harrivals, ← List.append_assoc]
  rfl

theorem arrivals_brought {front : List Wait} (brought : ∀ wait ∈ front, wait.osError = 0) :
    (front.map Wait.round).flatMap Round.arrivals = front.flatMap Wait.arrivals := by
  rw [List.flatMap_map]
  exact List.flatMap_congr fun wait hwait => (if_pos (brought wait hwait)).symm

/-- How a call of `next_request` ends: with an answer of the reader, a read without bytes, or
the end of the script. -/
inductive Called (pipeline : Pipeline) (deadlines : Deadlines) (writes : Nat → Bool)
    (journal : Journal) (turns : List Turn) (waits : List Wait) (rounds : List Round)
    (next : Connection) (out : Option ConnectionResult) (rest : List Round) : Prop where
  | parsed {reached : Journal} {conn : Connection} {parsed : RequestResult}
      (fed : Fed pipeline deadlines writes journal turns waits reached conn)
      (cut : rounds = waits.map Wait.round ++ rest) (parse : conn.parse = (next, some parsed))
      (out : out = some (Connection.resultOf parsed))
  | stopped {reached : Journal} {conn waiting : Connection} {front : List Wait} {round : Round}
      {result : ConnectionResult}
      (fed : Fed pipeline deadlines writes journal turns front reached conn)
      (made : waits = front ++ [⟨waiting, round⟩])
      (cut : rounds = front.map Wait.round ++ round :: rest)
      (parse : conn.parse = (waiting, none))
      (receive : waiting.receive round = (next, some result)) (out : out = some result)
  | ran {reached : Journal} {conn : Connection}
      (fed : Fed pipeline deadlines writes journal turns waits reached conn)
      (cut : rounds = waits.map Wait.round) (parse : conn.parse = (next, none)) (out : out = none)

theorem Connection.waits_parsed {conn next : Connection} {parsed : RequestResult}
    (parse : conn.parse = (next, some parsed)) (rounds : List Round) : conn.waits rounds = [] := by
  cases rounds with
  | nil => rfl
  | cons round rounds => simp [waits, parse]

theorem Serving.called {journal : Journal} {conn next : Connection} {turns : List Turn}
    {rounds rest : List Round} {out : Option ConnectionResult}
    (h : Serving pipeline deadlines writes journal conn turns) (goesOn : Open writes turns)
    (hnext : conn.nextRequest rounds = (next, out, rest)) :
    Called pipeline deadlines writes journal turns (conn.waits rounds) rounds next out rest := by
  have hfed : ∀ {journal : Journal} {conn : Connection},
      Serving pipeline deadlines writes journal conn turns →
        Fed pipeline deadlines writes journal turns [] journal conn :=
    fun h => ⟨h, by simp, by simp⟩
  induction rounds generalizing journal conn with
  | nil =>
    unfold Connection.nextRequest at hnext
    rcases hparse : conn.parse with ⟨conn', parsed⟩
    rw [hparse] at hnext
    cases parsed with
    | none =>
      simp only [Prod.mk.injEq] at hnext
      obtain ⟨rfl, rfl, rfl⟩ := hnext
      exact .ran (hfed h) rfl hparse rfl
    | some parsed =>
      simp only [Prod.mk.injEq] at hnext
      obtain ⟨rfl, rfl, rfl⟩ := hnext
      exact .parsed (hfed h) rfl hparse rfl
  | cons round rounds ih =>
    unfold Connection.nextRequest at hnext
    rcases hparse : conn.parse with ⟨conn', parsed⟩
    rw [hparse] at hnext
    cases parsed with
    | some parsed =>
      simp only [Prod.mk.injEq] at hnext
      obtain ⟨rfl, rfl, rfl⟩ := hnext
      rw [Connection.waits_parsed hparse]
      exact .parsed (hfed h) rfl hparse rfl
    | none =>
      rcases hreceive : conn'.receive round with ⟨conn'', result⟩
      simp only [hreceive] at hnext
      cases result with
      | some result =>
        simp only [Prod.mk.injEq] at hnext
        obtain ⟨rfl, rfl, rfl⟩ := hnext
        have hwaits : conn.waits (round :: rounds) = [⟨conn', round⟩] := by
          simp [Connection.waits, hparse, hreceive]
        rw [hwaits]
        exact .stopped (hfed h) (List.nil_append _).symm rfl hparse hreceive rfl
      | none =>
        have hwaits : conn.waits (round :: rounds) = ⟨conn', round⟩ :: conn''.waits rounds := by
          simp [Connection.waits, hparse, hreceive]
        rw [hwaits]
        cases ih (h.read goesOn hparse hreceive) hnext with
        | parsed fed cut parse out =>
          exact .parsed (fed.cons hreceive) (congrArg (round :: ·) cut) parse out
        | stopped fed made cut parse receive out =>
          exact .stopped (fed.cons hreceive) (congrArg (_ :: ·) made)
            (congrArg (round :: ·) cut) parse receive out
        | ran fed cut parse out =>
          exact .ran (fed.cons hreceive) (congrArg (round :: ·) cut) parse out

theorem Open.snoc {turns : List Turn} {turn : Turn} (goesOn : turn.reply.closing = false)
    (written : writes turns.length = true) : Open writes (turns ++ [turn]) := by
  intro last hlast
  rw [List.getLast?_concat, Option.mem_some_iff] at hlast
  rw [← hlast, List.length_append, List.length_singleton, Nat.add_sub_cancel]
  exact ⟨goesOn, written⟩

/-- As long as the connection is open, its reader has not lost the stream. -/
theorem Serving.live {journal : Journal} {conn : Connection} {turns : List Turn}
    (h : Serving pipeline deadlines writes journal conn turns) (goesOn : Open writes turns) :
    conn.reader.failure = .none := by
  induction h with
  | start => rfl
  | read h _ parse receive =>
    obtain ⟨results, hran, -⟩ := h.run.ran
    obtain ⟨_, _, -, live, -⟩ := ran_waiting hran parse
    obtain ⟨chunk, arrived, fits, hread, rfl⟩ := Connection.receive_none receive
    rw [Connection.received_reader]
    exact live
  | @parsed journal conn next turns parsed reply h before parse replies ih =>
    obtain ⟨results, hran, -⟩ := h.run.ran
    obtain ⟨hnext, -, -⟩ := Connection.parse_some parse
    have hclosing := (goesOn _ (List.getLast?_concat ..)).1
    have hgoes := parsedReply_goesOn replies hclosing parsed rfl
    by_contra lost
    have hanswer := hran.lost_answer (ih before)
    rw [hnext] at hanswer
    have hparsed : parsed = lostAnswer next.reader.state := hanswer lost
    rw [hparsed] at hgoes
    cases hgoes.2 rfl
  | stopped h _ parse receive replies =>
    obtain ⟨rfl, noError, noRequest⟩ := Connection.receive_some receive
    obtain ⟨-, -, -, rfl⟩ := replyTo_stopped noError noRequest replies
    cases (goesOn _ (List.getLast?_concat ..)).1

/-- All turns but the last left the connection open. -/
theorem Serving.open_before {journal : Journal} {conn : Connection} {turns : List Turn}
    (h : Serving pipeline deadlines writes journal conn turns) :
    ∀ turn ∈ turns.dropLast, turn.reply.closing = false := by
  have hsnoc : ∀ turns : List Turn, (∀ turn ∈ turns.dropLast, turn.reply.closing = false) →
      Open writes turns → ∀ turn ∈ turns, turn.reply.closing = false := by
    intro turns before goesOn turn hturn
    have hne := List.ne_nil_of_mem hturn
    rw [← List.dropLast_append_getLast hne] at hturn
    rcases List.mem_append.mp hturn with hold | hlast
    · exact before turn hold
    · rw [List.mem_singleton.mp hlast]
      exact (goesOn _ (List.getLast?_eq_some_getLast hne)).1
  induction h with
  | start => simp
  | read _ _ _ _ ih => exact ih
  | parsed _ goesOn _ _ ih =>
    rw [List.dropLast_concat]
    exact hsnoc _ ih goesOn
  | stopped _ goesOn _ _ _ ih =>
    rw [List.dropLast_concat]
    exact hsnoc _ ih goesOn

/-- The turns are the answers of the reader, one by one, and then perhaps a timeout. -/
inductive Shape (pipeline : Pipeline) (deadlines : Deadlines) (journal : Journal) :
    List Turn → Prop where
  | answers {turns : List Turn}
      (replies : journal.results.map (parsedReply pipeline) = (turns.map Turn.reply).map some)
      (noTimeout : ∀ turn ∈ turns, turn.result.osError = 0) :
      Shape pipeline deadlines journal turns
  | timeout {turns : List Turn} {turn : Turn}
      (replies : journal.results.map (parsedReply pipeline) = (turns.map Turn.reply).map some)
      (noTimeout : ∀ turn ∈ turns, turn.result.osError = 0)
      (waits : Waits deadlines journal turn.conn) (failed : turn.result.osError ≠ 0)
      (progress : turn.conn.requestInProgress = true) (reply : turn.reply = timeoutReply) :
      Shape pipeline deadlines journal (turns ++ [turn])

theorem Shape.of_open {journal : Journal} {turns : List Turn}
    (h : Shape pipeline deadlines journal turns) (goesOn : Open writes turns) :
    journal.results.map (parsedReply pipeline) = (turns.map Turn.reply).map some ∧
      ∀ turn ∈ turns, turn.result.osError = 0 := by
  cases h with
  | answers replies noTimeout => exact ⟨replies, noTimeout⟩
  | @timeout turns turn replies noTimeout waits failed progress reply =>
    have hclosing := (goesOn turn (List.getLast?_concat ..)).1
    rw [reply] at hclosing
    cases hclosing

theorem Serving.shape {journal : Journal} {conn : Connection} {turns : List Turn}
    (h : Serving pipeline deadlines writes journal conn turns) :
    Shape pipeline deadlines journal turns := by
  induction h with
  | start => exact .answers rfl (by simp)
  | read _ goesOn _ _ ih =>
    obtain ⟨replies, noTimeout⟩ := ih.of_open goesOn
    exact .answers replies noTimeout
  | @parsed journal conn next turns parsed reply _ goesOn parse hreply ih =>
    obtain ⟨replies, noTimeout⟩ := ih.of_open goesOn
    refine .answers ?_ ?_
    · simp [Journal.answer, replies, hreply]
    · intro turn hturn
      rcases List.mem_append.mp hturn with hold | hnew
      · exact noTimeout turn hold
      · rw [List.mem_singleton.mp hnew]
        rfl
  | @stopped journal conn waiting next turns round result reply h' goesOn parse receive hreply ih =>
    obtain ⟨replies, noTimeout⟩ := ih.of_open goesOn
    obtain ⟨rfl, noError, noRequest⟩ := Connection.receive_some receive
    obtain ⟨failed, -, progress, rfl⟩ := replyTo_stopped noError noRequest hreply
    exact .timeout replies noTimeout ⟨conn, h'.run, parse⟩ failed progress rfl

/-- Where `serve` stops, and the wait it stops at: behind a response that ends the connection
or could not be written, at a read without bytes, or at the end of the script. -/
inductive Stops (pipeline : Pipeline) (deadlines : Deadlines) (writes : Nat → Bool)
    (journal : Journal) (turns : List Turn) : List Wait → List Round → Prop where
  | shut {conn : Connection} {rounds : List Round}
      (h : Serving pipeline deadlines writes journal conn turns) (ended : ¬ Open writes turns)
      (noTimeout : ∀ turn ∈ turns, turn.result.osError = 0) :
      Stops pipeline deadlines writes journal turns [] rounds
  | answered {conn waiting : Connection} {round : Round} {rounds : List Round} {reply : Reply}
      {result : ConnectionResult} {before : List Turn}
      (h : Serving pipeline deadlines writes journal conn before) (goesOn : Open writes before)
      (parse : conn.parse = (waiting, none))
      (receive : waiting.receive round = (waiting, some result))
      (replies : replyTo pipeline waiting result = some reply)
      (last : turns = before ++ [⟨waiting, result, reply⟩]) :
      Stops pipeline deadlines writes journal turns [⟨waiting, round⟩] (round :: rounds)
  | unanswered {conn waiting : Connection} {round : Round} {rounds : List Round}
      {result : ConnectionResult} (h : Serving pipeline deadlines writes journal conn turns)
      (goesOn : Open writes turns) (parse : conn.parse = (waiting, none))
      (receive : waiting.receive round = (waiting, some result))
      (silent : replyTo pipeline waiting result = none) :
      Stops pipeline deadlines writes journal turns [⟨waiting, round⟩] (round :: rounds)
  | ran {conn waiting : Connection} (h : Serving pipeline deadlines writes journal conn turns)
      (goesOn : Open writes turns) (parse : conn.parse = (waiting, none)) :
      Stops pipeline deadlines writes journal turns [] []

/-- All that `serve` reads, and where it stops. -/
theorem Serving.serve_stops {journal : Journal} {conn : Connection} {turns : List Turn}
    (h : Serving pipeline deadlines writes journal conn turns) (goesOn : Open writes turns)
    (rounds : List Round) : ∃ reached front last back,
      serveWaits pipeline writes turns.length conn rounds = front ++ last ∧
      rounds = front.map Wait.round ++ back ∧
      reached.arrived = journal.arrived ++ front.flatMap Wait.arrivals ∧
      (∀ wait ∈ front, wait.osError = 0) ∧
      Stops pipeline deadlines writes reached
        (turns ++ Server.serve pipeline writes turns.length conn rounds) last back := by
  generalize hwritten : turns.length = written
  unfold serveWaits
  fun_induction Server.serve pipeline writes written conn rounds generalizing journal turns with
  | case1 written conn rounds next rest hnext =>
    rw [List.append_nil, serveLog_over hnext (by simp)]
    cases h.called goesOn hnext with
    | ran fed cut parse =>
      exact ⟨_, _, [], [], (List.append_nil _).symm, by simpa using cut, fed.arrived, fed.brought,
        .ran fed.run goesOn parse⟩
    | parsed _ _ _ out | stopped _ _ _ _ _ out => cases out
  | case2 written conn rounds next result rest hnext hreply =>
    rw [List.append_nil, serveLog_over hnext (by simp [hreply])]
    cases h.called goesOn hnext with
    | ran _ _ _ out => cases out
    | parsed _ _ parse out =>
      cases out
      rw [replyTo_parsed] at hreply
      have hsome := parsedReply_isSome pipeline parse
      rw [hreply] at hsome
      cases hsome
    | stopped fed made cut parse receive out =>
      cases out
      obtain ⟨rfl, -, -⟩ := Connection.receive_some receive
      exact ⟨_, _, _, _, made, cut, fed.arrived, fed.brought,
        .unanswered fed.run goesOn parse receive hreply⟩
  | case3 written conn rounds next result rest hnext reply hreply hopen _ ih =>
    subst hwritten
    rw [serveLog_on hnext hreply hopen]
    have hopen' : Open writes (turns ++ [⟨next, result, reply⟩]) := Open.snoc hopen.1 hopen.2
    cases h.called goesOn hnext with
    | ran _ _ _ out => cases out
    | parsed fed cut parse out =>
      cases out
      rw [replyTo_parsed] at hreply
      obtain ⟨reached, front, last, back, hwaits, hcut, harrived, hbrought, hstops⟩ :=
        ih (fed.run.parsed goesOn parse hreply) hopen' (by simp)
      refine ⟨reached, conn.waits rounds ++ front, last, back, ?_, ?_, ?_, ?_,
        by simpa using hstops⟩
      · rw [hwaits, List.append_assoc]
      · rw [List.map_append, List.append_assoc, ← hcut]
        exact cut
      · rw [harrived, List.flatMap_append, ← List.append_assoc]
        exact congrArg (· ++ _) fed.arrived
      · exact List.forall_mem_append.mpr ⟨fed.brought, hbrought⟩
    | stopped _ _ _ _ receive out =>
      cases out
      obtain ⟨rfl, noError, noRequest⟩ := Connection.receive_some receive
      obtain ⟨-, -, -, rfl⟩ := replyTo_stopped noError noRequest hreply
      cases hopen.1
  | case4 written conn rounds next result rest hnext reply hreply hopen =>
    subst hwritten
    rw [serveLog_last hnext hreply hopen]
    cases h.called goesOn hnext with
    | ran _ _ _ out => cases out
    | @parsed reached conn' parsed fed cut parse out =>
      cases out
      rw [replyTo_parsed] at hreply
      refine ⟨reached.answer parsed next.reader.unread, _, [], rest, (List.append_nil _).symm, cut,
        fed.arrived, fed.brought, .shut (fed.run.parsed goesOn parse hreply) ?_ ?_⟩
      · intro hopen'
        obtain ⟨hclosing, hwrites⟩ := hopen' _ (List.getLast?_concat ..)
        exact hopen ⟨hclosing, by simpa using hwrites⟩
      · intro turn hmem
        rcases List.mem_append.mp hmem with hold | hnew
        · exact (h.shape.of_open goesOn).2 turn hold
        · rw [List.mem_singleton.mp hnew]
          rfl
    | stopped fed made cut parse receive out =>
      cases out
      obtain ⟨rfl, -, -⟩ := Connection.receive_some receive
      exact ⟨_, _, _, _, made, cut, fed.arrived, fed.brought,
        .answered fed.run goesOn parse receive hreply rfl⟩

theorem Stops.run {journal : Journal} {turns : List Turn} {last : List Wait} {rounds : List Round}
    (h : Stops pipeline deadlines writes journal turns last rounds) :
    ∃ conn, Serving pipeline deadlines writes journal conn turns := by
  cases h with
  | shut run | unanswered run | ran run => exact ⟨_, run⟩
  | answered run goesOn parse receive replies last =>
    subst last
    exact ⟨_, run.stopped goesOn parse receive replies⟩

/-- What `serve` does from some point of a run on is the rest of a run. -/
theorem Serving.serve {journal : Journal} {conn : Connection} {turns : List Turn}
    (h : Serving pipeline deadlines writes journal conn turns) (goesOn : Open writes turns)
    (rounds : List Round) : ∃ journal' conn', Serving pipeline deadlines writes journal' conn'
      (turns ++ serve pipeline writes turns.length conn rounds) := by
  obtain ⟨journal', _, _, _, -, -, -, -, hstops⟩ := h.serve_stops goesOn rounds
  exact ⟨journal', hstops.run⟩

end Runs

/-- What `serve_connection` makes of a script, all writes succeeding. -/
theorem serving_script (pipeline : Pipeline) (rounds : List Round) : ∃ journal conn,
    Serving pipeline {} (fun _ => true) journal conn
      (serve pipeline (fun _ => true) 0 { deadlines := {} } rounds) :=
  Serving.start.serve (by simp [Open]) rounds

end Carafe.Server
