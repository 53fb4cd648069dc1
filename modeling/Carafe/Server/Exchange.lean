import Carafe.Http.Readback
import Carafe.Http.Whole
import Carafe.Server.Answers
import Carafe.Server.Deadlines

/-!
# What a connection comes to

A client that sends whole requests and then no more is answered request by request,
up to the first answer that ends the connection, however its bytes are cut into reads.
And whatever a client sends, the server does not wait for more of it with a whole
request unanswered.
-/

namespace Carafe.Server
open Http Net TokenStream

/-- A front that ends in an element of the first part stays within that part. -/
theorem front_of_last {α : Type} {P : α → Prop} {front first later : List α}
    (h : front <+: first ++ later) (last : ∀ x ∈ front.getLast?, ¬ P x)
    (behind : ∀ x ∈ later, P x) : front <+: first := by
  rcases Nat.lt_or_ge first.length front.length with hlt | hle
  · obtain ⟨extra, rfl⟩ :=
      List.prefix_of_prefix_length_le (List.prefix_append first later) h (Nat.le_of_lt hlt)
    rw [List.prefix_append_right_inj] at h
    have hne : extra ≠ [] := by
      rintro rfl
      simp at hlt
    have hlast := List.getLast_mem hne
    refine absurd (behind _ (h.subset hlast)) (last _ ?_)
    rw [List.getLast?_append_of_ne_nil _ hne, List.getLast?_eq_some_getLast hne]
    rfl
  · exact List.prefix_of_prefix_length_le h (List.prefix_append first later) hle

section Runs
variable {pipeline : Pipeline} {deadlines : Deadlines} {writes : Nat → Bool} {journal : Journal}
  {conn waiting : Connection} {turns : List Turn}

/-- Where the server goes to the socket for more, each whole request it was sent has its
own answer, in order; what stands behind them is no whole request, and has no answer but
the refusal of a body that is being dropped. -/
theorem Serving.answers_before_reading
    (h : Serving pipeline deadlines writes journal conn turns) (goesOn : Open writes turns)
    (parse : conn.parse = (waiting, none)) : ∃ (parts : List (Bytes × Reply)) (rest : Bytes),
      journal.bytes = (parts.map Prod.fst).flatten ++ rest ∧
      (∀ part ∈ parts, Served pipeline part.1 part.2) ∧ Unfinished rest ∧
      (turns.map Turn.reply = parts.map Prod.snd ∨
        ∃ (head : Head) (n : Nat) (dropped : Bytes), head.Complete ∧ head.StatesLength n ∧
          maxBodyBytes < n ∧ dropped.length < n ∧ rest = head.text ++ crlf ++ dropped ∧
          turns.map Turn.reply = parts.map Prod.snd ++
            [failureReply .bodyTooLarge true head.line.version]) := by
  obtain ⟨same, -⟩ := h.shape.of_open goesOn
  have hposition := Waits.position ⟨conn, h.run, parse⟩
  generalize turns.map Turn.reply = replies at same
  generalize waiting.reader.state = s at hposition
  generalize waiting.reader.unread = unread at hposition
  generalize journal.bytes = stream at hposition
  generalize journal.results = results at hposition same
  cases hposition with
  | between before partly unfinished =>
    obtain ⟨parts, rfl, rfl, served⟩ := served_parts before same
    exact ⟨parts, _, rfl, served, unfinished, .inl rfl⟩
  | @dropping done dropped results before head complete n states large bounded more unfinished =>
    obtain ⟨first, last, rfl⟩ : ∃ first last, replies = first ++ [last] := by
      have hne : replies ≠ [] := by
        rintro rfl
        simp at same
      exact ⟨_, _, (List.dropLast_append_getLast hne).symm⟩
    rw [List.map_append, List.map_append] at same
    obtain ⟨hfirst, hlast⟩ := List.append_inj' same rfl
    obtain rfl : failureReply .bodyTooLarge true head.line.version = last := by
      simpa [parsedReply, refusal] using hlast
    obtain ⟨parts, rfl, rfl, served⟩ := served_parts before hfirst
    exact ⟨parts, _, rfl, served, unfinished,
      .inr ⟨head, n, dropped, complete, states, large, more, rfl, rfl⟩⟩

/-- A request that has been answered, and a part of the next one. -/
theorem Serving.answers_before_reading_part : ∃ (journal : Journal) (turns : List Turn)
    (parts : List (Bytes × Reply)) (rest : Bytes),
      journal.bytes = bytes "GET / HTTP/1.1\r\nHost: a\r\n\r\nGE" ∧ turns.length = 1 ∧
      journal.bytes = (parts.map Prod.fst).flatten ++ rest ∧
      (∀ part ∈ parts, Served {} part.1 part.2) ∧ Unfinished rest ∧
      (turns.map Turn.reply = parts.map Prod.snd ∨
        ∃ (head : Head) (n : Nat) (dropped : Bytes), head.Complete ∧ head.StatesLength n ∧
          maxBodyBytes < n ∧ dropped.length < n ∧ rest = head.text ++ crlf ++ dropped ∧
          turns.map Turn.reply = parts.map Prod.snd ++
            [failureReply .bodyTooLarge true head.line.version]) := by
  have hstart : Serving {} {} (fun _ => true) {} { deadlines := {} } [] := .start
  have hopen : Open (fun _ => true) [] := by simp [Open]
  have hread := @Serving.read _ _ _ _ _ _ _ _
    ⟨0, 0, .bytes (bytes "GET / HTTP/1.1\r\nHost: a\r\n\r\nGE") (by decide) (by decide), 0⟩
    hstart hopen (Prod.ext rfl (by decide +kernel)) (Prod.ext rfl (by decide +kernel))
  have hanswered := hread.parsed hopen (Prod.ext rfl (Option.some_get (by decide +kernel)).symm)
    (Option.some_get (by decide +kernel)).symm
  obtain ⟨parts, rest, hcut, served, unfinished, hreplies⟩ :=
    Serving.answers_before_reading hanswered (Open.snoc (by decide +kernel) rfl)
      (Prod.ext rfl (by decide +kernel))
  exact ⟨_, _, parts, rest, by decide +kernel, rfl, hcut, served, unfinished, hreplies⟩

/-- A connection that is given the front of whole requests stays with them. -/
theorem Serving.live_whole (h : Serving pipeline deadlines writes journal conn turns)
    {more : Bytes} {results : List RequestResult}
    (whole : Extents (journal.bytes ++ more) results) (kept : ¬ Halved journal.bytes) :
    conn.reader.failure = .none := by
  cases h with
  | start => rfl
  | read h _ parse receive =>
    obtain ⟨_, hran, -⟩ := h.run.ran
    obtain ⟨_, _, -, live, -⟩ := ran_waiting hran parse
    obtain ⟨chunk, arrived, fits, hread, rfl⟩ := Connection.receive_none receive
    rw [Connection.received_reader]
    exact live
  | parsed h goesOn parse =>
    obtain ⟨_, hran, -⟩ := h.run.ran
    obtain ⟨hnext, -, -⟩ := Connection.parse_some parse
    have hlive := hran.call_live (h.live goesOn) whole kept
    rwa [hnext] at hlive
  | stopped h _ parse receive =>
    obtain ⟨_, hran, -⟩ := h.run.ran
    obtain ⟨_, _, -, live, -⟩ := ran_waiting hran parse
    obtain ⟨rfl, -, -⟩ := Connection.receive_some receive
    exact live

/-- Its answers are the first ones of the answers to all. -/
theorem Serving.answers_front (h : Serving pipeline deadlines writes journal conn turns)
    {more : Bytes} {results : List RequestResult}
    (whole : Extents (journal.bytes ++ more) results) (kept : ¬ Halved journal.bytes) :
    ∃ later, results = journal.results ++ later := by
  obtain ⟨_, hran, hresults⟩ := h.run.ran
  obtain ⟨bytes, hcut, hreads⟩ := hran.reads (h.live_whole whole kept)
  have hwhole := whole.reads
  rw [hcut, List.append_assoc] at hwhole
  obtain ⟨later, hlater, -⟩ := hreads.suffix hwhole
  exact ⟨later, hresults ▸ hlater⟩

/-- At a read behind whole requests every one of them has been answered. -/
theorem Waits.answers_all (h : Waits deadlines journal waiting) {results : List RequestResult}
    (whole : Extents journal.bytes results) : journal.results = results := by
  have hposition := h.position
  generalize waiting.reader.state = s at hposition
  generalize waiting.reader.unread = unread at hposition
  generalize journal.bytes = stream at hposition whole
  generalize journal.results = answers at hposition
  have hnil : Unfinished [] := .short (by decide)
  cases hposition with
  | between before partly unfinished =>
    exact (before.unique whole unfinished hnil (List.append_nil _).symm).2.1
  | dropping before complete states large bounded more unfinished =>
    have hpending := (before.unique whole unfinished hnil (List.append_nil _).symm).2.2
    simp [crlf] at hpending

/-- The request handed over last is the last answer that is one. -/
theorem Run.handed_last (h : Run deadlines journal conn) : ∃ first later,
    journal.results = first ++ later ∧ Extents (journal.bytes.take journal.handed) first ∧
      ∀ result ∈ later, result.request = none := by
  induction h with
  | fresh => exact ⟨[], [], rfl, .nil, by simp⟩
  | @answered journal conn next parsed run parse ih =>
    by_cases hrequest : parsed.request.isSome = true
    · obtain ⟨results, hran, hresults⟩ := run.ran
      obtain ⟨hnext, -, -⟩ := Connection.parse_some parse
      have hdelivered := hran.delivered
      rw [hnext, hresults] at hdelivered
      obtain ⟨bytes, hcut, whole⟩ := hdelivered (Option.isSome_iff_ne_none.mp hrequest)
      have hlen : journal.arrived.length - next.reader.unread.length = bytes.length := by
        have hbytes := congrArg List.length hcut
        simp only [Journal.bytes, List.length_map, List.length_append] at hbytes
        omega
      refine ⟨journal.results ++ [parsed], [], by simp [Journal.answer], ?_, by simp⟩
      simp only [Journal.answer, hrequest, if_true]
      rw [hlen]
      change Extents (journal.bytes.take bytes.length) _
      rw [hcut, List.take_left]
      exact whole
    · obtain ⟨first, later, hresults, whole, hlater⟩ := ih
      have hnone : parsed.request = none := by simpa using hrequest
      refine ⟨first, later ++ [parsed], by simp [Journal.answer, hresults], ?_, ?_⟩
      · simpa [Journal.answer, Journal.bytes, hnone] using whole
      · intro result hmem
        rcases List.mem_append.mp hmem with hold | hnew
        · exact hlater result hold
        · rw [List.mem_singleton.mp hnew]
          exact hnone
  | waited _ _ ih => exact ih
  | @read journal conn waiting next round run _ _ ih =>
    obtain ⟨first, later, hresults, whole, hlater⟩ := ih
    obtain ⟨hhanded, hseen, -⟩ := run.handed
    refine ⟨first, later, hresults, ?_, hlater⟩
    have htake : (journal.read round).bytes.take journal.handed =
        journal.bytes.take journal.handed := by
      simp only [Journal.bytes, Journal.read, List.map_append]
      rw [List.take_append_of_le_length (by simp; omega)]
    change Extents ((journal.read round).bytes.take journal.handed) first
    rwa [htake]

/-- Whole requests that have arrived have been handed over up to the last of them that can be. -/
theorem Waits.handed_of_done (h : Waits deadlines journal waiting) {done pending : List Stamped}
    {results : List RequestResult} (cut : journal.arrived = done ++ pending)
    (whole : Extents (done.map Prod.fst) results)
    (last : ∀ result ∈ results.getLast?, result.request ≠ none) :
    done.length ≤ journal.handed := by
  obtain ⟨conn, run, parse⟩ := h
  obtain ⟨all, rest, finished, hbytes, hall, unfinished, hanswers⟩ :=
    Waits.pending ⟨conn, run, parse⟩
  obtain ⟨first, later, hresults, handed, hlater⟩ := run.handed_last
  have hsame : all ++ rest = done.map Prod.fst ++ pending.map Prod.fst := by
    rw [← hbytes, Journal.bytes, cut, List.map_append]
  obtain ⟨more, moreResults, -, rfl, -⟩ := hall.split_off whole unfinished hsame
  have hfront : results <+: first ++ later := by
    rw [← hresults]
    rcases hanswers with hanswers | ⟨version, hanswers⟩
    · exact ⟨moreResults, hanswers.symm⟩
    · exact ⟨moreResults ++ [refusal version], by rw [hanswers, List.append_assoc]⟩
  obtain ⟨ys, rfl⟩ := front_of_last hfront last hlater
  have hdone : done.map Prod.fst <+: journal.bytes :=
    ⟨pending.map Prod.fst, by rw [Journal.bytes, cut, List.map_append]⟩
  have hle : (journal.bytes.take journal.handed).length ≤ journal.handed := by
    rw [List.length_take]
    exact Nat.min_le_left _ _
  rcases whole.reads.compare handed.reads hdone (List.take_prefix _ _) with
    ⟨g, zs, hcut, -, -⟩ | ⟨g, zs, hcut, hnone, hg⟩
  · have hlen := congrArg List.length hcut
    rw [List.length_append, List.length_map] at hlen
    omega
  · obtain ⟨-, rfl⟩ : ys = [] ∧ zs = [] := by simpa using hnone
    obtain ⟨parts, rfl, hparts, -⟩ := Extents.of_reads hg
    obtain rfl : parts = [] := List.map_eq_nil_iff.mp hparts.symm
    have hlen := congrArg List.length hcut
    simp only [List.map_nil, List.flatten_nil, List.append_nil, List.length_map] at hlen
    omega

/-- The clock does not go back. When a read begins, less than the limit for a request has
passed since the first byte behind some requests, of which the last has been handed over. -/
structure Punctual (deadlines : Deadlines) (rounds : List Round) : Prop where
  clock : rounds.Pairwise fun round later => round.after ≤ later.after
  timely : ∀ front round back, rounds = front ++ round :: back → round.timeoutSet = 0 ∧
    ∃ done pending results, front.flatMap Round.arrivals = done ++ pending ∧
      Extents (done.map Prod.fst) results ∧
      (∀ result ∈ results.getLast?, result.request ≠ none) ∧
      ∀ first ∈ pending.head?,
        round.before + Milliseconds.span 1 ≤ first.2 + deadlines.request.span

theorem Round.arrivals_after {round : Round} {stamp : Stamped} (mem : stamp ∈ round.arrivals) :
    stamp.2 = round.after := by
  unfold Round.arrivals at mem
  split at mem
  · obtain ⟨ch, -, rfl⟩ := List.mem_map.mp mem
    rfl
  · cases mem
  · cases mem

theorem Punctual.stamps {front back : List Round} (h : Punctual deadlines (front ++ back)) :
    (front.flatMap Round.arrivals).Pairwise fun stamp later => stamp.2 ≤ later.2 := by
  rw [List.pairwise_flatMap]
  constructor
  · intro round _
    refine List.pairwise_of_forall_mem_list fun stamp hstamp later hlater => ?_
    rw [Round.arrivals_after hstamp, Round.arrivals_after hlater]
  · refine (List.pairwise_append.mp h.clock).1.imp ?_
    intro round later hle stamp hstamp next hnext
    rw [Round.arrivals_after hstamp, Round.arrivals_after hnext]
    exact hle

/-- An exchange that as a whole takes less than the limit for one request. -/
theorem Punctual.of_begun {rounds : List Round} (begun : TimePoint)
    (clock : rounds.Pairwise fun round later => round.after ≤ later.after)
    (short : ∀ round ∈ rounds, round.timeoutSet = 0 ∧ begun ≤ round.after ∧
      round.before + Milliseconds.span 1 ≤ begun + deadlines.request.span) :
    Punctual deadlines rounds := by
  refine ⟨clock, fun front round back cut => ?_⟩
  obtain ⟨hset, -, hbefore⟩ := short round (by simp [cut])
  refine ⟨hset, [], _, [], rfl, .nil, by simp, fun first hfirst => ?_⟩
  obtain ⟨sender, hsender, hstamp⟩ := List.mem_flatMap.mp (List.mem_of_mem_head? hfirst)
  have hafter := (short sender (by simp [cut, hsender])).2.1
  rw [Round.arrivals_after hstamp]
  exact Int.le_trans hbefore (Int.add_le_add_right hafter _)

/-- Where the server gets to a read of such a script, there is time left for it. -/
theorem Waits.applies {front rest : List Round} {round : Round}
    (h : Waits deadlines journal waiting)
    (arrived : journal.arrived = front.flatMap Round.arrivals)
    (punctual : Punctual deadlines (front ++ round :: rest)) :
    waiting.applyReadDeadline round = 0 := by
  obtain ⟨conn, run, parse⟩ := h
  have clocked := run.clocked.waiting parse
  obtain ⟨hset, done, pending, results, hcut, whole, last, hbefore⟩ :=
    punctual.timely front round rest rfl
  have hlimit : (waiting.readLimit round.before).isSome = true := by
    unfold Connection.readLimit
    split
    · rename_i hflag
      have hmore := clocked.flag.mp hflag
      have hdone := Waits.handed_of_done ⟨conn, run, parse⟩ (arrived.trans hcut) whole last
      have hseen : done.length ≤ journal.seen := Nat.le_trans hdone run.handed.1
      have hfirst : (journal.arrived.drop journal.seen).head? = some journal.arrived[journal.seen] := by
        rw [List.head?_drop, List.getElem?_eq_getElem hmore]
      have hdeadline := clocked.deadline _ hfirst
      have hplace : done.length < journal.arrived.length := Nat.lt_of_le_of_lt hseen hmore
      have hpending : journal.arrived.drop done.length = pending := by
        rw [arrived, hcut, List.drop_left]
      have hbegun := hbefore journal.arrived[done.length] (by
        rw [← hpending, List.head?_drop, List.getElem?_eq_getElem hplace]
        rfl)
      have hstamps : journal.arrived[done.length].2 ≤ journal.arrived[journal.seen].2 := by
        rcases Nat.eq_or_lt_of_le hseen with heq | hlt
        · simp [heq]
        · have hpairs := punctual.stamps
          rw [← arrived] at hpairs
          exact List.pairwise_iff_getElem.mp hpairs _ _ hplace hmore hlt
      have hleft : ¬ waiting.requestDeadline - round.before < Milliseconds.span 1 := by
        have hplain : ∀ begun first before deadline span one : Int, begun ≤ first →
            before + one ≤ begun + span → deadline = first + span → ¬ deadline - before < one := by
          omega
        exact hplain _ _ _ _ _ _ hstamps hbegun hdeadline
      simp [millisecondsUntil, hleft]
    · rfl
  unfold Connection.applyReadDeadline
  obtain ⟨limit, hlimit⟩ := Option.isSome_iff_exists.mp hlimit
  rw [hlimit]
  exact hset

end Runs

/-- Up to the first response that ends the connection. -/
def untilClosing : List Reply → List Reply
  | [] => []
  | reply :: replies => if reply.closing then [reply] else reply :: untilClosing replies

theorem untilClosing_open {replies : List Reply} (h : ∀ reply ∈ replies, reply.closing = false) :
    untilClosing replies = replies := by
  induction replies with
  | nil => rfl
  | cons reply replies ih =>
    have hfirst := h reply List.mem_cons_self
    rw [untilClosing, hfirst, ih fun reply hmem => h reply (List.mem_cons_of_mem _ hmem)]
    rfl

theorem untilClosing_concat {front : List Reply} {last : Reply}
    (h : ∀ reply ∈ front, reply.closing = false) (closes : last.closing = true)
    (more : List Reply) : untilClosing (front ++ last :: more) = front ++ [last] := by
  induction front with
  | nil => simp [untilClosing, closes]
  | cons reply front ih =>
    have hfirst := h reply List.mem_cons_self
    rw [List.cons_append, untilClosing, hfirst,
      ih fun reply hmem => h reply (List.mem_cons_of_mem _ hmem)]
    rfl

section Whole
variable {pipeline : Pipeline} {deadlines : Deadlines} {journal : Journal} {conn waiting : Connection}
  {turns : List Turn} {results : List RequestResult}

/-- What is to be answered to whole requests. -/
def answersTo (pipeline : Pipeline) (results : List RequestResult) : List Reply :=
  untilClosing (results.filterMap (parsedReply pipeline))

theorem filterMap_of_map {α β : Type} {f : α → Option β} {xs : List α} {ys : List β}
    (h : xs.map f = ys.map some) : xs.filterMap f = ys := by
  have hid := congrArg (List.filterMap id) h
  simpa [List.filterMap_map] using hid

/-- With the connection open behind whole requests, each has its answer. -/
theorem Serving.all_answered {writes : Nat → Bool}
    (h : Serving pipeline deadlines writes journal conn turns) (goesOn : Open writes turns)
    (parse : conn.parse = (waiting, none)) (whole : Extents journal.bytes results) :
    turns.map Turn.reply = answersTo pipeline results := by
  obtain ⟨same, -⟩ := h.shape.of_open goesOn
  rw [Waits.answers_all ⟨conn, h.run, parse⟩ whole] at same
  unfold answersTo
  rw [filterMap_of_map same, untilClosing_open]
  intro reply hmem
  obtain ⟨turn, hturn, rfl⟩ := List.mem_map.mp hmem
  rw [← List.dropLast_append_getLast (List.ne_nil_of_mem hturn)] at hturn
  rcases List.mem_append.mp hturn with hbefore | hlast
  · exact h.open_before turn hbefore
  · rw [List.mem_singleton.mp hlast]
    exact (goesOn _ (List.getLast?_eq_some_getLast _)).1

/-- With the connection shut by a response, it is the first such answer. -/
theorem Serving.shut_answered
    (h : Serving pipeline deadlines (fun _ => true) journal conn turns)
    (ended : ¬ Open (fun _ => true) turns) (noTimeout : ∀ turn ∈ turns, turn.result.osError = 0)
    {more : Bytes} (whole : Extents (journal.bytes ++ more) results)
    (kept : ¬ Halved journal.bytes) : turns.map Turn.reply = answersTo pipeline results := by
  obtain ⟨later, rfl⟩ := h.answers_front whole kept
  have same : journal.results.map (parsedReply pipeline) = (turns.map Turn.reply).map some := by
    cases h.shape with
    | answers replies => exact replies
    | timeout replies noTimeout' waits failed => exact absurd (noTimeout _ (by simp)) failed
  have hne : turns ≠ [] := by
    intro hnil
    exact ended (by simp [Open, hnil])
  have hcloses : (turns.getLast hne).reply.closing = true := by
    by_contra hopen
    refine ended fun turn hturn => ?_
    rw [List.getLast?_eq_some_getLast hne] at hturn
    cases hturn
    exact ⟨by simpa using hopen, rfl⟩
  have hbefore : ∀ reply ∈ turns.dropLast.map Turn.reply, reply.closing = false := by
    intro reply hmem
    obtain ⟨turn, hturn, rfl⟩ := List.mem_map.mp hmem
    exact h.open_before turn hturn
  have hsplit : turns.map Turn.reply =
      turns.dropLast.map Turn.reply ++ [(turns.getLast hne).reply] := by
    rw [← List.map_singleton, ← List.map_append, List.dropLast_append_getLast hne]
  unfold answersTo
  rw [List.filterMap_append, filterMap_of_map same, hsplit, List.append_assoc,
    List.singleton_append, untilClosing_concat hbefore hcloses]

theorem Connection.receive_applied {round : Round} (applies : waiting.applyReadDeadline round = 0)
    {result : ConnectionResult} (receive : waiting.receive round = (waiting, some result)) :
    (round.read = .ended → result = {}) ∧
      ∀ chunk arrived fits, round.read ≠ .bytes chunk arrived fits := by
  rw [Connection.receive, if_neg (by simp [applies])] at receive
  constructor
  · intro hread
    simp only [hread, Prod.mk.injEq, Option.some.injEq, true_and] at receive
    exact receive.symm
  · intro chunk arrived fits hread
    simp [hread] at receive

theorem cut_before_last {α : Type} {xs front back : List α} {last : α}
    (cut : xs ++ [last] = front ++ back) :
    (∃ rest, xs = front ++ rest ∧ back = rest ++ [last]) ∨ front = xs ++ [last] ∧ back = [] := by
  rcases List.eq_nil_or_concat back with rfl | ⟨rest, last', rfl⟩
  · exact .inr ⟨by simpa using cut.symm, rfl⟩
  · rw [List.concat_eq_append, ← List.append_assoc] at cut
    obtain ⟨hxs, hlast⟩ := List.append_inj' cut rfl
    exact .inl ⟨rest, hxs, by rw [List.concat_eq_append, hlast]⟩

/-- A client sends a stream, piece by piece, and then closes its side; no read is late, and
none ends within the terminator of a line of exactly the maximal length. -/
structure Sent (deadlines : Deadlines) (stream : Bytes) (rounds : List Round) (last : Round) :
    Prop where
  arrives : (rounds.flatMap Round.arrivals).map Prod.fst = stream
  reads : ∀ round ∈ rounds, ∃ chunk arrived fits, round.read = .bytes chunk arrived fits
  ended : last.read = .ended
  punctual : Punctual deadlines (rounds ++ [last])
  kept : ∀ front back, rounds = front ++ back →
    ¬ Halved ((front.flatMap Round.arrivals).map Prod.fst)

/-- Either the last read is still to come, or all of the stream has arrived. -/
theorem Sent.place {stream : Bytes} {rounds front back : List Round} {last : Round}
    (sent : Sent deadlines stream rounds last) (cut : rounds ++ [last] = front ++ back) :
    ∃ more, (front.flatMap Round.arrivals).map Prod.fst ++ more = stream ∧
      ¬ Halved ((front.flatMap Round.arrivals).map Prod.fst) ∧
      ((back = [] ∨ back = [last]) ∧ more = [] ∨
        ∃ round rest, back = round :: rest ∧ round ∈ rounds) := by
  rcases cut_before_last cut with ⟨rest, hrounds, rfl⟩ | ⟨rfl, rfl⟩
  · refine ⟨(rest.flatMap Round.arrivals).map Prod.fst, ?_, sent.kept front rest hrounds, ?_⟩
    · rw [← sent.arrives, hrounds, List.flatMap_append, List.map_append]
    · cases rest with
      | nil => exact .inl ⟨.inr rfl, rfl⟩
      | cons round rest => exact .inr ⟨round, rest ++ [last], rfl, by simp [hrounds]⟩
  · have hlast : last.arrivals = [] := by simp [Round.arrivals, sent.ended]
    refine ⟨[], ?_, ?_, .inl ⟨.inl rfl, rfl⟩⟩
    · simpa [hlast] using sent.arrives
    · simpa [hlast] using sent.kept rounds [] (by simp)

theorem Sent.answers {stream : Bytes} {rounds : List Round} {last : Round}
    (sent : Sent deadlines stream rounds last) (whole : Extents stream results)
    (pipeline : Pipeline) :
    (serve pipeline (fun _ => true) 0 { deadlines := deadlines } (rounds ++ [last])).map Turn.reply =
      answersTo pipeline results := by
  have ⟨_, reads, ended, punctual, _⟩ := sent
  have hstart : Serving pipeline deadlines (fun _ => true) {} { deadlines := deadlines } [] := .start
  obtain ⟨journal, front, atLast, back, -, hcut, harrived, hbrought, hstops⟩ :=
    hstart.serve_stops (by simp [Open]) (rounds ++ [last])
  rw [List.nil_append, ← arrivals_brought hbrought] at harrived
  have applies : ∀ {conn waiting : Connection} {turns : List Turn} {round : Round}
      {rest : List Round}, Serving pipeline deadlines (fun _ => true) journal conn turns →
      conn.parse = (waiting, none) → back = round :: rest → waiting.applyReadDeadline round = 0 := by
    intro conn waiting turns round rest h parse hback
    rw [hcut, hback] at punctual
    exact Waits.applies ⟨conn, h.run, parse⟩ harrived punctual
  obtain ⟨more, hstream, hkept, hback⟩ := sent.place hcut
  rw [← harrived] at hstream hkept
  change journal.bytes ++ more = stream at hstream
  subst hstream
  cases hstops with
  | shut h ended noTimeout => exact h.shut_answered ended noTimeout whole hkept
  | @answered conn waiting round rest reply result before h _ parse receive replies =>
    obtain ⟨hended, hbytes⟩ := Connection.receive_applied (applies h parse rfl) receive
    rcases hback with ⟨hback, -⟩ | ⟨round', rest', hback, hmem⟩
    · obtain ⟨rfl, rfl⟩ : round = last ∧ rest = [] := by simpa using hback
      rw [hended ended] at replies
      cases replies
    · cases hback
      obtain ⟨chunk, arrived, fits, hread⟩ := reads round hmem
      exact absurd hread (hbytes chunk arrived fits)
  | @unanswered conn waiting round rest result h goesOn parse receive =>
    rcases hback with ⟨-, rfl⟩ | ⟨round', rest', hback, hmem⟩
    · rw [List.append_nil] at whole
      exact h.all_answered goesOn parse whole
    · cases hback
      obtain ⟨-, hbytes⟩ := Connection.receive_applied (applies h parse rfl) receive
      obtain ⟨chunk, arrived, fits, hread⟩ := reads round hmem
      exact absurd hread (hbytes chunk arrived fits)
  | ran h goesOn parse =>
    rcases hback with ⟨-, rfl⟩ | ⟨round', rest', hback, -⟩
    · rw [List.append_nil] at whole
      exact h.all_answered goesOn parse whole
    · cases hback

/-- Whole requests, in any pieces: the responses are those to the requests, one by one, up
to the first that ends the connection. -/
theorem serve_whole (pipeline : Pipeline) {stream : Bytes} {rounds : List Round} {last : Round}
    (sent : Sent deadlines stream rounds last) (whole : Extents stream results) :
    (serve pipeline (fun _ => true) 0 { deadlines := deadlines } (rounds ++ [last])).map Turn.reply =
      untilClosing (results.filterMap (parsedReply pipeline)) :=
  sent.answers whole pipeline

theorem extents_encodings (wires : List WireRequest) :
    Extents (wires.flatMap WireRequest.encode) (wires.map fun wire => delivery wire.request) := by
  refine ⟨wires.map fun wire => (wire.encode, delivery wire.request), ?_, ?_, ?_⟩
  · simp [List.flatMap, Function.comp_def]
  · simp [Function.comp_def]
  · intro part hpart
    obtain ⟨wire, -, rfl⟩ := List.mem_map.mp hpart
    exact .delivered wire

theorem kept_of_short {rounds front back : List Round} (cut : rounds = front ++ back)
    (short : (rounds.flatMap Round.arrivals).length ≤ maxLineLength) :
    ¬ Halved ((front.flatMap Round.arrivals).map Prod.fst) := by
  refine not_halved_short ?_
  rw [cut, List.flatMap_append, List.length_append] at short
  rw [List.length_map]
  omega

def plainGet : WireRequest :=
  { RequestReader.longestRequest with
    line := ⟨.get, bytes "/", .http11⟩
    target := ⟨by decide, by decide, by decide, by decide⟩
    lineShort := by decide
    headSize := by decide
    hostRule := by decide }

/-- That request in two pieces, cut within its field name. -/
def plainRounds : List Round :=
  [⟨0, 0, .bytes (bytes "GET / HTTP/1.1\r\nHo") (by decide) (by decide), 0⟩,
    ⟨0, 0, .bytes (bytes "st: a\r\n\r\n") (by decide) (by decide), 0⟩]

theorem plainRounds_sent : Sent {} ([plainGet].flatMap WireRequest.encode) plainRounds
    ⟨0, 0, .ended, 0⟩ := by
  constructor
  · decide +kernel
  · intro round hmem
    rcases List.mem_cons.mp hmem with rfl | hmem
    · exact ⟨_, _, _, rfl⟩
    · rw [List.mem_singleton.mp hmem]
      exact ⟨_, _, _, rfl⟩
  · rfl
  · refine .of_begun 0 (by decide) fun round hmem => ?_
    simp only [plainRounds, List.cons_append, List.nil_append, List.mem_cons, List.not_mem_nil,
      or_false] at hmem
    rcases hmem with rfl | rfl | rfl <;> exact ⟨rfl, by decide, by decide⟩
  · intro front back cut
    exact kept_of_short cut (by decide)

/-- A server without routes has one answer to it. -/
theorem serve_whole_get : ((serve {} (fun _ => true) 0 { deadlines := {} }
    (plainRounds ++ [⟨0, 0, .ended, 0⟩])).map Turn.reply).length = 1 := by
  rw [serve_whole {} plainRounds_sent (extents_encodings [plainGet])]
  decide +kernel

/-- The bytes that the client gets. -/
def written (turns : List Turn) : Bytes := turns.flatMap fun turn => turn.reply.bytes

theorem written_serializeAll (turns : List Turn) :
    written turns = serializeAll ((turns.map Turn.reply).map fun reply =>
      (reply.response, reply.withBody)) := by
  simp [written, serializeAll, List.flatMap_map, Reply.bytes]

theorem untilClosing_front (replies : List Reply) : untilClosing replies <+: replies := by
  induction replies with
  | nil => exact List.prefix_rfl
  | cons reply replies ih =>
    unfold untilClosing
    split
    · exact ⟨replies, rfl⟩
    · exact (List.prefix_cons_inj reply).mpr ih

theorem close_sendable : HeaderField.Sendable ⟨connectionName, closeOption⟩ := by decide

/-- What the pipeline makes of the requests of a client. -/
def repliesTo (pipeline : Pipeline) (wires : List WireRequest) : List Reply :=
  untilClosing (wires.map fun wire => handledReply pipeline wire.request)

theorem Sent.replies (pipeline : Pipeline) (wires : List WireRequest) {rounds : List Round}
    {last : Round} (sent : Sent deadlines (wires.flatMap WireRequest.encode) rounds last) :
    (serve pipeline (fun _ => true) 0 { deadlines := deadlines } (rounds ++ [last])).map Turn.reply =
      repliesTo pipeline wires := by
  have hhandled : (wires.map fun wire => delivery wire.request).filterMap (parsedReply pipeline) =
      wires.map fun wire => handledReply pipeline wire.request := by
    refine filterMap_of_map ?_
    simp [parsedReply, delivery, Function.comp_def]
  rw [sent.answers (extents_encodings wires) pipeline, answersTo, hhandled, repliesTo]

/-- The fields of the handlers can be sent, and so can the one that announces the close. -/
theorem repliesTo_sendable {wires : List WireRequest} {pipeline : Pipeline}
    (sendable : ∀ wire ∈ wires, ∀ field ∈ (pipeline.respond wire.request).2.headers.fields,
      field.Sendable) :
    ∀ reply ∈ repliesTo pipeline wires, ∀ field ∈ reply.response.headers.fields,
      field.Sendable := by
  intro reply hreply field hfield
  obtain ⟨wire, hwire, rfl⟩ := List.mem_map.mp ((untilClosing_front _).subset hreply)
  simp only [handledReply, answer] at hfield
  split at hfield
  · rcases List.mem_append.mp hfield with hown | hclose
    · exact sendable wire hwire field hown
    · rw [List.mem_singleton.mp hclose]
      exact close_sendable
  · exact sendable wire hwire field hfield

/-- From the requests of a client to the responses it reads, through both encodings and
the server between them: it gets what the pipeline makes of each request, in order, up to
the first response that ends the connection. -/
theorem serve_round_trip (pipeline : Pipeline) (wires : List WireRequest) {rounds : List Round}
    {last : Round} (sent : Sent deadlines (wires.flatMap WireRequest.encode) rounds last)
    (sendable : ∀ wire ∈ wires, ∀ field ∈ (pipeline.respond wire.request).2.headers.fields,
      field.Sendable) :
    readResponses ((repliesTo pipeline wires).map Reply.withBody) (written
      (serve pipeline (fun _ => true) 0 { deadlines := deadlines } (rounds ++ [last]))) =
        some ((repliesTo pipeline wires).map fun reply =>
          reply.response.received reply.withBody) := by
  have hsendable : AllSendable
      ((repliesTo pipeline wires).map fun reply => (reply.response, reply.withBody)) := by
    intro one hone
    obtain ⟨reply, hreply, rfl⟩ := List.mem_map.mp hone
    exact repliesTo_sendable sendable reply hreply
  rw [written_serializeAll, sent.replies]
  simpa [Function.comp_def] using hsendable.read

theorem serve_round_trip_get : ∃ received, readResponses [true] (written
    (serve {} (fun _ => true) 0 { deadlines := {} } (plainRounds ++ [⟨0, 0, .ended, 0⟩]))) =
      some [received] := by
  have hflags : (repliesTo {} [plainGet]).map Reply.withBody = [true] := by decide +kernel
  have htrip := serve_round_trip {} [plainGet] plainRounds_sent (by decide +kernel)
  rw [hflags] at htrip
  exact ⟨_, htrip⟩

end Whole

end Carafe.Server
