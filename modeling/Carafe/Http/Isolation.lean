import Carafe.Http.RoundTrip
import Carafe.Http.Runs

/-!
# Requests on one connection

Every answer accounts for bytes of its own, one request after another. Behind an
answer that leaves the stream intact a reader is as good as new, whatever it has
read before, and behind one that loses it the reader only repeats itself.
-/

namespace Carafe.Http
open Search TokenStream

/-- All the bytes of one request, and the answer to them. -/
inductive Extent : Bytes → RequestResult → Prop where
  | delivered (wire : WireRequest) : Extent wire.encode (delivery wire.request)
  | refused {head : Head} (complete : head.Complete) {n : Nat} (states : head.StatesLength n)
      (large : maxBodyBytes < n) (bounded : n ≤ maxDrainBytes) (body : Bytes)
      (whole : body.length = n) :
      Extent (head.text ++ crlf ++ body) (refusal head.line.version)

/-- Extents in a row, none of their bytes skipped or shared. -/
structure Extents (bytes : Bytes) (results : List RequestResult) : Prop where
  extents : ∃ parts : List (Bytes × RequestResult), bytes = (parts.map Prod.fst).flatten ∧
    results = parts.map Prod.snd ∧ ∀ part ∈ parts, Extent part.1 part.2

theorem Extents.nil : Extents [] [] := ⟨[], by simp⟩

theorem Extents.snoc {bytes extent : Bytes} {results : List RequestResult} {result : RequestResult}
    (h : Extents bytes results) (hextent : Extent extent result) :
    Extents (bytes ++ extent) (results ++ [result]) := by
  obtain ⟨parts, rfl, rfl, all⟩ := h
  refine ⟨parts ++ [(extent, result)], by simp, by simp, ?_⟩
  intro part hpart
  rcases List.mem_append.mp hpart with h | h
  · exact all part h
  · rw [List.mem_singleton.mp h]
    exact hextent

/-- What a live reader has read and answered: whole extents, and the front of one more. -/
inductive Account : Bytes → List RequestResult → Assembly → Prop where
  | between {bytes p : Bytes} {results : List RequestResult} {s : Assembly}
      (before : Extents bytes results) (partly : Partly p s) : Account (bytes ++ p) results s
  | dropping {bytes dropped : Bytes} {results : List RequestResult} (before : Extents bytes results)
      {head : Head} (complete : head.Complete) {n : Nat} (states : head.StatesLength n)
      (large : maxBodyBytes < n) (bounded : n ≤ maxDrainBytes) (more : dropped.length < n) :
      Account (bytes ++ (head.text ++ crlf ++ dropped)) (results ++ [refusal head.line.version])
        { head.awaiting (n - dropped.length) with phase := .discard }

/-- Nothing is read and nothing answered yet. -/
theorem Account.front : Account [] [] {} := .between .nil .start

theorem Account.stands {bytes : Bytes} {results : List RequestResult} {s : Assembly}
    (h : Account bytes results s) : ∃ p, Stands p s := by
  cases h with
  | between _ partly => exact ⟨_, .partly partly⟩
  | dropping _ _ _ _ _ more => exact ⟨[], .draining ⟨rfl, rfl, Nat.sub_pos_of_lt more, rfl⟩⟩

theorem Account.next {bytes c : Bytes} {results : List RequestResult} {s t : Assembly}
    {out : Option RequestResult} (h : Account bytes results s) (token : framing.token s c)
    (next : framing.next s c = (t, out)) (live : t.failure = .none) :
    Account (bytes ++ c) (results ++ out.toList) t := by
  cases h with
  | @between bytes p _ _ before partly =>
    rw [List.append_assoc]
    cases out with
    | none => simpa using Account.between before (partly.next_silent token next)
    | some result =>
      cases partly.next_verdict token next with
      | delivered wire spelled =>
        rw [← spelled]
        have h := Account.between (before.snoc (.delivered wire)) .start
        simpa using h
      | @refused head complete n states large bounded spelled =>
        have more : ([] : Bytes).length < n := Nat.zero_lt_of_lt large
        have h := Account.dropping before complete states large bounded more
        rw [← spelled]
        simpa using h
      | failed lost => exact False.elim (lost live)
  | @dropping bytes dropped results before head complete n states large bounded more =>
    have hdraining : Draining { head.awaiting (n - dropped.length) with phase := .discard } :=
      ⟨rfl, rfl, Nat.sub_pos_of_lt more, rfl⟩
    have hlen := hdraining.token token
    rw [hdraining.consume token] at next
    split at next
    · rename_i hmore
      obtain ⟨rfl, rfl⟩ := Prod.mk.inj next
      have hmore' : (dropped ++ c).length < n := by
        rw [List.length_append, hlen]
        simp only [Head.awaiting] at hmore
        omega
      have h := Account.dropping before complete states large bounded hmore'
      simpa [hlen, Nat.sub_add_eq, Head.awaiting] using h
    · rename_i hlast
      obtain ⟨rfl, rfl⟩ := Prod.mk.inj next
      have hwhole : (dropped ++ c).length = n := by
        rw [List.length_append, hlen]
        simp only [Head.awaiting] at hlast
        omega
      have h := Account.between (before.snoc (.refused complete states large bounded _ hwhole)) .start
      simpa using h

theorem Reads.live {s t : Assembly} {e : Bytes} {results : List RequestResult}
    (h : framing.Reads s e results t) (live : t.failure = .none) : s.failure = .none := by
  cases h with
  | done => exact live
  | step token => exact token.1

theorem Account.reads {bytes e : Bytes} {results more : List RequestResult} {s t : Assembly}
    (h : Account bytes results s) (reads : framing.Reads s e more t) (live : t.failure = .none) :
    Account (bytes ++ e) (results ++ more) t := by
  induction reads generalizing bytes results with
  | done => simpa using h
  | @step s s₁ t c e out ws token next rest ih =>
    have hstep := h.next token next (Reads.live rest live)
    rw [← List.append_assoc, ← List.append_assoc]
    exact ih hstep live

/-- Readers that appends and calls lead to, with all bytes appended and all answers. -/
inductive Ran : Bytes → List RequestResult → RequestReader → Prop where
  | fresh : Ran [] [] {}
  | append {stream : Bytes} {results : List RequestResult} {reader : RequestReader}
      (h : Ran stream results reader) (more : Bytes) :
      Ran (stream ++ more) results (reader.append more)
  | call {stream : Bytes} {results : List RequestResult} {reader : RequestReader}
      (h : Ran stream results reader) :
      Ran stream (results ++ [reader.nextRequest.2]) reader.nextRequest.1

/-- The answers but for "nothing yet". -/
def answersOf (results : List RequestResult) : List RequestResult :=
  results.filter (· ≠ {})

theorem Ran.reached {stream : Bytes} {results : List RequestResult} {reader : RequestReader}
    (h : Ran stream results reader) : Reached stream reader := by
  induction h with
  | fresh => exact .fresh
  | append _ more ih => exact ih.append more
  | call _ ih => exact ih.call

theorem answersOf_concat (results : List RequestResult) (result : RequestResult) :
    answersOf (results ++ [result]) = answersOf results ++ answersOf [result] :=
  List.filter_append ..

/-- The answer of a reader that has lost its stream. -/
def lostAnswer (s : Assembly) : RequestResult :=
  { error := s.failure, streamContinues := false, version := s.request.version }

theorem answersOf_lost (s : Assembly) : answersOf [lostAnswer s] = [lostAnswer s] := by
  simp [answersOf, lostAnswer]

theorem refuseLine_answer (s : Assembly) : s.refuseLine.2 = lostAnswer s.refuseLine.1 := by
  obtain ⟨error, -, heq⟩ := s.refuseLine_fails
  rw [heq]
  rfl

theorem Verdict.lost {p : Bytes} {s : Assembly} {result : RequestResult} (h : Verdict p s result)
    (lost : s.failure ≠ .none) : result = lostAnswer s := by
  cases h with
  | failed => rfl
  | delivered => exact False.elim (lost rfl)
  | refused => exact False.elim (lost rfl)

/-- One call reads on and answers what it has read, or loses the stream and says so. -/
theorem Stands.call {p : Bytes} {reader : RequestReader} (h : Stands p reader.state) :
    ∃ e, reader.unread = e ++ reader.nextRequest.1.unread ∧
      (reader.nextRequest.1.state.failure = .none →
        framing.Reads reader.state e (answersOf [reader.nextRequest.2])
          reader.nextRequest.1.state) ∧
      (reader.nextRequest.1.state.failure ≠ .none →
        reader.nextRequest.2 = lostAnswer reader.nextRequest.1.state) := by
  rcases RequestReader.nextRequest_answered h.sane h.live with hpoll | ⟨t, hpoll, hstalled⟩
  · obtain ⟨d, hverdict⟩ := h.polls hpoll
    obtain ⟨e, hcut, hreads, -⟩ := hpoll.suffix
    refine ⟨e, hcut, fun live => ?_, hverdict.lost⟩
    have hanswer : answersOf [reader.nextRequest.2] = [reader.nextRequest.2] := by
      simp [answersOf, hverdict.streamContinues.1]
    rw [hanswer]
    exact hreads
  · obtain ⟨e, hcut, hreads, -⟩ := hpoll.settles
    obtain ⟨_, d, -, hstands⟩ := h.reads hreads rfl
    rcases t.stalled_cases reader.nextRequest.1.unread with hpending | hrefused
    · obtain ⟨rfl, hresult⟩ := Prod.mk.inj (hpending.symm.trans hstalled)
      refine ⟨e, hcut, fun _ => ?_, fun lost => False.elim (lost hstands.live)⟩
      rw [← hresult]
      exact hreads
    · obtain ⟨hstate, hresult⟩ := Prod.mk.inj (hrefused.symm.trans hstalled)
      refine ⟨e, hcut, fun live => ?_, fun _ => ?_⟩
      · rw [← hstate] at live
        exact False.elim ((Assembly.refuseLine_lost t).1 live)
      · rw [← hstate, ← hresult]
        exact refuseLine_answer t

/-- A live reader has read all it was given but the unread bytes, with these answers. -/
theorem Ran.reads {stream : Bytes} {results : List RequestResult} {reader : RequestReader}
    (h : Ran stream results reader) (live : reader.failure = .none) :
    ∃ bytes, stream = bytes ++ reader.unread ∧
      framing.Reads {} bytes (answersOf results) reader.state := by
  induction h with
  | fresh => exact ⟨[], rfl, .done _⟩
  | append _ more ih =>
    obtain ⟨bytes, rfl, hreads⟩ := ih live
    exact ⟨bytes, by simp, hreads⟩
  | @call stream results reader _ ih =>
    have live' : reader.failure = .none := by
      by_contra lost
      rw [RequestReader.nextRequest_failed lost] at live
      exact lost live
    obtain ⟨bytes, rfl, hreads⟩ := ih live'
    obtain ⟨p, stands⟩ := (Account.front.reads hreads live').stands
    obtain ⟨e, hcut, hcall, -⟩ := stands.call
    refine ⟨bytes ++ e, by rw [hcut, List.append_assoc], ?_⟩
    rw [answersOf_concat]
    exact hreads.trans (hcall live)

theorem Ran.stands {stream : Bytes} {results : List RequestResult} {reader : RequestReader}
    (h : Ran stream results reader) (live : reader.failure = .none) :
    ∃ p, Stands p reader.state := by
  obtain ⟨bytes, -, hreads⟩ := h.reads live
  exact (Account.front.reads hreads live).stands

/-- What is lost with the stream: the bytes of a request that gets the same answer ever after. -/
theorem Ran.reads_lost {stream : Bytes} {results : List RequestResult} {reader : RequestReader}
    (h : Ran stream results reader) (lost : reader.failure ≠ .none) :
    ∃ bytes e answered s n, stream = bytes ++ e ++ reader.unread ∧ s.failure = .none ∧
      framing.Reads {} bytes answered s ∧
      answersOf results = answered ++ List.replicate (n + 1) (lostAnswer reader.state) := by
  induction h with
  | fresh => exact False.elim (lost rfl)
  | append _ more ih =>
    obtain ⟨bytes, e, answered, s, n, rfl, live, hreads, hanswers⟩ := ih lost
    exact ⟨bytes, e, answered, s, n, by simp, live, hreads, hanswers⟩
  | @call stream results reader ran ih =>
    by_cases live : reader.failure = .none
    · obtain ⟨bytes, rfl, hreads⟩ := ran.reads live
      obtain ⟨p, stands⟩ := ran.stands live
      obtain ⟨e, hcut, -, hlost⟩ := stands.call
      refine ⟨bytes, e, answersOf results, reader.state, 0, ?_, live, hreads, ?_⟩
      · rw [hcut, List.append_assoc]
      · rw [answersOf_concat, hlost lost, answersOf_lost]
        rfl
    · obtain ⟨bytes, e, answered, s, n, hcut, hs, hreads, hanswers⟩ := ih live
      rw [RequestReader.nextRequest_failed live]
      refine ⟨bytes, e, answered, s, n + 1, hcut, hs, hreads, ?_⟩
      change answersOf (results ++ [lostAnswer reader.state]) = _
      rw [answersOf_concat, hanswers, answersOf_lost, List.append_assoc, ← List.replicate_succ']

/-- No part of a request but the whole of it brings forth an answer. -/
theorem WireRequest.silent_before {wire : WireRequest} {front back : Bytes}
    (cut : wire.encode = front ++ back) (more : back ≠ []) {bytes : Bytes}
    {answers : List RequestResult} {s : Assembly} (hpre : bytes <+: front)
    (reads : framing.Reads {} bytes answers s) : answers = [] := by
  cases answers with
  | nil => rfl
  | cons answer answers =>
    obtain ⟨f, c, g, t, t', rfl, silent, token, next, -⟩ := reads.first
    obtain ⟨rest, rfl⟩ := hpre
    have hpoll : framing.Polls {} (wire.encode ++ []) (some answer) t' (g ++ rest ++ back) :=
      .emit (by simp [cut]) silent token next
    have hrest := (hpoll.unique (wire.polls [])).2.2
    exact False.elim (more (List.append_eq_nil_iff.mp hrest).2)

theorem Ran.silent_before {wire : WireRequest} {front back : Bytes}
    (cut : wire.encode = front ++ back) (more : back ≠ []) {results : List RequestResult}
    {reader : RequestReader} (h : Ran front results reader) :
    ∀ result ∈ results, result.request = none := by
  have hanswers : ∃ n, answersOf results = List.replicate n (lostAnswer reader.state) := by
    by_cases live : reader.failure = .none
    · obtain ⟨bytes, hcut, hreads⟩ := h.reads live
      exact ⟨0, wire.silent_before cut more ⟨_, hcut.symm⟩ hreads⟩
    · obtain ⟨bytes, e, answered, s, n, hcut, -, hreads, hanswers⟩ := h.reads_lost live
      rw [wire.silent_before cut more ⟨e ++ reader.unread, by rw [hcut]; simp⟩ hreads] at hanswers
      exact ⟨n + 1, hanswers⟩
  obtain ⟨n, hanswers⟩ := hanswers
  intro result hresult
  by_cases hnone : result = {}
  · rw [hnone]
  · have hmem : result ∈ answersOf results := by simp [answersOf, hresult, hnone]
    rw [hanswers] at hmem
    rw [List.eq_of_mem_replicate hmem]
    rfl

theorem WireRequest.alone (wire : WireRequest) :
    (({} : RequestReader).append wire.encode).nextRequest.2 = delivery wire.request := by
  have hpoll := wire.polls []
  rw [List.append_nil] at hpoll
  exact ((RequestReader.Holds.fresh.append wire.encode).answered RequestReader.fresh_sane rfl
    (Or.inl hpoll)).1

inductive Act where
  | append (more : Bytes)
  | call

namespace RequestReader
open Assembly

/-- The answers to the calls among some acts. -/
def run : List Act → RequestReader → List RequestResult
  | [], _ => []
  | .append more :: acts, reader => run acts (reader.append more)
  | .call :: acts, reader => reader.nextRequest.2 :: run acts reader.nextRequest.1

/-- Two readers that cannot be told apart: the first has silent bytes to read before it
is where the second is, or both have lost the stream in the same way. -/
inductive Alike (first second : RequestReader) : Prop where
  | ahead {p e : Bytes} (stands : Stands p first.state) (cut : first.unread = e ++ second.unread)
      (silent : framing.Reads first.state e [] second.state) : Alike first second
  | lost (failure : second.failure ≠ .none) (same : first.state = second.state) :
      Alike first second

theorem Alike.append {first second : RequestReader} (h : Alike first second) (more : Bytes) :
    Alike (first.append more) (second.append more) := by
  cases h with
  | ahead stands cut silent => exact .ahead stands (by simp [cut]) silent
  | lost failure same => exact .lost failure same

theorem Answered.of_silent {s t u : Assembly} {e unread rest : Bytes} {result : RequestResult}
    (silent : framing.Reads s e [] t) (h : Answered t unread u rest result) :
    Answered s (e ++ unread) u rest result := by
  rcases h with h | ⟨v, h, hstalled⟩
  · exact Or.inl (h.of_silent silent)
  · exact Or.inr ⟨v, h.of_silent silent, hstalled⟩

theorem Alike.call {first second : RequestReader} (h : Alike first second) :
    first.nextRequest.2 = second.nextRequest.2 ∧
      Alike first.nextRequest.1 second.nextRequest.1 := by
  cases h with
  | lost failure same =>
    have failure' : first.failure ≠ .none := by
      rw [← state_failure, same]
      exact failure
    rw [nextRequest_failed failure, nextRequest_failed failure']
    refine ⟨?_, .lost failure same⟩
    change lostAnswer first.state = lostAnswer second.state
    rw [same]
  | @ahead p e stands cut silent =>
    obtain ⟨_, d, -, stands'⟩ := stands.reads silent rfl
    have hsecond := nextRequest_answered stands'.sane stands'.live
    have hfirst := nextRequest_answered stands.sane stands.live
    rw [cut] at hfirst
    obtain ⟨hstate, hrest, hresult⟩ := Answered.unique hfirst (Answered.of_silent silent hsecond)
    refine ⟨hresult, ?_⟩
    by_cases live : second.nextRequest.1.failure = .none
    · obtain ⟨_, _, -, stands''⟩ := (stands'.answers hsecond).position live
      rw [← hstate] at stands''
      refine .ahead stands'' (e := []) hrest ?_
      rw [hstate]
      exact .done _
    · exact .lost live hstate

theorem Alike.run {first second : RequestReader} (h : Alike first second) (acts : List Act) :
    run acts first = run acts second := by
  induction acts generalizing first second with
  | nil => rfl
  | cons act acts ih =>
    cases act with
    | append more => exact ih (h.append more)
    | call =>
      obtain ⟨hresult, hnext⟩ := h.call
      rw [RequestReader.run, RequestReader.run, hresult, ih hnext]

/-- A reader in its first state is as good as a new one. -/
theorem Alike.new {reader : RequestReader} (h : reader.state = {}) :
    Alike reader (({} : RequestReader).append reader.unread) := by
  refine .ahead (p := []) (e := []) ?_ (by simp) ?_
  · rw [h]
    exact .partly .start
  · rw [h, append_state, fresh_state]
    exact .done _

/-- So is one with the rest of a refused body in its buffer. -/
theorem Alike.dropped {reader : RequestReader} (h : Draining reader.state) {body rest : Bytes}
    (cut : reader.unread = body ++ rest) (whole : body.length = reader.bodyBytes) :
    Alike reader (({} : RequestReader).append rest) :=
  .ahead (.draining h) (by simpa using cut) (h.reads_all whole)

/-- A reader that has lost its stream says so at every call. -/
theorem run_lost {reader : RequestReader} (lost : reader.failure ≠ .none) (acts : List Act) :
    ∀ result ∈ run acts reader, result = lostAnswer reader.state := by
  induction acts generalizing reader with
  | nil => simp [run]
  | cons act acts ih =>
    cases act with
    | append more => exact ih (show (reader.append more).failure ≠ .none from lost)
    | call =>
      rw [run, nextRequest_failed lost]
      intro result hresult
      rcases List.mem_cons.mp hresult with rfl | hrest
      · rfl
      · exact ih lost result hrest

/-- An answer says whether the stream is lost. -/
theorem lost_of_answer {p : Bytes} {reader : RequestReader} (h : Stands p reader.state)
    (stops : reader.nextRequest.2.streamContinues = false) :
    reader.nextRequest.1.failure ≠ .none ∧
      reader.nextRequest.2 = lostAnswer reader.nextRequest.1.state := by
  obtain ⟨e, hcut, hcall, hlost⟩ := h.call
  have lost : reader.nextRequest.1.state.failure ≠ .none := by
    intro live
    have hanswers := h.answers (nextRequest_answered h.sane h.live)
    generalize reader.nextRequest.2 = result at hanswers stops
    generalize reader.nextRequest.1.state = t at hanswers live
    cases hanswers with
    | verdict _ verdict => exact verdict.streamContinues.2.mp stops live
    | pending => cases stops
    | overlong => exact (Assembly.refuseLine_lost _).1 live
  exact ⟨lost, hlost lost⟩

theorem fresh_of_delivery {p : Bytes} {reader : RequestReader} (h : Stands p reader.state)
    (delivered : reader.nextRequest.2.request ≠ none) : reader.nextRequest.1.state = {} := by
  have hanswers := h.answers (nextRequest_answered h.sane h.live)
  generalize reader.nextRequest.2 = result at hanswers delivered
  generalize reader.nextRequest.1.state = t at hanswers
  cases hanswers with
  | verdict _ verdict => exact verdict.fresh (Option.isSome_iff_ne_none.mpr delivered)
  | pending => exact False.elim (delivered rfl)
  | @overlong _ _ _ t =>
    rw [refuseLine_answer] at delivered
    exact False.elim (delivered rfl)

/-- Requests on one connection are consecutive and isolated. -/
theorem isolated {stream : Bytes} {results : List RequestResult} {reader : RequestReader}
    (ran : Ran stream results reader) :
    (reader.failure = .none → ∃ bytes, stream = bytes ++ reader.unread ∧
      Account bytes (answersOf results) reader.state) ∧
    (reader.failure ≠ .none → ∃ bytes lost answered s n,
      stream = bytes ++ lost ++ reader.unread ∧ Account bytes answered s ∧
      answersOf results = answered ++ List.replicate (n + 1) (lostAnswer reader.state)) ∧
    (∀ wire : WireRequest,
      (({} : RequestReader).append wire.encode).nextRequest.2 = delivery wire.request ∧
      ∀ front back, wire.encode = front ++ back → back ≠ [] → ∀ results' reader',
        Ran front results' reader' → ∀ result ∈ results', result.request = none) ∧
    (reader.nextRequest.2.request ≠ none → ∀ acts, run acts reader.nextRequest.1 =
      run acts (({} : RequestReader).append reader.nextRequest.1.unread)) ∧
    (reader.failure = .none → reader.phase = .discard → ∀ body rest,
      reader.unread = body ++ rest → body.length = reader.bodyBytes →
      ∀ acts, run acts reader = run acts (({} : RequestReader).append rest)) ∧
    (reader.nextRequest.2.streamContinues = false →
      ∀ acts, ∀ result ∈ run acts reader.nextRequest.1,
        result = reader.nextRequest.2 ∧ result.request = none) := by
  refine ⟨?_, ?_, ?_, ?_, ?_, ?_⟩
  · intro live
    obtain ⟨bytes, hcut, hreads⟩ := ran.reads live
    exact ⟨bytes, hcut, Account.front.reads hreads live⟩
  · intro lost
    obtain ⟨bytes, e, answered, s, n, hcut, live, hreads, hanswers⟩ := ran.reads_lost lost
    exact ⟨bytes, e, answered, s, n, hcut, Account.front.reads hreads live, hanswers⟩
  · intro wire
    exact ⟨wire.alone, fun front back cut more results' reader' h => h.silent_before cut more⟩
  · intro delivered acts
    have live : reader.failure = .none := by
      by_contra lost
      rw [nextRequest_failed lost] at delivered
      exact delivered rfl
    obtain ⟨p, stands⟩ := ran.stands live
    exact (Alike.new (fresh_of_delivery stands delivered)).run acts
  · intro live hphase body rest hcut whole acts
    obtain ⟨p, stands⟩ := ran.stands live
    cases stands with
    | partly h => exact False.elim (h.phase_ne hphase)
    | draining h => exact (Alike.dropped h hcut whole).run acts
  · intro stops acts result hresult
    have hlost : reader.nextRequest.1.failure ≠ .none ∧
        reader.nextRequest.2 = lostAnswer reader.nextRequest.1.state := by
      by_cases live : reader.failure = .none
      · obtain ⟨p, stands⟩ := ran.stands live
        exact lost_of_answer stands stops
      · rw [nextRequest_failed live]
        exact ⟨live, rfl⟩
    rw [hlost.2]
    refine ⟨run_lost hlost.1 acts result hresult, ?_⟩
    rw [run_lost hlost.1 acts result hresult]
    rfl

/-- Behind the first of two requests the reader is a new one with the second to read. -/
theorem isolated_pipeline :
    let stream := bytes "GET / HTTP/1.0\r\n\r\nHEAD / HTTP/1.0\r\n\r\n"
    let reader := (({} : RequestReader).append stream).nextRequest.1
    run [.call] reader = run [.call] (({} : RequestReader).append reader.unread) :=
  (isolated (Ran.fresh.append _)).2.2.2.1 (by decide +kernel) [.call]

end RequestReader

end Carafe.Http
