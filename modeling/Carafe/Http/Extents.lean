import Carafe.Http.Asked

/-!
# Whole requests

Requests in a row, each with all its bytes, are exactly what takes a fresh reader
back to where it started. So a stream is cut into requests in one way only, and a
reader that waits for more stands behind the last whole one.
-/

namespace Carafe.Http
open TokenStream

theorem reads_refused {head : Head} (complete : head.Complete) {n : Nat}
    (states : head.StatesLength n) (large : maxBodyBytes < n) (bounded : n ≤ maxDrainBytes) :
    framing.Reads {} (head.text ++ crlf) [refusal head.line.version]
      { head.awaiting n with phase := .discard } := by
  obtain ⟨absent, hone, hstates⟩ := states
  refine reads_blankLine complete (some (refusal head.line.version)) ?_ rfl
  have hmeasured := (measureBody_length absent head.line.version).mpr
    (Or.inr ⟨hone, n, rfl, hstates, bounded⟩)
  rw [completeHead_measured (a := head.assembly.charge []) complete.hostRule hmeasured.1 rfl,
    if_neg (by simp), if_pos large]
  simp [Assembly.handOver, Assembly.refuse, Head.awaiting, Head.assembly, Assembly.charge, crlf,
    crlfSize, refusal, Head.request]

theorem draining_awaiting (head : Head) {n : Nat} (pos : 0 < n) :
    Draining { head.awaiting n with phase := .discard } :=
  ⟨rfl, rfl, pos, rfl⟩

theorem Extent.reads {extent : Bytes} {result : RequestResult} (h : Extent extent result) :
    framing.Reads {} extent [result] {} := by
  cases h with
  | delivered wire => exact wire.reads
  | @refused head complete n states large bounded body whole =>
    have hdrop := (draining_awaiting head (Nat.zero_lt_of_lt large)).reads_all whole
    exact (reads_refused complete states large bounded).trans hdrop

theorem Extents.reads {bytes : Bytes} {results : List RequestResult} (h : Extents bytes results) :
    framing.Reads {} bytes results {} := by
  obtain ⟨parts, rfl, rfl, all⟩ := h
  induction parts with
  | nil => exact .done _
  | cons part parts ih =>
    have hfirst := (all part List.mem_cons_self).reads
    exact hfirst.trans (ih fun part hpart => all part (List.mem_cons_of_mem _ hpart))

theorem Extents.of_reads {bytes : Bytes} {results : List RequestResult}
    (h : framing.Reads {} bytes results {}) : Extents bytes results := by
  have haccount := Account.front.reads h rfl
  simp only [List.nil_append] at haccount
  generalize hs : ({} : Assembly) = s at haccount
  cases haccount with
  | between before partly =>
    rw [← hs] at partly
    rw [partly.fresh rfl, List.append_nil]
    exact before
  | dropping => cases hs

/-- No whole request stands at the front. -/
def Unfinished (pending : Bytes) : Prop :=
  ∀ extent result, Extent extent result → ¬ extent <+: pending

theorem Unfinished.extents {pending done : Bytes} {results : List RequestResult}
    (h : Unfinished pending) (whole : Extents done results) (hpre : done <+: pending) :
    done = [] ∧ results = [] := by
  obtain ⟨parts, rfl, rfl, all⟩ := whole
  cases parts with
  | nil => exact ⟨rfl, rfl⟩
  | cons part parts =>
    have hpart : part.1 <+: pending := (List.prefix_append part.1 _).trans hpre
    exact False.elim (h _ _ (all part List.mem_cons_self) hpart)

theorem Extent.two_le_length {extent : Bytes} {result : RequestResult}
    (h : Extent extent result) : 2 ≤ extent.length := by
  cases h with
  | delivered wire =>
    simp only [WireRequest.encode, List.length_append, crlf, List.length_cons, List.length_nil]
    omega
  | refused =>
    simp only [List.length_append, crlf, List.length_cons, List.length_nil]
    omega

theorem Unfinished.short {pending : Bytes} (h : pending.length < 2) : Unfinished pending := by
  intro extent result hextent hpre
  have hle := hpre.length_le
  have hlen := hextent.two_le_length
  omega

/-- Whole requests at the front of a stream are the first of all that are there. -/
theorem Extents.split_off {done done' pending pending' : Bytes}
    {results results' : List RequestResult} (h : Extents done results)
    (h' : Extents done' results') (unfinished : Unfinished pending)
    (same : done ++ pending = done' ++ pending') :
    ∃ more moreResults, done = done' ++ more ∧ results = results' ++ moreResults ∧
      Extents more moreResults := by
  have hpre : done' <+: done ++ pending := ⟨pending', same.symm⟩
  rcases h.reads.compare h'.reads (List.prefix_append _ _) hpre with
    ⟨g, ys, rfl, rfl, hg⟩ | ⟨g, ys, rfl, rfl, hg⟩
  · rw [List.append_assoc, List.append_cancel_left_eq] at same
    obtain ⟨rfl, rfl⟩ := unfinished.extents (.of_reads hg) ⟨pending', same.symm⟩
    exact ⟨[], [], by simp, by simp, .nil⟩
  · exact ⟨g, ys, rfl, rfl, .of_reads hg⟩

/-- A stream is whole requests and an unfinished one in one way only. -/
theorem Extents.unique {done done' pending pending' : Bytes}
    {results results' : List RequestResult} (h : Extents done results)
    (h' : Extents done' results') (unfinished : Unfinished pending)
    (unfinished' : Unfinished pending') (same : done ++ pending = done' ++ pending') :
    done = done' ∧ results = results' ∧ pending = pending' := by
  obtain ⟨more, moreResults, rfl, rfl, hmore⟩ := h.split_off h' unfinished same
  rw [List.append_assoc, List.append_cancel_left_eq] at same
  obtain ⟨rfl, rfl⟩ := unfinished'.extents hmore ⟨pending, same⟩
  exact ⟨by simp, by simp, by simpa using same⟩

/-- What a reader that waits for more has been given: whole requests, answered one by
one, and one more, of which some is read or which is being dropped. -/
inductive Position : Bytes → List RequestResult → Assembly → Bytes → Prop where
  | between {done p unread : Bytes} {results : List RequestResult} {s : Assembly}
      (before : Extents done results) (partly : Partly p s)
      (unfinished : Unfinished (p ++ unread)) : Position (done ++ (p ++ unread)) results s unread
  | dropping {done dropped : Bytes} {results : List RequestResult} (before : Extents done results)
      {head : Head} (complete : head.Complete) {n : Nat} (states : head.StatesLength n)
      (large : maxBodyBytes < n) (bounded : n ≤ maxDrainBytes) (more : dropped.length < n)
      (unfinished : Unfinished (head.text ++ crlf ++ dropped)) :
      Position (done ++ (head.text ++ crlf ++ dropped)) (results ++ [refusal head.line.version])
        { head.awaiting (n - dropped.length) with phase := .discard } []

theorem Draining.stuck {s : Assembly} (h : Draining s) {unread : Bytes}
    (stuck : framing.Stuck s unread) : unread = [] := by
  cases unread with
  | nil => rfl
  | cons ch rest =>
    have token : s.Token [ch] := ⟨h.live, by rw [h.phase]; exact ⟨h.pos, rfl⟩⟩
    exact False.elim (stuck [ch] token ⟨rest, rfl⟩)

theorem unfinished_partly {p unread : Bytes} {s : Assembly} (reads : framing.Reads {} p [] s)
    (stuck : framing.Stuck s unread) : Unfinished (p ++ unread) := by
  intro extent result hextent hpre
  obtain ⟨g, ys, -, hresults, -⟩ := stuck.maximal reads rfl hextent.reads hpre
  cases hresults

theorem unfinished_dropping {p : Bytes} {s : Assembly} {result : RequestResult}
    (reads : framing.Reads {} p [result] s) (draining : Draining s) (stuck : framing.Stuck s []) :
    Unfinished p := by
  intro extent result' hextent hpre
  obtain ⟨g, ys, -, hresults, hg⟩ :=
    stuck.maximal reads (List.append_nil p).symm hextent.reads hpre
  obtain ⟨rfl, rfl⟩ := List.cons.inj hresults
  have hpartly := Partly.start.reads hg rfl
  exact hpartly.phase_ne draining.phase

/-- A reading that can go no further has put the reader in such a position. -/
theorem Position.of_reads {bytes unread : Bytes} {results : List RequestResult} {s : Assembly}
    (reads : framing.Reads {} bytes results s) (live : s.failure = .none)
    (stuck : framing.Stuck s unread) : Position (bytes ++ unread) results s unread := by
  have haccount := Account.front.reads reads live
  rw [List.nil_append, List.nil_append] at haccount
  cases haccount with
  | @between done p _ _ before partly =>
    obtain ⟨ys, hresults, hp⟩ := before.reads.suffix reads
    obtain rfl : ys = [] := by simpa using hresults
    rw [List.append_assoc]
    exact .between before partly (unfinished_partly hp stuck)
  | @dropping done dropped results before head complete n states large bounded more =>
    have hdraining := draining_awaiting head (Nat.sub_pos_of_lt more)
    obtain rfl := hdraining.stuck stuck
    obtain ⟨ys, hresults, hp⟩ := before.reads.suffix reads
    obtain rfl : [refusal head.line.version] = ys := by simpa using hresults
    rw [List.append_nil]
    exact .dropping before complete states large bounded more
      (unfinished_dropping hp hdraining stuck)

theorem Extent.streamContinues {extent : Bytes} {result : RequestResult}
    (h : Extent extent result) : result.streamContinues = true := by
  cases h <;> rfl

/-- An answer behind which the stream is lost is not the answer to a whole request. -/
theorem unfinished_failed {p c v : Bytes} {s t : Assembly} {result : RequestResult}
    (reads : framing.Reads {} p [] s) (token : framing.token s c)
    (next : framing.next s c = (t, some result)) (stops : result.streamContinues = false) :
    Unfinished (p ++ (c ++ v)) := by
  have hfailed := reads.trans (Machine.Reads.single token next)
  intro extent result' hextent hpre
  have hpre' : p ++ c <+: p ++ (c ++ v) := by
    rw [← List.append_assoc]
    exact List.prefix_append _ _
  have hsame : result' = result := by
    rcases hfailed.compare hextent.reads hpre' hpre with
      ⟨_, _, -, hresults, -⟩ | ⟨_, _, -, hresults, -⟩
    · exact (List.cons.inj hresults).1
    · exact (List.cons.inj hresults).1.symm
  rw [← hsame, hextent.streamContinues] at stops
  cases stops

theorem Verdict.stops {p : Bytes} {s : Assembly} {result : RequestResult} (h : Verdict p s result)
    (lost : s.failure ≠ .none) : result.streamContinues = false := by
  rw [h.lost lost]
  rfl

theorem LineReader.Overlong.nonempty {unread : Bytes} (h : LineReader.Overlong unread) :
    unread ≠ [] := by
  rintro rfl
  rcases h with ⟨-, long⟩ | ⟨line, rest, hcut, -⟩
  · cases long
  · simp [crlf] at hcut

/-- But for a refused body, all that is read is whole requests and the front of one. -/
theorem reads_between {bytes : Bytes} {results : List RequestResult} {s : Assembly}
    (reads : framing.Reads {} bytes results s) (live : s.failure = .none)
    (phase : s.phase ≠ .discard) : ∃ done p, bytes = done ++ p ∧ Extents done results ∧
      Partly p s ∧ framing.Reads {} p [] s := by
  have haccount := Account.front.reads reads live
  rw [List.nil_append, List.nil_append] at haccount
  cases haccount with
  | @between done p _ _ before partly =>
    obtain ⟨ys, hys, hp⟩ := before.reads.suffix reads
    obtain rfl : ys = [] := by simpa using hys
    exact ⟨done, p, rfl, before, partly, hp⟩
  | dropping => exact False.elim (phase rfl)

theorem Ran.lost_answer {stream : Bytes} {results : List RequestResult} {reader : RequestReader}
    (h : Ran stream results reader) (live : reader.failure = .none)
    (lost : reader.nextRequest.1.failure ≠ .none) :
    reader.nextRequest.2 = lostAnswer reader.nextRequest.1.state := by
  obtain ⟨p, stands⟩ := h.stands live
  obtain ⟨e, -, -, hlost⟩ := stands.call
  exact hlost lost

/-- The stream is lost on a request that has begun behind the whole ones and is not whole
itself; the method that is kept is its own. -/
def LostOn (stream : Bytes) (results : List RequestResult) (t : Assembly) : Prop :=
  ∃ done rest, stream = done ++ rest ∧ Extents done results ∧ rest ≠ [] ∧ Unfinished rest ∧
    ∀ method, t.asked = some method → Asks rest method

/-- A token that is refused for good. -/
theorem lostOn_token {bytes c v : Bytes} {results : List RequestResult} {s t : Assembly}
    {result : RequestResult} (reads : framing.Reads {} bytes results s)
    (phase : s.phase ≠ .discard) (token : framing.token s c)
    (next : framing.next s c = (t, some result)) (lost : t.failure ≠ .none) :
    LostOn (bytes ++ (c ++ v)) results t := by
  obtain ⟨done, p, rfl, before, partly, hp⟩ := reads_between reads token.1 phase
  have stops := (partly.next_verdict token next).stops lost
  refine ⟨done, p ++ (c ++ v), List.append_assoc _ _ _, before, ?_,
    unfinished_failed hp token next stops, ?_⟩
  · simp [framing.nonempty _ _ token]
  · intro method asked
    obtain ⟨rfl, -⟩ := Prod.mk.inj next
    exact (partly.asks ((Assembly.consume_lost token lost).asked asked)).append _

/-- A line that is too long. -/
theorem lostOn_line {bytes v : Bytes} {results : List RequestResult} {s : Assembly}
    (reads : framing.Reads {} bytes results s) (live : s.failure = .none)
    (line : s.phase.isLine = true) (overlong : LineReader.Overlong v)
    (stuck : framing.Stuck s v) : LostOn (bytes ++ v) results s.refuseLine.1 := by
  have phase : s.phase ≠ .discard := by
    intro hphase
    rw [hphase] at line
    cases line
  obtain ⟨done, p, rfl, before, partly, hp⟩ := reads_between reads live phase
  refine ⟨done, p ++ v, List.append_assoc _ _ _, before, ?_, unfinished_partly hp stuck, ?_⟩
  · simp [overlong.nonempty]
  · intro method asked
    exact (partly.asks (s.refuseLine_keeps.asked asked)).append _

theorem Ran.lost_call {stream : Bytes} {results : List RequestResult} {reader : RequestReader}
    (h : Ran stream results reader) (live : reader.failure = .none)
    (lost : reader.nextRequest.1.failure ≠ .none) :
    LostOn stream (answersOf results) reader.nextRequest.1.state := by
  obtain ⟨bytes, hcut, hreads⟩ := h.reads live
  obtain ⟨p₀, stands⟩ := h.stands live
  change reader.nextRequest.1.state.failure ≠ .none at lost
  have hanswered := RequestReader.nextRequest_answered stands.sane live
  generalize reader.nextRequest.1.state = t at lost hanswered ⊢
  generalize reader.nextRequest.1.unread = v at hanswered
  generalize reader.nextRequest.2 = result at hanswered
  rw [hcut]
  generalize reader.unread = unread at hanswered
  rcases hanswered with hpoll | ⟨s, hpoll, hstalled⟩
  · cases hpoll with
    | @emit s _ e c _ _ cut silent token next =>
      obtain ⟨_, d, -, hstands⟩ := stands.reads silent rfl
      have hphase : s.phase ≠ .discard := by
        cases hstands with
        | partly h => exact h.phase_ne
        | draining h => cases (h.goes token next).1
      have hlost := lostOn_token (v := v) (hreads.trans silent) hphase token next lost
      rw [List.append_nil] at hlost
      rw [cut, List.append_assoc, ← List.append_assoc]
      exact hlost
  · cases hpoll with
    | @wait _ e _ cut silent stuck =>
      obtain ⟨_, d, -, hstands⟩ := stands.reads silent rfl
      have hlong : s.phase.isLine = true ∧ (LineReader.lineOf v).2.error = .lineTooLong := by
        by_contra hnot
        rw [Assembly.stalled, if_neg hnot] at hstalled
        exact lost (by rw [← (Prod.mk.inj hstalled).1]; exact hstands.live)
      rw [Assembly.stalled, if_pos hlong] at hstalled
      obtain ⟨rfl, -⟩ := Prod.mk.inj hstalled
      have hlost := lostOn_line (hreads.trans silent) hstands.live hlong.1
        (LineReader.lineOf_overlong hlong.2) stuck
      rw [List.append_nil] at hlost
      rw [cut, ← List.append_assoc]
      exact hlost

theorem Extents.last {bytes : Bytes} {results : List RequestResult} {result : RequestResult}
    (h : Extents bytes (results ++ [result])) : ∃ before extent, bytes = before ++ extent ∧
      Extents before results ∧ Extent extent result := by
  obtain ⟨parts, rfl, hresults, all⟩ := h
  obtain ⟨first, second, rfl, hfirst, hsecond⟩ := List.map_eq_append_iff.mp hresults.symm
  obtain ⟨part, rfl, rfl⟩ := List.map_eq_singleton_iff.mp hsecond
  refine ⟨_, part.1, by simp, ⟨first, rfl, hfirst.symm, fun part' h => all part' (by simp [h])⟩, ?_⟩
  exact all part (by simp)

/-- A call that delivers a request has read whole requests, that one the last of them. -/
theorem Ran.delivered {stream : Bytes} {results : List RequestResult} {reader : RequestReader}
    (h : Ran stream results reader) (delivered : reader.nextRequest.2.request ≠ none) :
    ∃ bytes, stream = bytes ++ reader.nextRequest.1.unread ∧
      Extents bytes (answersOf results ++ [reader.nextRequest.2]) := by
  have hanswer : reader.nextRequest.2 ≠ {} := by
    rintro heq
    rw [heq] at delivered
    exact delivered rfl
  have live : reader.failure = .none := by
    by_contra lost
    rw [RequestReader.nextRequest_failed lost] at delivered
    exact delivered rfl
  obtain ⟨p, stands⟩ := h.stands live
  have hfresh := RequestReader.fresh_of_delivery stands delivered
  obtain ⟨bytes, hcut, hreads⟩ := h.call.reads (by rw [← RequestReader.state_failure, hfresh])
  have hone : answersOf [reader.nextRequest.2] = [reader.nextRequest.2] := by
    simp [answersOf, hanswer]
  rw [hfresh, answersOf_concat, hone] at hreads
  exact ⟨bytes, hcut, .of_reads hreads⟩

/-- A request behind whole ones asks with this method. -/
def OnWire (stream : Bytes) (method : Method) : Prop :=
  ∃ before rest answered, stream = before ++ rest ∧ Extents before answered ∧ Asks rest method

theorem OnWire.append {stream : Bytes} {method : Method} (h : OnWire stream method)
    (more : Bytes) : OnWire (stream ++ more) method := by
  obtain ⟨before, rest, answered, rfl, whole, asks⟩ := h
  exact ⟨before, rest ++ more, answered, by simp, whole, asks.append more⟩

theorem Ran.asks_live {stream : Bytes} {results : List RequestResult} {reader : RequestReader}
    (h : Ran stream results reader) (live : reader.failure = .none) {method : Method}
    (asked : reader.state.asked = some method) : OnWire stream method := by
  obtain ⟨bytes, hcut, hreads⟩ := h.reads live
  have haccount := Account.front.reads hreads live
  rw [List.nil_append, List.nil_append] at haccount
  rw [hcut]
  refine OnWire.append ?_ _
  generalize reader.state = s at haccount asked
  generalize answersOf results = answered at haccount
  cases haccount with
  | between before partly => exact ⟨_, _, _, rfl, before, partly.asks asked⟩
  | dropping before =>
    exact ⟨_, _, _, rfl, before, ((Head.asks_of rfl asked).append _).append _⟩

/-- The method that the reader keeps stands on the wire. -/
theorem Ran.asks {stream : Bytes} {results : List RequestResult} {reader : RequestReader}
    (h : Ran stream results reader) {method : Method}
    (asked : reader.state.asked = some method) : OnWire stream method := by
  induction h with
  | fresh => cases asked
  | append _ more ih => exact (ih asked).append more
  | @call stream results reader h ih =>
    by_cases live : reader.failure = .none
    · by_cases live' : reader.nextRequest.1.failure = .none
      · exact h.call.asks_live live' asked
      · obtain ⟨before, rest, hcut, whole, -, -, hasks⟩ := h.lost_call live live'
        exact ⟨before, rest, _, hcut, whole, hasks method asked⟩
    · rw [RequestReader.nextRequest_failed live] at asked
      exact ih asked

/-- So does the method of a request that is delivered. -/
theorem Ran.delivered_asks {stream : Bytes} {results : List RequestResult}
    {reader : RequestReader} (h : Ran stream results reader) {request : Request}
    (delivered : reader.nextRequest.2.request = some request) : OnWire stream request.method := by
  obtain ⟨bytes, hcut, whole⟩ := h.delivered (by simp [delivered])
  rw [hcut]
  refine OnWire.append ?_ _
  obtain ⟨done, extent, rfl, before, hextent⟩ := whole.last
  generalize reader.nextRequest.2 = result at hextent delivered
  cases hextent with
  | delivered wire =>
    obtain rfl := Option.some.inj delivered
    exact ⟨done, _, _, rfl, before, wire.asks⟩
  | refused => cases delivered

end Carafe.Http
