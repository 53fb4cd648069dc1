import Carafe.Http.Decoding

/-!
# Runs of the reader

Appends and calls in any order. Along every run the bytes not yet read are those
behind the last answer, but for the front of one request or the rest of a refused
body; so every answer is a verdict on the bytes of one request.
-/

namespace Carafe.Http
open Search TokenStream

/-- The rest of a refused body is being dropped. -/
structure Draining (s : Assembly) : Prop where
  phase : s.phase = .discard
  live : s.failure = .none
  pos : 0 < s.bodyBytes
  size : s.chunkBytes = 0

/-- `p` is what has been read of the request at hand; a refused one counts no more. -/
inductive Stands : Bytes → Assembly → Prop where
  | partly {p : Bytes} {s : Assembly} (h : Partly p s) : Stands p s
  | draining {s : Assembly} (h : Draining s) : Stands [] s

theorem Draining.settle {s : Assembly} (h : Draining s) : s.settle = s := by
  have hne : s.phase ≠ .chunkData := by rw [h.phase]; decide
  rw [Assembly.settle_eq hne, ← h.size]

theorem Draining.rearmed {s : Assembly} (h : Draining s) : s.armNextRequest = {} := by
  simp [Assembly.armNextRequest, h.live, h.size]

/-- A refused body is dropped to its last byte, and then the reader is fresh. -/
theorem Draining.reads_all {s : Assembly} (h : Draining s) {body : Bytes}
    (hlen : body.length = s.bodyBytes) : framing.Reads s body [] {} := by
  have hreads := Assembly.discard_reads h.live h.phase h.pos body (Nat.le_of_eq hlen)
  rw [h.settle, Assembly.onDiscard_done (Nat.le_of_eq hlen.symm), h.rearmed] at hreads
  exact hreads

theorem Draining.token {s : Assembly} (h : Draining s) {c : Bytes} (token : s.Token c) :
    c.length = 1 := by
  have hlen := token.2
  rw [h.phase] at hlen
  exact hlen.2

theorem Draining.consume {s : Assembly} (h : Draining s) {c : Bytes} (token : s.Token c) :
    framing.next s c =
      if 1 < s.bodyBytes then ({ s with bodyBytes := s.bodyBytes - 1 }, none) else ({}, none) := by
  have hconsume : s.consume c = ((s.onDiscard 1).1, none) := by
    simp only [Assembly.consume, h.phase, h.token token]
  change Assembly.settled (s.consume c) = _
  rw [hconsume]
  by_cases hmore : 1 < s.bodyBytes
  · have hrest : Draining { s with bodyBytes := s.bodyBytes - 1 } :=
      ⟨h.phase, h.live, Nat.sub_pos_of_lt hmore, h.size⟩
    rw [if_pos hmore, Assembly.onDiscard_more hmore, Assembly.settled, hrest.settle]
  · rw [if_neg hmore, Assembly.onDiscard_done (Nat.le_of_not_lt hmore), h.rearmed]
    rfl

theorem Draining.goes {s t : Assembly} (h : Draining s) {c : Bytes}
    {out : Option RequestResult} (token : s.Token c) (next : framing.next s c = (t, out)) :
    out = none ∧ Stands [] t := by
  rw [h.consume token] at next
  split at next
  · rename_i hmore
    obtain ⟨rfl, rfl⟩ := Prod.mk.inj next
    exact ⟨rfl, .draining ⟨h.phase, h.live, Nat.sub_pos_of_lt hmore, h.size⟩⟩
  · obtain ⟨rfl, rfl⟩ := Prod.mk.inj next
    exact ⟨rfl, .partly .start⟩

theorem Partly.phase_ne {p : Bytes} {s : Assembly} (h : Partly p s) : s.phase ≠ .discard := by
  cases h with
  | start | head | body | between | inChunk | trailing => exact Phase.noConfusion

namespace Stands

theorem live {p : Bytes} {s : Assembly} (h : Stands p s) : s.failure = .none := by
  cases h with
  | partly h => exact h.failure
  | draining h => exact h.live

theorem sane {p : Bytes} {s : Assembly} (h : Stands p s) : s.Sane := by
  rintro (hphase | hphase)
  · cases h with
    | draining h => exact h.pos
    | partly h =>
      cases h with
      | body _ _ pos => exact pos
      | start | head | between | inChunk | trailing => cases hphase
  · cases h with
    | draining h => exact h.pos
    | partly h => exact False.elim (h.phase_ne hphase)

/-- One silent token: what is read of the request at hand grows, or starts anew behind a
refused body. -/
theorem next_silent {p c : Bytes} {s t : Assembly} (h : Stands p s) (token : framing.token s c)
    (next : framing.next s c = (t, none)) : ∃ q d, p ++ c = q ++ d ∧ Stands d t := by
  cases h with
  | partly h => exact ⟨[], p ++ c, rfl, .partly (h.next_silent token next)⟩
  | draining h => exact ⟨c, [], by simp, (h.goes token next).2⟩

theorem next_verdict {p c : Bytes} {s t : Assembly} {result : RequestResult} (h : Stands p s)
    (token : framing.token s c) (next : framing.next s c = (t, some result)) :
    Verdict (p ++ c) t result := by
  cases h with
  | partly h => exact h.next_verdict token next
  | draining h => cases (h.goes token next).1

theorem reads {p e : Bytes} {s t : Assembly} {out : List RequestResult} (h : Stands p s)
    (reads : framing.Reads s e out t) (silent : out = []) :
    ∃ q d, p ++ e = q ++ d ∧ Stands d t := by
  induction reads generalizing p with
  | done => exact ⟨[], p, by simp, h⟩
  | @step s s₁ s' c e out ws token next _ ih =>
    obtain ⟨hnone, rfl⟩ := List.append_eq_nil_iff.mp silent
    obtain rfl : out = none := by simpa using hnone
    obtain ⟨q, d, hcut, hstands⟩ := h.next_silent token next
    obtain ⟨q', d', hcut', hstands'⟩ := ih hstands rfl
    refine ⟨q ++ q', d', ?_, hstands'⟩
    rw [← List.append_assoc, hcut, List.append_assoc, hcut', List.append_assoc]

end Stands

/-- A verdict that does not lose the stream leaves the reader at the front of a request,
or of the body it refused. -/
theorem Verdict.stands {p : Bytes} {s : Assembly} {result : RequestResult}
    (h : Verdict p s result) (live : s.failure = .none) : Stands [] s := by
  cases h with
  | delivered => exact .partly .start
  | refused complete states large => exact .draining ⟨rfl, rfl, Nat.zero_lt_of_lt large, rfl⟩
  | failed lost => exact False.elim (lost live)

theorem Verdict.streamContinues {p : Bytes} {s : Assembly} {result : RequestResult}
    (h : Verdict p s result) :
    result ≠ {} ∧ (result.streamContinues = false ↔ s.failure ≠ .none) := by
  cases h with
  | delivered => simp [delivery]
  | refused => simp [Head.awaiting, refusal]
  | failed lost => simp [lost]

theorem Stands.polls {p unread rest : Bytes} {s t : Assembly} {result : RequestResult}
    (h : Stands p s) (poll : framing.Polls s unread (some result) t rest) :
    ∃ d, Verdict d t result := by
  cases poll with
  | emit cut silent token next =>
    obtain ⟨_, d, -, hstands⟩ := h.reads silent rfl
    exact ⟨_, hstands.next_verdict token next⟩

theorem Assembly.stalled_cases (s : Assembly) (unread : Bytes) :
    s.stalled unread = (s, {}) ∨ s.stalled unread = s.refuseLine := by
  unfold stalled
  split
  · exact Or.inr rfl
  · exact Or.inl rfl

/-- What a call makes of a live reader: an answer to all that was read, or nothing yet,
or a line that is too long. -/
inductive Answers (p : Bytes) (unread : Bytes) : Assembly → Bytes → RequestResult → Prop where
  | verdict {q d rest : Bytes} {t : Assembly} {result : RequestResult}
      (cut : p ++ unread = q ++ d ++ rest) (verdict : Verdict d t result) :
      Answers p unread t rest result
  | pending {q d rest : Bytes} {t : Assembly} (cut : p ++ unread = q ++ d ++ rest)
      (stands : Stands d t) (stuck : framing.Stuck t rest)
      (short : t.phase.isLine = true → rest.length ≤ maxLineLength) : Answers p unread t rest {}
  | overlong {q d rest : Bytes} {t : Assembly} (cut : p ++ unread = q ++ d ++ rest)
      (stands : Stands d t) (line : t.phase.isLine = true) (long : LineReader.Overlong rest) :
      Answers p unread t.refuseLine.1 rest t.refuseLine.2

theorem LineReader.lineOf_overlong {unread : Bytes}
    (h : (lineOf unread).2.error = .lineTooLong) : Overlong unread := by
  rcases lineOf_cases unread with ⟨line, rest, -, -, -, heq⟩ | ⟨long, -⟩ | ⟨-, -, heq⟩
  · rw [heq] at h
    cases h
  · exact long
  · rw [heq] at h
    cases h

theorem stalled_answers {p unread q d rest : Bytes} {s t : Assembly} {result : RequestResult}
    (cut : p ++ unread = q ++ d ++ rest) (stands : Stands d s) (stuck : framing.Stuck s rest)
    (h : Assembly.stalled s rest = (t, result)) : Answers p unread t rest result := by
  unfold Assembly.stalled at h
  by_cases hlong : s.phase.isLine = true ∧
      (LineReader.lineOf rest).2.error = .lineTooLong
  · rw [if_pos hlong, Prod.ext_iff] at h
    obtain ⟨rfl, rfl⟩ := h
    exact .overlong cut stands hlong.1 (LineReader.lineOf_overlong hlong.2)
  · rw [if_neg hlong, Prod.mk.injEq] at h
    obtain ⟨rfl, rfl⟩ := h
    refine .pending cut stands stuck fun hline => ?_
    rcases LineReader.lineOf_cases rest with ⟨line, tail, rfl, clear, short, -⟩ | ⟨-, heq⟩ | ⟨-, h, -⟩
    · have token := Assembly.token_line stands.live hline clear short
      exact False.elim (stuck _ token (List.prefix_append _ tail))
    · exact False.elim (hlong ⟨hline, by rw [heq]⟩)
    · exact h

/-- One call, from wherever a live reader stands. -/
theorem Stands.answers {p unread rest : Bytes} {s t : Assembly} {result : RequestResult}
    (h : Stands p s) (answered : Assembly.Answered s unread t rest result) :
    Answers p unread t rest result := by
  rcases answered with hpoll | ⟨s₁, hpoll, hstalled⟩
  · cases hpoll with
    | @emit s₁ _ e c _ _ hcut silent token next =>
      obtain ⟨q, d, hfront, hstands⟩ := h.reads silent rfl
      refine .verdict (q := q) (d := d ++ c) ?_ (hstands.next_verdict token next)
      rw [hcut, ← List.append_assoc, ← List.append_assoc, hfront]
      simp
  · cases hpoll with
    | @wait _ e _ hcut silent stuck =>
      obtain ⟨q, d, hfront, hstands⟩ := h.reads silent rfl
      have cut : p ++ unread = q ++ d ++ rest := by rw [hcut, ← List.append_assoc, hfront]
      exact stalled_answers cut hstands stuck hstalled

/-- An answer is nothing yet, or leaves the reader between requests, or failed. -/
theorem Answers.position {p unread rest : Bytes} {t : Assembly} {result : RequestResult}
    (h : Answers p unread t rest result) (live : t.failure = .none) :
    ∃ q d, p ++ unread = q ++ d ++ rest ∧ Stands d t := by
  cases h with
  | @verdict q d _ _ _ cut verdict => exact ⟨q ++ d, [], by simpa using cut, verdict.stands live⟩
  | pending cut stands => exact ⟨_, _, cut, stands⟩
  | @overlong q d _ s cut stands line =>
    exact False.elim (s.refuseLine_lost.1 live)

/-- Readers that appends and calls lead to, with all the bytes that were appended. -/
inductive Reached : Bytes → RequestReader → Prop where
  | fresh : Reached [] {}
  | append {stream : Bytes} {reader : RequestReader} (h : Reached stream reader) (more : Bytes) :
      Reached (stream ++ more) (reader.append more)
  | call {stream : Bytes} {reader : RequestReader} (h : Reached stream reader) :
      Reached stream reader.nextRequest.1

/-- Where a reader stands in the stream. -/
def Placed (stream : Bytes) (reader : RequestReader) : Prop :=
  reader.failure = .none →
    ∃ q d, stream = q ++ d ++ reader.unread ∧ Stands d reader.state

theorem Placed.answers {stream : Bytes} {reader : RequestReader} (h : Placed stream reader)
    (live : reader.failure = .none) : ∃ p q, stream = q ++ p ++ reader.unread ∧
      Answers p reader.unread reader.nextRequest.1.state reader.nextRequest.1.unread
        reader.nextRequest.2 := by
  obtain ⟨q, d, hcut, stands⟩ := h live
  have sane : reader.Sane := stands.sane
  exact ⟨d, q, hcut, stands.answers (RequestReader.nextRequest_answered sane live)⟩

theorem Reached.placed {stream : Bytes} {reader : RequestReader} (h : Reached stream reader) :
    Placed stream reader := by
  induction h with
  | fresh => exact fun _ => ⟨[], [], rfl, .partly .start⟩
  | append _ more ih =>
    intro live
    obtain ⟨q, d, hcut, stands⟩ := ih live
    refine ⟨q, d, ?_, stands⟩
    rw [RequestReader.append_unread, hcut, List.append_assoc]
  | @call stream reader _ ih =>
    intro live
    have live' : reader.failure = .none := by
      by_contra lost
      rw [RequestReader.nextRequest_failed lost] at live
      exact lost live
    obtain ⟨p, q, hcut, hanswers⟩ := ih.answers live'
    obtain ⟨q', d, hcut', stands⟩ := hanswers.position live
    refine ⟨q ++ q', d, ?_, stands⟩
    rw [hcut, List.append_assoc, hcut']
    simp

theorem Verdict.wire {p : Bytes} {s : Assembly} {result : RequestResult} {request : Request}
    (h : Verdict p s result) (delivered : result.request = some request) :
    ∃ wire : WireRequest, wire.encode = p ∧ wire.request = request := by
  cases h with
  | delivered wire spelled => exact ⟨wire, spelled, Option.some.inj delivered⟩
  | refused | failed => cases delivered

/-- A request that is delivered was spelled by the bytes just read. -/
theorem Reached.delivers {stream : Bytes} {reader : RequestReader} (h : Reached stream reader)
    {request : Request} (delivered : reader.nextRequest.2.request = some request) :
    ∃ (front : Bytes) (wire : WireRequest), wire.request = request ∧
      stream = front ++ wire.encode ++ reader.nextRequest.1.unread := by
  have live : reader.failure = .none := by
    by_contra lost
    rw [RequestReader.nextRequest_failed lost] at delivered
    cases delivered
  obtain ⟨p, q, hcut, hanswers⟩ := h.placed.answers live
  generalize reader.nextRequest.1.state = t at hanswers
  generalize reader.nextRequest.1.unread = rest at hanswers
  generalize reader.nextRequest.2 = result at hanswers delivered
  cases hanswers with
  | @verdict q' d _ _ _ cut verdict =>
    obtain ⟨wire, rfl, hrequest⟩ := verdict.wire delivered
    refine ⟨q ++ q', wire, hrequest, ?_⟩
    rw [hcut, List.append_assoc, cut]
    simp
  | pending => cases delivered
  | @overlong _ _ _ t cut stands =>
    rw [t.refuseLine_lost.2.2.1] at delivered
    cases delivered

/-- What a handler may rely on. -/
structure Unambiguous (request : Request) : Prop where
  target : TargetValid request.target
  fieldCount : request.headers.fields.length ≤ maxFields
  fields : ∀ field ∈ request.headers.fields,
    field.name ≠ [] ∧ field.name.all isTchar = true ∧ field.name.map asciiLower = field.name ∧
    field.value.all isValidValueChar = true ∧
    (∀ ch ∈ field.value.head?, isOws ch = false) ∧ ∀ ch ∈ field.value.getLast?, isOws ch = false
  hostRule : HostRule request.headers request.version
  notBoth : ¬ (request.headers.contains transferEncoding = true ∧
    request.headers.contains contentLength = true)
  lengthOnce : request.headers.count contentLength ≤ 1
  length : ∀ value, request.headers.get contentLength = some value →
    decimalNumber value = some request.body.length
  coding : request.headers.contains transferEncoding = true →
    request.version = .http11 ∧ foldedCodings request.headers = [chunkedCoding]
  bare : request.headers.contains transferEncoding = false →
    request.headers.contains contentLength = false → request.body = []
  bodySize : request.body.length ≤ maxBodyBytes
  params : request.params = {}

/-- Without the field there is no value to look up. -/
theorem Headers.get_eq_none {headers : Headers} {name : Bytes}
    (lowered : name.map asciiLower = name) (h : headers.count name = 0) :
    headers.get name = none := by
  have hcontains := Headers.contains_iff_count lowered headers
  rw [h, Headers.contains] at hcontains
  simpa using hcontains

theorem Headers.contains_eq_false {headers : Headers} {name : Bytes}
    (lowered : name.map asciiLower = name) :
    headers.contains name = false ↔ headers.count name = 0 := by
  rw [← Bool.not_eq_true, Headers.contains_iff_count lowered]
  omega

theorem WireBody.framed_lengths {headers : Headers} {version : Version} {body : WireBody}
    (framed : body.Framed headers version) :
    ¬ (headers.contains transferEncoding = true ∧ headers.contains contentLength = true) ∧
    headers.count contentLength ≤ 1 ∧
    (∀ value, headers.get contentLength = some value →
      decimalNumber value = some body.data.length) ∧
    (headers.contains transferEncoding = true →
      version = .http11 ∧ foldedCodings headers = [chunkedCoding]) ∧
    (headers.contains transferEncoding = false → headers.contains contentLength = false →
      body.data = []) := by
  cases body with
  | none =>
    obtain ⟨absent, hzero⟩ := framed
    have hnone := Headers.get_eq_none lowered_contentLength hzero
    simp [absent, hzero, hnone, data]
  | sized data =>
    obtain ⟨absent, hone, hstates⟩ := framed
    have hcontains := (Headers.contains_iff_count lowered_contentLength headers).mpr (by omega)
    refine ⟨by simp [absent], by omega, ?_, by simp [absent], by simp [hcontains]⟩
    intro value hvalue
    rw [hvalue, Option.bind_some] at hstates
    exact hstates
  | chunked chunks last trailers =>
    obtain ⟨⟨absent, hversion⟩, coded⟩ := framed
    have hzero := (Headers.contains_eq_false lowered_contentLength).mp absent
    have hnone := Headers.get_eq_none lowered_contentLength hzero
    have present : headers.contains transferEncoding = true := by
      apply contains_of_codings
      rw [coded]
      simp
    simp [absent, hzero, hnone, hversion, coded, present]

theorem WireRequest.sound (wire : WireRequest) : Unambiguous wire.request := by
  obtain ⟨notBoth, lengthOnce, length, coding, bare⟩ :=
    WireBody.framed_lengths wire.framed
  refine ⟨wire.target, ?_, ?_, wire.hostRule, notBoth, lengthOnce, length, coding, bare,
    wire.bodySize, rfl⟩
  · have hcount := wire.fieldCount
    rw [List.length_append] at hcount
    simp only [request, headersOf_fields, List.length_map]
    omega
  · intro field hfield
    simp only [request, headersOf_fields, List.mem_map] at hfield
    obtain ⟨line, -, rfl⟩ := hfield
    exact ⟨by simpa [FieldLine.field] using line.nameNonempty, line.field_name,
      map_asciiLower_idem line.name, line.valueChars, line.valueFirst, line.valueLast⟩

/-- Every request that is ever delivered is unambiguous, and its headers are the field
lines of its head alone. -/
theorem Reached.unambiguous {stream : Bytes} {reader : RequestReader} (h : Reached stream reader)
    {request : Request} (delivered : reader.nextRequest.2.request = some request) :
    Unambiguous request ∧ ∃ (front : Bytes) (wire : WireRequest),
      stream = front ++ wire.encode ++ reader.nextRequest.1.unread ∧
      request.headers.fields = wire.fields.map FieldLine.field ∧
      request.body = wire.body.data := by
  obtain ⟨front, wire, rfl, hcut⟩ := h.delivers delivered
  exact ⟨wire.sound, front, wire, hcut, headersOf_fields wire.fields, rfl⟩

/-- A small request with one field. -/
theorem Reached.unambiguous_get :
    Unambiguous { target := bytes "/", version := .http11, headers := .ofFields [⟨host, bytes "a"⟩] } :=
  (Reached.unambiguous (Reached.fresh.append (bytes "GET / HTTP/1.1\r\nHost: a\r\n\r\n"))
    (by decide +kernel)).1

end Carafe.Http
