import Carafe.Http.Decoding

/-!
# Every spelled request is read back

A request on the wire is read from a fresh reader token by token, with one equation
for each kind of line, and leaves a fresh reader behind. Whole streams of requests
follow by induction on the list.
-/

namespace Carafe.Http
open Search TokenStream

theorem reads_line {a b : Assembly} {out : Option RequestResult} (live : a.failure = .none)
    (h : a.phase.isLine = true) {text : Bytes} (clear : ¬ crlf <:+: text)
    (short : text.length ≤ maxLineLength) (accept : a.acceptLine text = (b, out))
    (same : b.settle = b) : framing.Reads a (text ++ crlf) out.toList b := by
  refine Machine.Reads.single (Assembly.token_line live h clear short) ?_
  change ((a.consume (text ++ crlf)).1.settle, (a.consume (text ++ crlf)).2) = (b, out)
  rw [Assembly.consume_line h, accept, same]

theorem accept_requestLine {line : RequestLine} (target : TargetValid line.target)
    (short : line.text.length ≤ maxLineLength) :
    ({} : Assembly).acceptLine line.text =
      ({ phase := .headers
         request := { method := line.method, target := line.target, version := line.version }
         headBytes := (line.text ++ crlf).length }, none) := by
  have hbytes : (({} : Assembly).charge line.text).headBytes = (line.text ++ crlf).length := by
    simp [Assembly.charge, crlf, crlfSize]
  have hsize : (line.text ++ crlf).length ≤ maxHeadBytes := by
    simp only [List.length_append, crlf, List.length_cons, List.length_nil, maxHeadBytes,
      maxLineLength] at *
    omega
  rw [Assembly.acceptLine_charged (by decide), hbytes, if_neg (Nat.not_lt.mpr hsize)]
  change (({} : Assembly).charge line.text).handleRequestLine line.text = _
  unfold Assembly.handleRequestLine
  rw [parseRequestLine_text target, ← hbytes]
  rfl

theorem accept_fieldLine (head : Head) (field : FieldLine)
    (short : field.text.length ≤ maxLineLength) (count : head.fields.length + 1 ≤ maxFields)
    (size : (head.text ++ (field.text ++ crlf)).length ≤ maxHeadBytes) :
    head.assembly.acceptLine field.text = ((head.add field short count size).assembly, none) := by
  have hbytes : (head.assembly.charge field.text).headBytes =
      (head.text ++ (field.text ++ crlf)).length := by
    simp [Assembly.charge, Head.assembly, crlf, crlfSize]
  rw [Assembly.acceptLine_charged (by simp [Head.assembly]), hbytes,
    if_neg (Nat.not_lt.mpr size)]
  change (head.assembly.charge field.text).handleFieldLine field.text = _
  unfold Assembly.handleFieldLine
  have hcount : ¬ (head.assembly.charge field.text).fieldCount + 1 > maxFields :=
    Nat.not_lt.mpr count
  rw [if_neg field.text_ne_nil]
  dsimp only
  rw [if_neg hcount, parseHeaderField_text, Head.add_assembly, ← hbytes]
  rfl

/-- The field lines are read one by one. -/
theorem Head.reads (head : Head) : framing.Reads {} head.text [] head.assembly := by
  obtain ⟨line, fields, target, lineShort, fieldsShort, fieldCount, headSize⟩ := head
  induction fields using List.reverseRecOn with
  | nil =>
    have h := reads_line rfl rfl (RequestLine.text_plain target) lineShort
      (accept_requestLine target lineShort) rfl
    simpa [text, assembly, request, headers] using h
  | append_singleton fields field ih =>
    have shorts : ShortLines fields := fun entry h => fieldsShort entry (by simp [h])
    have count : fields.length + 1 ≤ maxFields := by simpa using fieldCount
    have size : (line.text ++ crlf ++ fieldLines fields).length ≤ maxHeadBytes := by
      simp at headSize ⊢
      omega
    let front : Head := ⟨line, fields, target, lineShort, shorts, by omega, size⟩
    have short : field.text.length ≤ maxLineLength := fieldsShort field (by simp)
    have size' : (front.text ++ (field.text ++ crlf)).length ≤ maxHeadBytes := by
      simpa [front, text] using headSize
    have hfirst : framing.Reads {} front.text [] front.assembly := ih shorts (by omega) size
    have hlast := reads_line (a := front.assembly) rfl rfl field.text_plain short
      (accept_fieldLine front field short count size') rfl
    have h := hfirst.trans hlast
    simpa [front, add, text] using h

/-- The blank line closes a head. -/
theorem accept_blankLine {head : Head} (complete : head.Complete) :
    head.assembly.acceptLine [] = (head.assembly.charge []).completeHead := by
  have hbytes : (head.assembly.charge []).headBytes = (head.text ++ crlf).length := by
    simp [Assembly.charge, Head.assembly, crlf, crlfSize]
  rw [Assembly.acceptLine_charged (by simp [Head.assembly]), hbytes,
    if_neg (Nat.not_lt.mpr complete.size)]
  rfl

theorem reads_blankLine {head : Head} (complete : head.Complete) {a : Assembly}
    (out : Option RequestResult) (h : (head.assembly.charge []).completeHead = (a, out))
    (same : a.settle = a) : framing.Reads {} (head.text ++ crlf) out.toList a :=
  head.reads.trans (reads_line rfl rfl (by simp [crlf]) (Nat.zero_le _)
    ((accept_blankLine complete).trans h) same)

theorem finishRequest_fresh {a : Assembly} {request : Request} (live : a.failure = .none)
    (size : a.chunkBytes = 0) (h : a.request = request) :
    Assembly.handOver a.finishRequest = ({}, some (delivery request)) := by
  subst h
  simp [Assembly.handOver, Assembly.finishRequest, Assembly.armNextRequest, delivery, live, size]

theorem reads_none {head : Head} (complete : head.Complete)
    (framed : WireBody.none.Framed head.headers head.line.version) :
    framing.Reads {} (head.text ++ crlf) [delivery (head.request [])] {} := by
  refine reads_blankLine complete (some (delivery (head.request []))) ?_ rfl
  have hmeasured := (measureBody_length framed.1 head.line.version).mpr (Or.inl ⟨framed.2, rfl⟩)
  rw [completeHead_measured (a := head.assembly.charge []) complete.hostRule hmeasured.1 rfl]
  exact finishRequest_fresh rfl rfl rfl

theorem reads_sized {head : Head} (complete : head.Complete) {data : Bytes}
    (fits : data.length ≤ maxBodyBytes)
    (framed : (WireBody.sized data).Framed head.headers head.line.version) :
    framing.Reads {} (head.text ++ crlf ++ data) [delivery (head.request data)] {} := by
  obtain ⟨absent, hone, hstates⟩ := framed
  have hdrain : data.length ≤ maxDrainBytes := by
    simp only [maxBodyBytes, maxDrainBytes] at *
    omega
  have hmeasured := (measureBody_length absent head.line.version).mpr
    (Or.inr ⟨hone, data.length, rfl, hstates, hdrain⟩)
  have hhead := completeHead_measured (a := head.assembly.charge []) complete.hostRule
    hmeasured.1 rfl
  rw [if_neg (by simp), if_neg (Nat.not_lt.mpr fits)] at hhead
  by_cases hnil : data = []
  · subst hnil
    rw [List.append_nil]
    refine reads_blankLine complete (some (delivery (head.request []))) ?_ rfl
    rw [hhead]
    exact finishRequest_fresh rfl rfl rfl
  · rw [if_neg (by simpa using hnil)] at hhead
    have hawait : (head.assembly.charge []).completeHead = (head.awaiting data.length, none) := by
      rw [hhead]
      simp [Head.awaiting, Head.assembly, Assembly.charge, crlf, crlfSize]
    have hopen := reads_blankLine complete none hawait rfl
    have token : framing.token (head.awaiting data.length) data :=
      ⟨rfl, List.length_pos_of_ne_nil hnil, rfl⟩
    have hbody : framing.Reads (head.awaiting data.length) data
        (some (delivery (head.request data))).toList {} := Machine.Reads.single token rfl
    exact hopen.trans hbody

theorem accept_sizeLine (head : Head) (body : Bytes) (line : SizeLine) (pos : 0 < line.size)
    (fits : body.length + line.size ≤ maxBodyBytes) :
    (head.between body).acceptLine line.text = (head.inChunk body line.size, none) := by
  have hbody : (head.between body).request.body = body := rfl
  rw [Assembly.acceptLine_chunkSize rfl, Assembly.handleChunkSize, line.parse (by omega)]
  dsimp only
  rw [if_neg (by simp), if_neg (Nat.pos_iff_ne_zero.mp pos), hbody, if_neg (Nat.not_lt.mpr fits)]
  rfl

theorem accept_lastChunk (head : Head) (body : Bytes) (last : LastChunk) :
    (head.between body).acceptLine last.line.text = (head.trailing body [], none) := by
  rw [Assembly.acceptLine_chunkSize rfl, Assembly.handleChunkSize,
    last.line.parse (by rw [last.zero]; exact Nat.zero_le _), last.zero]
  simp [Head.between, Head.trailing]

theorem reads_chunkData (head : Head) (body data : Bytes) :
    framing.Reads (head.inChunk body data.length) (data ++ crlf) [] (head.between (body ++ data)) :=
    by
  have token : framing.token (head.inChunk body data.length) (data ++ crlf) := by
    refine ⟨rfl, ?_⟩
    simp [Head.inChunk, crlf, crlfSize]
  suffices next : framing.next (head.inChunk body data.length) (data ++ crlf) =
      (head.between (body ++ data), none) from .single token next
  change Assembly.settled ((head.inChunk body data.length).acceptChunk (data ++ crlf)) = _
  have hchunk : (head.inChunk body data.length).chunkBytes = data.length := rfl
  rw [Assembly.acceptChunk, hchunk, List.drop_left, if_neg (by simp), List.take_left]
  rfl

theorem reads_chunk (head : Head) (body : Bytes) (chunk : Chunk)
    (fits : (body ++ chunk.data).length ≤ maxBodyBytes) :
    framing.Reads (head.between body) chunk.text [] (head.between (body ++ chunk.data)) := by
  have pos : 0 < chunk.line.size := by
    rw [chunk.size]
    exact List.length_pos_of_ne_nil chunk.nonempty
  have fits' : body.length + chunk.line.size ≤ maxBodyBytes := by
    simpa [chunk.size] using fits
  have hline := reads_line rfl rfl chunk.line.text_plain chunk.line.short
    (accept_sizeLine head body chunk.line pos fits') rfl
  rw [chunk.size] at hline
  exact hline.trans (reads_chunkData head body chunk.data)

theorem reads_chunks (head : Head) (chunks : List Chunk)
    (fits : (chunksData chunks).length ≤ maxBodyBytes) :
    framing.Reads (head.between []) (chunksText chunks) [] (head.between (chunksData chunks)) := by
  induction chunks using List.reverseRecOn with
  | nil => exact .done _
  | append_singleton chunks chunk ih =>
    rw [chunksData_concat] at fits ⊢
    rw [chunksText_concat]
    have hfront := ih (by simp at fits; omega)
    exact hfront.trans (reads_chunk head (chunksData chunks) chunk fits)

theorem accept_trailerLine (head : Head) (body : Bytes) (trailers : List FieldLine)
    (line : FieldLine) (count : (head.fields ++ (trailers ++ [line])).length ≤ maxFields)
    (size : (head.text ++ crlf ++ fieldLines (trailers ++ [line])).length ≤ maxHeadBytes) :
    (head.trailing body trailers).acceptLine line.text =
      (head.trailing body (trailers ++ [line]), none) := by
  rw [fieldLines_concat] at size
  have hcount : ¬ ((head.trailing body trailers).charge line.text).fieldCount + 1 > maxFields := by
    rw [← List.append_assoc, List.length_append] at count
    exact Nat.not_lt.mpr count
  rw [Assembly.acceptLine_charged (by simp [Head.trailing]), Head.trailing_bytes,
    if_neg (Nat.not_lt.mpr size)]
  change ((head.trailing body trailers).charge line.text).handleTrailerLine line.text = _
  rw [Assembly.handleTrailerLine, if_neg line.text_ne_nil]
  dsimp only
  rw [if_neg hcount, parseHeaderField_text, if_neg (by simp), Head.trailing_concat]
  rfl

theorem reads_trailers (head : Head) (body : Bytes) (trailers : List FieldLine)
    (short : ShortLines trailers) (count : (head.fields ++ trailers).length ≤ maxFields)
    (size : (head.text ++ crlf ++ fieldLines trailers).length ≤ maxHeadBytes) :
    framing.Reads (head.trailing body []) (fieldLines trailers) [] (head.trailing body trailers) :=
    by
  induction trailers using List.reverseRecOn with
  | nil => exact .done _
  | append_singleton trailers line ih =>
    have hfront := ih (fun entry h => short entry (by simp [h])) (by simp at count ⊢; omega)
      (by simp at size ⊢; omega)
    have hlast := reads_line rfl rfl line.text_plain (short line (by simp))
      (accept_trailerLine head body trailers line count size) rfl
    rw [fieldLines_concat]
    exact hfront.trans hlast

theorem reads_end (head : Head) (body : Bytes) (trailers : List FieldLine)
    (size : (head.text ++ crlf ++ (fieldLines trailers ++ crlf)).length ≤ maxHeadBytes) :
    framing.Reads (head.trailing body trailers) crlf [delivery (head.request body)] {} := by
  have hend : (head.trailing body trailers).acceptLine [] =
      ({}, some (delivery (head.request body))) := by
    rw [Assembly.acceptLine_charged (by simp [Head.trailing]), Head.trailing_bytes,
      List.nil_append, if_neg (Nat.not_lt.mpr size)]
    exact finishRequest_fresh rfl rfl rfl
  exact reads_line rfl rfl (by simp [crlf]) (Nat.zero_le _) hend rfl

theorem reads_chunked {head : Head} (complete : head.Complete) (chunks : List Chunk)
    (last : LastChunk) (trailers : List FieldLine) (short : ShortLines trailers)
    (count : (head.fields ++ trailers).length ≤ maxFields)
    (size : (head.text ++ crlf ++ (fieldLines trailers ++ crlf)).length ≤ maxHeadBytes)
    (fits : (chunksData chunks).length ≤ maxBodyBytes) (coded : head.CodedAsChunked) :
    framing.Reads {} (head.text ++ crlf ++ (WireBody.chunked chunks last trailers).text)
      [delivery (head.request (chunksData chunks))] {} := by
  have present : head.headers.contains transferEncoding = true :=
    contains_of_codings (by rw [coded.2]; simp)
  have hbetween : (head.assembly.charge []).completeHead = (head.between [], none) := by
    rw [completeHead_transfer (a := head.assembly.charge []) present,
      if_pos ⟨complete.hostRule, coded.1⟩]
    change (if foldedCodings head.headers = [chunkedCoding] then _ else _) = _
    rw [if_pos coded.2]
    simp [Head.between, Head.assembly, Assembly.charge, crlf, crlfSize]
  have hopen := reads_blankLine complete none hbetween rfl
  have hlast := reads_line rfl rfl last.line.text_plain last.line.short
    (accept_lastChunk head (chunksData chunks) last) rfl
  have htrailers := reads_trailers head (chunksData chunks) trailers short count
    (by simp at size ⊢; omega)
  have hend := reads_end head (chunksData chunks) trailers size
  have h := hopen.trans ((reads_chunks head chunks fits).trans (hlast.trans
    (htrailers.trans hend)))
  simpa [WireBody.text] using h

def WireRequest.head (wire : WireRequest) : Head where
  line := wire.line
  fields := wire.fields
  target := wire.target
  lineShort := wire.lineShort
  fieldsShort := fun field h => wire.fieldsShort field (List.mem_append_left _ h)
  fieldCount := by
    have h := wire.fieldCount
    rw [List.length_append] at h
    omega
  headSize := by
    have h := wire.headSize
    simp only [List.length_append] at h ⊢
    omega

theorem WireRequest.complete (wire : WireRequest) : wire.head.Complete where
  size := by
    have h := wire.headSize
    simp only [List.length_append] at h
    simp only [Head.text, head, List.length_append]
    omega
  hostRule := wire.hostRule

theorem WireRequest.reads (wire : WireRequest) :
    framing.Reads {} wire.encode [delivery wire.request] {} := by
  have complete := wire.complete
  have framed := wire.framed
  have fits := wire.bodySize
  have short : ShortLines wire.body.trailers :=
    fun field h => wire.fieldsShort field (List.mem_append_right _ h)
  have count := wire.fieldCount
  have size : (wire.head.text ++ crlf ++ wire.body.tail).length ≤ maxHeadBytes := by
    simpa [Head.text, WireRequest.head] using wire.headSize
  change framing.Reads {} (wire.head.text ++ crlf ++ wire.body.text)
    [delivery (wire.head.request wire.body.data)] {}
  cases hbody : wire.body with
  | none =>
    rw [hbody] at framed
    have h := reads_none complete framed
    simpa [WireBody.text, WireBody.data] using h
  | sized data =>
    rw [hbody] at framed fits
    exact reads_sized complete fits framed
  | chunked chunks last trailers =>
    rw [hbody] at framed fits short count size
    exact reads_chunked complete chunks last trailers short count size fits framed

theorem Partly.fresh {p : Bytes} {a : Assembly} (h : Partly p a) (hphase : a.phase = .requestLine) :
    p = [] := by
  cases h with
  | start => rfl
  | head | body | between | inChunk | trailing => cases hphase

theorem Partly.phase_front {p : Bytes} {a : Assembly} (h : Partly p a) (front : p = []) :
    a.phase = .requestLine := by
  cases h with
  | start => rfl
  | head | body | between | inChunk | trailing => simp [Head.text, RequestLine.text, crlf] at front

theorem Verdict.fresh {p : Bytes} {a : Assembly} {result : RequestResult}
    (h : Verdict p a result) (delivers : result.request.isSome) : a = {} := by
  cases h with
  | delivered => rfl
  | refused | failed => cases delivers

/-- One request is exactly what one poll takes from a stream that starts with it. -/
theorem WireRequest.polls (wire : WireRequest) (rest : Bytes) :
    framing.Polls {} (wire.encode ++ rest) (some (delivery wire.request)) {} rest := by
  obtain ⟨f, c, g, t, t', hcut, silent, token, next, after⟩ := wire.reads.first
  obtain rfl := ((Partly.start.reads silent rfl).next_verdict token next).fresh rfl
  obtain rfl : g = [] := (Partly.start.reads after rfl).fresh rfl
  rw [List.append_nil] at hcut
  exact .emit (by rw [hcut]) silent token next

namespace RequestReader
open Assembly

/-- The answers to `n` calls of `next_request` with nothing appended in between. -/
def calls : Nat → RequestReader → List RequestResult
  | 0, _ => []
  | n + 1, reader => reader.nextRequest.2 :: calls n reader.nextRequest.1

/-- What a reader makes of its input from here on is fixed by these two. -/
def Holds (reader : RequestReader) (s : Assembly) (unread : Bytes) : Prop :=
  reader.state = s ∧ reader.unread = unread

theorem Holds.answered {reader : RequestReader} {s t : Assembly} {unread rest : Bytes}
    {result : RequestResult} (h : reader.Holds s unread) (sane : s.Sane) (live : s.failure = .none)
    (answered : Answered s unread t rest result) :
    reader.nextRequest.2 = result ∧ reader.nextRequest.1.Holds t rest := by
  obtain ⟨rfl, rfl⟩ := h
  obtain ⟨hs, hrest, hresult⟩ := Answered.unique (nextRequest_answered sane live) answered
  exact ⟨hresult, hs, hrest⟩

theorem Holds.append {reader : RequestReader} {s : Assembly} {unread : Bytes}
    (h : reader.Holds s unread) (more : Bytes) : (reader.append more).Holds s (unread ++ more) := by
  obtain ⟨rfl, rfl⟩ := h
  exact ⟨append_state reader more, append_unread reader more⟩

theorem Holds.fresh : ({} : RequestReader).Holds {} [] := ⟨fresh_state, fresh_unread⟩

/-- A fresh reader with nothing to read answers that there is nothing yet. -/
theorem answered_idle : Answered {} [] {} [] {} := by
  refine Or.inr ⟨{}, .wait (e := []) rfl (.done _) ?_, rfl⟩
  intro c token hpre
  exact framing.nonempty _ _ token (List.prefix_nil.mp hpre)

theorem calls_idle {reader : RequestReader} (h : reader.Holds {} []) (n : Nat) :
    reader.calls n = List.replicate n ({} : RequestResult) := by
  induction n generalizing reader with
  | zero => rfl
  | succ n ih =>
    obtain ⟨hresult, hnext⟩ := h.answered fresh_sane rfl answered_idle
    rw [calls, hresult, ih hnext, List.replicate_succ]

theorem calls_wires {reader : RequestReader} (wires : List WireRequest)
    (h : reader.Holds {} (wires.flatMap WireRequest.encode)) (n : Nat) :
    reader.calls (wires.length + n) =
      wires.map (fun wire => delivery wire.request) ++ List.replicate n ({} : RequestResult) := by
  induction wires generalizing reader with
  | nil =>
    rw [List.length_nil, Nat.zero_add]
    exact calls_idle h n
  | cons wire wires ih =>
    rw [List.flatMap_cons] at h
    obtain ⟨hresult, hnext⟩ := h.answered fresh_sane rfl (Or.inl (wire.polls _))
    rw [List.length_cons, Nat.add_right_comm, calls, hresult, ih hnext]
    rfl

/-- Decoding undoes encoding, for any number of requests on one connection. -/
theorem decode_encode (wires : List WireRequest) (n : Nat) :
    (({} : RequestReader).append (wires.flatMap WireRequest.encode)).calls (wires.length + n) =
      wires.map (fun wire => delivery wire.request) ++ List.replicate n ({} : RequestResult) :=
  calls_wires wires (Holds.fresh.append _) n

end RequestReader

end Carafe.Http
