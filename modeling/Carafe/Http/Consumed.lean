import Carafe.Http.Extents
import Carafe.Http.Delivery

/-!
# What one request takes from the stream

The bytes behind the requests answered before are those of the request that is
delivered. They are framing lines and body bytes; the lines are all checked but for
one part of one of them, and nothing charges the chunk-size lines to a budget.
-/

namespace Carafe.Http
open Search TokenStream

/-- The next call takes these bytes for the request it delivers: they stand behind the
requests answered so far and in front of what is left. -/
def Consumed (stream : Bytes) (results : List RequestResult) (reader : RequestReader)
    (taken : Bytes) : Prop :=
  ∃ done, stream = done ++ taken ++ reader.nextRequest.1.unread ∧ Extents done (answersOf results)

theorem Extents.same_bytes {done done' more more' : Bytes} {results : List RequestResult}
    (h : Extents done results) (h' : Extents done' results)
    (same : done ++ more = done' ++ more') : done = done' := by
  have hfirst : done <+: done ++ more := List.prefix_append _ _
  have hsecond : done' <+: done ++ more := by
    rw [same]
    exact List.prefix_append _ _
  rcases h.reads.compare h'.reads hfirst hsecond with
    ⟨g, ys, rfl, hys, after⟩ | ⟨g, ys, rfl, hys, after⟩
  all_goals
    obtain rfl : ys = [] := by simpa using hys
    obtain rfl : g = [] := (Partly.start.reads after rfl).fresh rfl
    simp

/-- Exactly one piece of the stream is taken for a request, and it spells that request. -/
theorem Ran.consumed {stream : Bytes} {results : List RequestResult} {reader : RequestReader}
    (h : Ran stream results reader) {request : Request}
    (delivered : reader.nextRequest.2.request = some request) :
    ∃ wire : WireRequest, wire.request = request ∧
      ∀ taken, Consumed stream results reader taken ↔ taken = wire.encode := by
  obtain ⟨bytes, hcut, whole⟩ := h.delivered (by simp [delivered])
  obtain ⟨done, extent, rfl, before, hextent⟩ := whole.last
  have hwire : ∃ wire : WireRequest, extent = wire.encode ∧ wire.request = request := by
    generalize reader.nextRequest.2 = result at hextent delivered
    cases hextent with
    | delivered wire => exact ⟨wire, rfl, Option.some.inj delivered⟩
    | refused => cases delivered
  obtain ⟨wire, rfl, hrequest⟩ := hwire
  refine ⟨wire, hrequest, fun taken => ⟨?_, ?_⟩⟩
  · rintro ⟨done', hcut', before'⟩
    rw [hcut, List.append_cancel_right_eq] at hcut'
    obtain rfl := before.same_bytes before' hcut'
    exact (List.append_cancel_left_eq _ _ _ ▸ hcut').symm
  · rintro rfl
    exact ⟨done, hcut, before⟩

theorem WireRequest.taken_alone (wire : WireRequest) :
    Ran wire.encode [] (({} : RequestReader).append wire.encode) ∧
    (({} : RequestReader).append wire.encode).nextRequest.2.request = some wire.request ∧
    Consumed wire.encode [] (({} : RequestReader).append wire.encode) wire.encode := by
  have hran : Ran wire.encode [] (({} : RequestReader).append wire.encode) :=
    Ran.fresh.append wire.encode
  have hpoll := wire.polls []
  rw [List.append_nil] at hpoll
  obtain ⟨hresult, -, hrest⟩ := (RequestReader.Holds.fresh.append wire.encode).answered
    RequestReader.fresh_sane rfl (Or.inl hpoll)
  refine ⟨hran, by rw [hresult]; rfl, [], ?_, .nil⟩
  rw [hrest]
  simp

theorem blank_ows : ∀ ch ∈ bytes " ", isOws ch = true := by decide +kernel

theorem nil_ows : ∀ ch ∈ ([] : Bytes), isOws ch = true := by simp

/-- `Transfer-Encoding: chunked`. -/
def codedLine : FieldLine where
  name := bytes "Transfer-Encoding"
  before := bytes " "
  value := bytes "chunked"
  after := []
  nameNonempty := by decide
  nameToken := by decide
  beforeOws := blank_ows
  afterOws := nil_ows
  valueChars := by decide
  valueFirst := by decide +kernel
  valueLast := by decide +kernel

def chunkedFields : List FieldLine := [RequestReader.hostLine, codedLine]

/-- A POST to `/` with a chunked body. -/
def chunkedPost (chunks : List Chunk) (fits : (chunksData chunks).length ≤ maxBodyBytes) :
    WireRequest where
  line := ⟨.post, bytes "/", .http11⟩
  fields := chunkedFields
  body := .chunked chunks
    ⟨⟨bytes "0", [], 0, by decide, by decide +kernel, by simp [crlf],
      by decide⟩, rfl⟩ []
  target := ⟨by decide, by decide, by decide, by decide⟩
  lineShort := by decide
  fieldsShort := by
    simp only [WireBody.trailers, List.append_nil]
    decide
  fieldCount := by
    simp only [WireBody.trailers, List.append_nil]
    decide
  headSize := by
    change (_ ++ (fieldLines [] ++ crlf)).length ≤ maxHeadBytes
    decide
  bodySize := fits
  hostRule := by decide
  framed := by
    change CodingsAllowed _ _ ∧ foldedCodings _ = [chunkedCoding]
    decide

theorem chunkedPost_coded (chunks : List Chunk) (fits : (chunksData chunks).length ≤ maxBodyBytes) :
    (chunkedPost chunks fits).request.headers.contains transferEncoding = true := by
  change (headersOf chunkedFields).contains transferEncoding = true
  decide

/-- A chunk of one byte. -/
def byteChunk (extension : Bytes) (start : ∀ ch ∈ extension.head?, ch = semicolon)
    (clear : ¬ crlf <:+: extension) (short : extension.length + 1 ≤ maxLineLength) : Chunk where
  line := ⟨bytes "1", extension, 1, by decide, start, clear, by
    have hone : (bytes "1").length = 1 := by decide
    rw [List.length_append, hone]
    omega⟩
  data := bytes "x"
  nonempty := by decide
  size := rfl

/-- The lines of the framing, without their terminators. A trailer is a field line. -/
inductive FramingLine where
  | request (line : RequestLine)
  | field (line : FieldLine)
  | size (line : SizeLine)

namespace FramingLine

/-- No control byte, and so no CR and no LF; a tab may stand in the value of a field. -/
def Clean : FramingLine → Prop
  | request line => containsCtl line.text = false
  | field line => ∃ name value, line.text = name ++ colon :: value ∧ colon ∉ name ∧
      containsCtl name = false ∧ ∀ ch ∈ value, isCtl ch = true → ch = '\t'.toUInt8
  | size line => containsCtl line.text = false

end FramingLine

theorem isTchar_not_ctl {ch : UInt8} (h : isTchar ch = true) : isCtl ch = false := by
  have hall : ∀ ch : UInt8, isTchar ch = true → isCtl ch = false := by
    refine forall_byte ?_
    decide +kernel
  exact hall ch h

theorem isValidValueChar_ctl {ch : UInt8} (h : isValidValueChar ch = true)
    (ctl : isCtl ch = true) : ch = '\t'.toUInt8 := by
  have hall : ∀ ch : UInt8, isValidValueChar ch = true → isCtl ch = true → ch = '\t'.toUInt8 := by
    refine forall_byte ?_
    decide +kernel
  exact hall ch h ctl

theorem hexDigit_not_ctl {ch : UInt8} (h : (asciiHexValue ch).isSome) : isCtl ch = false := by
  have hall : ∀ ch : UInt8, (asciiHexValue ch).isSome → isCtl ch = false := by
    refine forall_byte ?_
    decide +kernel
  exact hall ch h

theorem containsCtl_eq_false {text : Bytes} (h : ∀ ch ∈ text, isCtl ch = false) :
    containsCtl text = false := by
  rw [containsCtl, List.any_eq_false]
  intro ch hch
  rw [h ch hch]
  exact Bool.false_ne_true

theorem FieldLine.clean (line : FieldLine) : (FramingLine.field line).Clean := by
  refine ⟨line.name, line.before ++ line.value ++ line.after, rfl,
    colon_not_token line.nameToken, ?_, ?_⟩
  · apply containsCtl_eq_false
    intro ch hch
    exact isTchar_not_ctl (List.all_eq_true.mp line.nameToken ch hch)
  · intro ch hch ctl
    refine isValidValueChar_ctl ?_ ctl
    rcases List.mem_append.mp hch with hch | hafter
    · rcases List.mem_append.mp hch with hbefore | hvalue
      · exact isOws_valid (line.beforeOws ch hbefore)
      · exact List.all_eq_true.mp line.valueChars ch hvalue
    · exact isOws_valid (line.afterOws ch hafter)

/-- The digits of a size line are checked; what stands behind them is not. -/
theorem SizeLine.clean_iff (line : SizeLine) :
    (FramingLine.size line).Clean ↔ containsCtl line.extension = false := by
  have hdigits : containsCtl line.digits = false :=
    containsCtl_eq_false fun ch hch => hexDigit_not_ctl (line.digits_hex ch hch)
  rw [FramingLine.Clean, text, containsCtl_append, hdigits, Bool.false_or]

def WireBody.sizeLines : WireBody → List SizeLine
  | none | sized _ => []
  | chunked chunks last _ => chunks.map Chunk.line ++ [last.line]

namespace WireRequest

/-- Every line of a request but the blank ones, trailers included. -/
def framingLines (wire : WireRequest) : List FramingLine :=
  .request wire.line :: ((wire.fields ++ wire.body.trailers).map FramingLine.field ++
    wire.body.sizeLines.map FramingLine.size)

def LinesClean (wire : WireRequest) : Prop := ∀ line ∈ wire.framingLines, line.Clean

def ExtensionsClean (wire : WireRequest) : Prop :=
  ∀ line ∈ wire.body.sizeLines, containsCtl line.extension = false

instance (wire : WireRequest) : Decidable wire.ExtensionsClean :=
  inferInstanceAs (Decidable (∀ line ∈ wire.body.sizeLines, containsCtl line.extension = false))

theorem linesClean_iff (wire : WireRequest) : wire.LinesClean ↔ wire.ExtensionsClean := by
  constructor
  · intro h line hline
    apply line.clean_iff.mp
    apply h
    simp [framingLines, hline]
  · intro h line hline
    simp only [framingLines, List.mem_cons, List.mem_append, List.mem_map] at hline
    rcases hline with rfl | ⟨field, -, rfl⟩ | ⟨size, hsize, rfl⟩
    · exact RequestLine.clean wire.target
    · exact field.clean
    · exact size.clean_iff.mpr (h size hsize)

end WireRequest

/-- The lines of a delivered request hide no line ending, unless a chunk extension does. -/
theorem Ran.clean_lines {stream : Bytes} {results : List RequestResult} {reader : RequestReader}
    (h : Ran stream results reader) {request : Request}
    (delivered : reader.nextRequest.2.request = some request) {taken : Bytes}
    (consumed : Consumed stream results reader taken) :
    (∃ wire : WireRequest, wire.encode = taken ∧ wire.request = request) ∧
    ∀ wire : WireRequest, wire.encode = taken → (wire.LinesClean ↔ wire.ExtensionsClean) := by
  obtain ⟨wire, hrequest, htaken⟩ := h.consumed delivered
  exact ⟨⟨wire, ((htaken taken).mp consumed).symm, hrequest⟩,
    fun wire' _ => wire'.linesClean_iff⟩

/-- The POST whose one chunk-size line has an extension. -/
def extendedPost (extension : Bytes) (start : ∀ ch ∈ extension.head?, ch = semicolon)
    (clear : ¬ crlf <:+: extension) (short : extension.length + 1 ≤ maxLineLength) : WireRequest :=
  chunkedPost [byteChunk extension start clear short]
    (by simp [chunksData, byteChunk, bytes, maxBodyBytes])

theorem Ran.clean_lines_named :
    (extendedPost (bytes ";n=v") (by decide +kernel) (by decide) (by decide)).LinesClean := by
  obtain ⟨hran, hdelivered, hconsumed⟩ :=
    (extendedPost (bytes ";n=v") (by decide +kernel) (by decide) (by decide)).taken_alone
  exact ((hran.clean_lines hdelivered hconsumed).2 _ rfl).mpr (by decide)

/-- A bare LF in a chunk extension is read past. -/
theorem Ran.line_hidden : ¬ ∀ (stream : Bytes) (results : List RequestResult)
    (reader : RequestReader) (request : Request) (taken : Bytes) (wire : WireRequest),
    Ran stream results reader → reader.nextRequest.2.request = some request →
    Consumed stream results reader taken → wire.encode = taken → wire.LinesClean := by
  intro claim
  obtain ⟨hran, hdelivered, hconsumed⟩ :=
    (extendedPost (bytes ";\nx") (by decide +kernel) (by decide) (by decide)).taken_alone
  have hclean := claim _ _ _ _ _ _ hran hdelivered hconsumed rfl
  rw [WireRequest.linesClean_iff] at hclean
  exact absurd hclean (by decide)

/-- A chunk of `n` bytes whose size line has at most `5 * n - 4` bytes takes at most six
bytes of the stream for each of its own. -/
def allowance : List Chunk → Nat
  | [] => 0
  | chunk :: chunks => 5 * chunk.data.length - 4 + allowance chunks

/-- The bytes of the size lines, digits and extensions. -/
def sizeLineBytes : List Chunk → Nat
  | [] => 0
  | chunk :: chunks => chunk.line.text.length + sizeLineBytes chunks

theorem Chunk.data_pos (chunk : Chunk) : 0 < chunk.data.length :=
  List.length_pos_of_ne_nil chunk.nonempty

theorem chunksText_length (chunks : List Chunk) :
    (chunksText chunks).length + allowance chunks =
      sizeLineBytes chunks + 6 * (chunksData chunks).length := by
  induction chunks with
  | nil => rfl
  | cons chunk chunks ih =>
    have hpos := chunk.data_pos
    have htext : (chunksText (chunk :: chunks)).length =
        chunk.text.length + (chunksText chunks).length := by simp [chunksText]
    have hdata : (chunksData (chunk :: chunks)).length =
        chunk.data.length + (chunksData chunks).length := by simp [chunksData]
    have hchunk : chunk.text.length = chunk.line.text.length + chunk.data.length + 4 := by
      simp only [Chunk.text, List.length_append, crlf, List.length_cons, List.length_nil]
      omega
    simp only [htext, hdata, hchunk, allowance, sizeLineBytes]
    omega

namespace WireRequest

/-- The bytes of the head and of the trailers, which have a budget of their own. -/
def headBytes (wire : WireRequest) : Nat :=
  (wire.line.text ++ crlf ++ fieldLines wire.fields ++ crlf ++ wire.body.tail).length

theorem encode_length {wire : WireRequest} {chunks : List Chunk} {last : LastChunk}
    {trailers : List FieldLine} (body : wire.body = .chunked chunks last trailers) :
    wire.encode.length =
      wire.headBytes + (last.line.text.length + crlfSize) + (chunksText chunks).length := by
  simp only [encode, headBytes, body, WireBody.text, WireBody.tail, List.length_append, crlf,
    crlfSize, List.length_cons, List.length_nil]
  omega

end WireRequest

/-- The bytes of a request say which request they are. -/
theorem WireRequest.request_eq {wire wire' : WireRequest} (h : wire.encode = wire'.encode) :
    wire.request = wire'.request := by
  have hfirst := wire.alone
  rw [h, wire'.alone] at hfirst
  exact (Option.some.inj (congrArg RequestResult.request hfirst)).symm

theorem WireRequest.chunked_body {wire : WireRequest}
    (h : wire.request.headers.contains transferEncoding = true) :
    ∃ chunks last trailers, wire.body = .chunked chunks last trailers := by
  have hframed := wire.framed
  change (headersOf wire.fields).contains transferEncoding = true at h
  cases hbody : wire.body with
  | chunked chunks last trailers => exact ⟨chunks, last, trailers, rfl⟩
  | none =>
    rw [hbody] at hframed
    rw [hframed.1] at h
    cases h
  | sized data =>
    rw [hbody] at hframed
    rw [hframed.1] at h
    cases h

/-- What a chunked request takes is bounded by its body as long as its size lines stay
inside their allowance, or overdraw it by no more than the head, the trailers and the last
size line leave of their caps. -/
theorem Ran.overhead_bounded {stream : Bytes} {results : List RequestResult}
    {reader : RequestReader} (h : Ran stream results reader) {request : Request}
    (delivered : reader.nextRequest.2.request = some request)
    (coded : request.headers.contains transferEncoding = true) {taken : Bytes}
    (consumed : Consumed stream results reader taken) :
    (∃ (wire : WireRequest) (chunks : List Chunk) (last : LastChunk) (trailers : List FieldLine),
      wire.encode = taken ∧ wire.body = .chunked chunks last trailers) ∧
    ∀ (wire : WireRequest) (chunks : List Chunk) (last : LastChunk) (trailers : List FieldLine),
      wire.encode = taken → wire.body = .chunked chunks last trailers →
      (taken.length ≤ 65536 + 8194 + 6 * request.body.length ↔
        sizeLineBytes chunks ≤ allowance chunks + (maxHeadBytes - wire.headBytes) +
          (maxLineLength - last.line.text.length)) := by
  obtain ⟨wire, rfl, htaken⟩ := h.consumed delivered
  obtain rfl := (htaken taken).mp consumed
  constructor
  · obtain ⟨chunks, last, trailers, body⟩ := wire.chunked_body coded
    exact ⟨wire, chunks, last, trailers, rfl, body⟩
  · intro wire' chunks last trailers spelled body
    have hdata : wire.request.body = chunksData chunks := by
      rw [← WireRequest.request_eq spelled, WireRequest.request, body]
      rfl
    have hlength := wire'.encode_length body
    have hchunks := chunksText_length chunks
    have hhead : wire'.headBytes ≤ maxHeadBytes := wire'.headSize
    have hlast : last.line.text.length ≤ maxLineLength := last.line.short
    rw [hdata, ← spelled, hlength]
    simp only [maxHeadBytes, maxLineLength, crlfSize] at *
    omega

theorem Ran.overhead_bounded_byte :
    (extendedPost [] (by simp) (by decide) (by decide)).encode.length ≤
      65536 + 8194 + 6 * (extendedPost [] (by simp) (by decide) (by decide)).request.body.length := by
  obtain ⟨hran, hdelivered, hconsumed⟩ :=
    (extendedPost [] (by simp) (by decide) (by decide)).taken_alone
  exact ((hran.overhead_bounded hdelivered (chunkedPost_coded _ _) hconsumed).2 _ _ _ _ rfl rfl).mpr
    (by decide)

/-- A chunk of one byte behind an extension of `n + 1`. -/
def paddedChunk (n : Nat) (short : n + 2 ≤ maxLineLength) : Chunk :=
  byteChunk (semicolon :: List.replicate n 'a'.toUInt8) (by simp)
    (crlf_not_infix_plain fun h => by
      rw [List.mem_cons, List.mem_replicate] at h
      rcases h with h | ⟨-, h⟩ <;> exact absurd h (by decide))
    (by rw [List.length_cons, List.length_replicate]; exact short)

theorem paddedChunk_length (n : Nat) (short : n + 2 ≤ maxLineLength) :
    (paddedChunk n short).text.length = n + 7 := by
  simp only [paddedChunk, byteChunk, Chunk.text, SizeLine.text, crlf, bytes, List.length_append,
    List.length_cons, List.length_replicate, List.length_nil, List.length_map]
  have hx : "x".toList.length = 1 := by decide
  have hone : "1".toList.length = 1 := by decide
  omega

theorem replicate_chunks_length (n : Nat) (chunk : Chunk) :
    (chunksText (List.replicate n chunk)).length = n * chunk.text.length ∧
    (chunksData (List.replicate n chunk)).length = n * chunk.data.length := by
  induction n with
  | zero => simp [chunksText, chunksData]
  | succ n ih =>
    simp only [chunksText, chunksData] at ih
    simp only [chunksText, chunksData, List.replicate_succ, List.flatMap_cons, List.length_append,
      ih.1, ih.2, Nat.succ_mul]
    omega

/-- Ten bytes of body take more than eighty thousand bytes of the stream. -/
theorem Ran.overhead_exceeded : ¬ ∀ (stream : Bytes) (results : List RequestResult)
    (reader : RequestReader) (request : Request) (taken : Bytes), Ran stream results reader →
    reader.nextRequest.2.request = some request →
    request.headers.contains transferEncoding = true → Consumed stream results reader taken →
    taken.length ≤ 65536 + 8194 + 6 * request.body.length := by
  intro claim
  have short : 8190 + 2 ≤ maxLineLength := by decide
  obtain ⟨htext, hdata⟩ := replicate_chunks_length 10 (paddedChunk 8190 short)
  rw [paddedChunk_length] at htext
  generalize hchunks : List.replicate 10 (paddedChunk 8190 short) = chunks at htext hdata
  have hbyte : (paddedChunk 8190 short).data.length = 1 := rfl
  have fits : (chunksData chunks).length ≤ maxBodyBytes := by
    rw [hdata, hbyte]
    decide
  obtain ⟨hran, hdelivered, hconsumed⟩ := (chunkedPost chunks fits).taken_alone
  have hbound := claim _ _ _ _ _ hran hdelivered (chunkedPost_coded chunks fits) hconsumed
  have hsize := (chunkedPost chunks fits).encode_length rfl
  have hbody : (chunkedPost chunks fits).request.body.length = 10 := by
    change (chunksData chunks).length = 10
    rw [hdata, hbyte]
  omega

end Carafe.Http
