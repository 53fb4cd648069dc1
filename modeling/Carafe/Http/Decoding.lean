import Carafe.Http.WireFormat

/-!
# Decoding

What the reader has made of the front of a request, phase by phase. A reading from
a fresh reader stays inside this description until it answers, and what it then
delivers is a request on the wire, taken apart.
-/

namespace Carafe.Http
open Search TokenStream

/-- A head whose blank line is still to come. -/
structure Head where
  line : RequestLine
  fields : List FieldLine
  target : TargetValid line.target
  lineShort : line.text.length ≤ maxLineLength
  fieldsShort : ShortLines fields
  fieldCount : fields.length ≤ maxFields
  headSize : (line.text ++ crlf ++ fieldLines fields).length ≤ maxHeadBytes

namespace Head

def text (head : Head) : Bytes := head.line.text ++ crlf ++ fieldLines head.fields

def headers (head : Head) : Headers := headersOf head.fields

def request (head : Head) (body : Bytes) : Request where
  method := head.line.method
  target := head.line.target
  version := head.line.version
  headers := head.headers
  body := body

/-- The reader behind the last field line so far. -/
def assembly (head : Head) : Assembly where
  phase := .headers
  request := head.request []
  headBytes := head.text.length
  fieldCount := head.fields.length

/-- The blank line fits in as well, and what it closes may be answered. -/
structure Complete (head : Head) : Prop where
  size : (head.text ++ crlf).length ≤ maxHeadBytes
  hostRule : HostRule head.headers head.line.version

/-- The reader while a body of `n` bytes is awaited. -/
def awaiting (head : Head) (n : Nat) : Assembly where
  phase := .body
  request := head.request []
  headBytes := (head.text ++ crlf).length
  bodyBytes := n
  fieldCount := head.fields.length

/-- The reader between two chunks. -/
def between (head : Head) (body : Bytes) : Assembly where
  phase := .chunkSize
  request := head.request body
  headBytes := (head.text ++ crlf).length
  fieldCount := head.fields.length

def inChunk (head : Head) (body : Bytes) (n : Nat) : Assembly :=
  { head.between body with phase := .chunkData, chunkBytes := n }

/-- The reader behind the last trailer line so far. -/
def trailing (head : Head) (body : Bytes) (trailers : List FieldLine) : Assembly where
  phase := .trailers
  request := head.request body
  headBytes := (head.text ++ crlf ++ fieldLines trailers).length
  fieldCount := (head.fields ++ trailers).length

def CodedAsChunked (head : Head) : Prop :=
  CodingsAllowed head.headers head.line.version ∧ foldedCodings head.headers = [chunkedCoding]

def StatesLength (head : Head) (n : Nat) : Prop :=
  head.headers.contains transferEncoding = false ∧ head.headers.count contentLength = 1 ∧
    (head.headers.get contentLength).bind decimalNumber = some n

end Head

/-- The bytes `p`, read from a fresh reader, are the front of a request. -/
inductive Partly : Bytes → Assembly → Prop where
  | start : Partly [] {}
  | head (head : Head) : Partly head.text head.assembly
  | body {head : Head} (complete : head.Complete) {n : Nat} (states : head.StatesLength n)
      (pos : 0 < n) (fits : n ≤ maxBodyBytes) : Partly (head.text ++ crlf) (head.awaiting n)
  | between {head : Head} (complete : head.Complete) (coded : head.CodedAsChunked)
      (chunks : List Chunk) (fits : (chunksData chunks).length ≤ maxBodyBytes) :
      Partly (head.text ++ crlf ++ chunksText chunks) (head.between (chunksData chunks))
  | inChunk {head : Head} (complete : head.Complete) (coded : head.CodedAsChunked)
      (chunks : List Chunk) (line : SizeLine) (pos : 0 < line.size)
      (fits : (chunksData chunks).length + line.size ≤ maxBodyBytes) :
      Partly (head.text ++ crlf ++ chunksText chunks ++ (line.text ++ crlf))
        (head.inChunk (chunksData chunks) line.size)
  | trailing {head : Head} (complete : head.Complete) (coded : head.CodedAsChunked)
      (chunks : List Chunk) (fits : (chunksData chunks).length ≤ maxBodyBytes) (last : LastChunk)
      (trailers : List FieldLine) (short : ShortLines trailers)
      (count : (head.fields ++ trailers).length ≤ maxFields)
      (size : (head.text ++ crlf ++ fieldLines trailers).length ≤ maxHeadBytes) :
      Partly (head.text ++ crlf ++ chunksText chunks ++ (last.line.text ++ crlf) ++
        fieldLines trailers) (head.trailing (chunksData chunks) trailers)

/-- An answer that hands a request over. -/
def delivery (request : Request) : RequestResult := { request := some request }

/-- The answer to a body that is too large to take but not to drop. -/
def refusal (version : Version) : RequestResult := { error := .bodyTooLarge, version := version }

/-- The three ways in which the bytes `p` of one request are answered: it is complete
and well formed, its body is too large to take but not to drop, or the stream is lost. -/
inductive Verdict (p : Bytes) : Assembly → RequestResult → Prop where
  | delivered (wire : WireRequest) (spelled : wire.encode = p) :
      Verdict p {} (delivery wire.request)
  | refused {head : Head} (complete : head.Complete) {n : Nat} (states : head.StatesLength n)
      (large : maxBodyBytes < n) (bounded : n ≤ maxDrainBytes) (spelled : head.text ++ crlf = p) :
      Verdict p { head.awaiting n with phase := .discard } (refusal head.line.version)
  | failed {a : Assembly} (lost : a.failure ≠ .none) :
      Verdict p a
        { error := a.failure, streamContinues := false, version := a.request.version }

/-- What a token leads to: on with the request, or an answer to it. -/
def Goes (p : Bytes) (answer : Assembly × Option RequestResult) : Prop :=
  match answer.2 with
  | none => Partly p answer.1.settle
  | some result => Verdict p answer.1.settle result

theorem Goes.fail (p : Bytes) (a : Assembly) {error : RequestError} (h : error ≠ .none) :
    Goes p (Assembly.handOver (a.fail error)) := by
  have lost : ({ a with failure := error } : Assembly).settle.failure ≠ .none := h
  exact Verdict.failed lost

theorem Goes.deliver (wire : WireRequest) {a : Assembly} (live : a.failure = .none)
    (h : a.request = wire.request) : Goes wire.encode (Assembly.handOver a.finishRequest) := by
  have hfresh : a.finishRequest.1.settle = {} := by
    simp [Assembly.finishRequest, Assembly.armNextRequest, Assembly.settle, live]
  have hresult : a.finishRequest.2 = delivery wire.request := by rw [← h]; rfl
  change Verdict _ a.finishRequest.1.settle a.finishRequest.2
  rw [hfresh, hresult]
  exact .delivered wire rfl

theorem startLine_goes {text : Bytes} (clear : ¬ crlf <:+: text)
    (short : text.length ≤ maxLineLength) :
    Goes (text ++ crlf) (({} : Assembly).acceptLine text) := by
  rw [Assembly.acceptLine_charged (by decide)]
  have hbytes : (({} : Assembly).charge text).headBytes = text.length + crlfSize := Nat.zero_add _
  rw [if_neg (by rw [hbytes]; simp only [crlfSize, maxHeadBytes, maxLineLength] at *; omega)]
  change Goes _ ((({} : Assembly).charge text).handleRequestLine text)
  unfold Assembly.handleRequestLine
  cases hparse : parseRequestLine text with
  | error err => cases err <;> exact Goes.fail _ _ (by decide)
  | ok value =>
    obtain ⟨rfl, hvalid⟩ := parseRequestLine_iff.mp hparse
    have hsize : (value.text ++ crlf ++ fieldLines []).length ≤ maxHeadBytes := by
      simp only [fieldLines_nil, List.append_nil, List.length_append, crlf, List.length_cons,
        List.length_nil, maxHeadBytes, maxLineLength] at *
      omega
    have hpartly := Partly.head ⟨value, [], hvalid, short, by simp [ShortLines], by simp, hsize⟩
    simpa [Goes, Head.text, Head.assembly, Head.request, Head.headers, Assembly.charge,
      Assembly.settle, crlf, crlfSize] using hpartly

namespace Head
variable (head : Head)

/-- The request on the wire that this head and a body make. -/
def wire (complete : head.Complete) (body : WireBody)
    (short : ShortLines body.trailers) (count : (head.fields ++ body.trailers).length ≤ maxFields)
    (size : (head.text ++ crlf ++ body.tail).length ≤ maxHeadBytes)
    (fits : body.data.length ≤ maxBodyBytes) (framed : body.Framed head.headers head.line.version) :
    WireRequest where
  line := head.line
  fields := head.fields
  body := body
  target := head.target
  lineShort := head.lineShort
  fieldsShort := fun field hfield => by
    rcases List.mem_append.mp hfield with h | h
    · exact head.fieldsShort field h
    · exact short field h
  fieldCount := count
  headSize := by simpa [text] using size
  bodySize := fits
  hostRule := complete.hostRule
  framed := framed

end Head

/-- A request without trailers is complete where its head and its body are. -/
theorem Goes.deliver_plain {head : Head} (complete : head.Complete) (body : WireBody)
    (bare : body.trailers = []) (tail : body.tail = []) (fits : body.data.length ≤ maxBodyBytes)
    (framed : body.Framed head.headers head.line.version) {p : Bytes}
    (hp : p = head.text ++ crlf ++ body.text) {a : Assembly} (live : a.failure = .none)
    (h : a.request = head.request body.data) : Goes p (Assembly.handOver a.finishRequest) := by
  subst hp
  have short : ShortLines body.trailers := by simp [ShortLines, bare]
  have count : (head.fields ++ body.trailers).length ≤ maxFields := by
    rw [bare, List.append_nil]
    exact head.fieldCount
  have size : (head.text ++ crlf ++ body.tail).length ≤ maxHeadBytes := by
    rw [tail, List.append_nil]
    exact complete.size
  exact Goes.deliver (head.wire complete body short count size fits framed) live h

theorem blankLine_goes {head : Head} (size : (head.text ++ crlf).length ≤ maxHeadBytes) :
    Goes (head.text ++ crlf) (head.assembly.charge []).completeHead := by
  have hbytes : head.text.length + crlfSize = (head.text ++ crlf).length := by
    simp [crlf, crlfSize]
  by_cases h : HostRule head.headers head.line.version ∧
      (measureBody head.headers head.line.version).error = .none
  swap
  · obtain ⟨error, herror, hfail⟩ := completeHead_refused (a := head.assembly.charge []) h
    rw [hfail]
    exact Goes.fail _ _ herror
  obtain ⟨rule, sound⟩ := h
  have complete : head.Complete := ⟨size, rule⟩
  generalize hbody : measureBody head.headers head.line.version = body at sound
  rw [completeHead_measured (a := head.assembly.charge []) rule hbody sound]
  by_cases present : head.headers.contains transferEncoding = true
  · obtain ⟨rfl, inside, coded⟩ := measureBody_chunked hbody sound present
    have hpartly := Partly.between complete ⟨codingsAllowed_iff.mpr inside, coded⟩ []
      (by simp [chunksData])
    simpa [Goes, Head.between, Head.assembly, Assembly.charge, Assembly.settle, chunksText,
      chunksData, hbytes] using hpartly
  · have absent : head.headers.contains transferEncoding = false := by simpa using present
    rcases (measureBody_length absent _).mp ⟨hbody, sound⟩ with
      ⟨hzero, rfl⟩ | ⟨hone, n, rfl, hstates, hbound⟩
    · rw [if_neg (by decide), if_neg (by decide), if_pos rfl]
      exact Goes.deliver_plain complete .none rfl rfl (by simp [WireBody.data])
        ⟨absent, hzero⟩ (by simp [WireBody.text]) rfl rfl
    · rw [if_neg (by simp)]
      split
      · rename_i hlarge
        have hverdict := Verdict.refused complete ⟨absent, hone, hstates⟩ hlarge hbound rfl
        simpa [Goes, Assembly.handOver, Assembly.refuse, Assembly.settle, Head.awaiting,
          Head.assembly, Head.request, Assembly.charge, hbytes, refusal] using hverdict
      rename_i hfits
      split
      · rename_i hnil
        obtain rfl : n = 0 := hnil
        exact Goes.deliver_plain complete (.sized []) rfl rfl (by simp [WireBody.data])
          ⟨absent, hone, hstates⟩ (by simp [WireBody.text]) rfl rfl
      · rename_i hpos
        have hpartly := Partly.body complete ⟨absent, hone, hstates⟩ (Nat.pos_of_ne_zero hpos)
          (Nat.le_of_not_lt hfits)
        simpa [Goes, Head.awaiting, Head.assembly, Assembly.charge, Assembly.settle, hbytes]
          using hpartly

namespace Head
variable (head : Head)

/-- The head with one more field line. -/
def add (field : FieldLine) (short : field.text.length ≤ maxLineLength)
    (count : head.fields.length + 1 ≤ maxFields)
    (size : (head.text ++ (field.text ++ crlf)).length ≤ maxHeadBytes) : Head where
  line := head.line
  fields := head.fields ++ [field]
  target := head.target
  lineShort := head.lineShort
  fieldsShort := fun entry hentry => by
    rcases List.mem_append.mp hentry with h | h
    · exact head.fieldsShort entry h
    · rwa [List.mem_singleton.mp h]
  fieldCount := by simpa using count
  headSize := by simpa [text] using size

theorem add_text (field : FieldLine) (short count size) :
    (head.add field short count size).text = head.text ++ (field.text ++ crlf) := by
  simp [add, text]

theorem add_assembly (field : FieldLine) (short count size) :
    (head.add field short count size).assembly =
      { head.assembly with
          request := { head.request [] with headers := head.headers.add field.field }
          headBytes := (head.text ++ (field.text ++ crlf)).length
          fieldCount := head.fields.length + 1 } := by
  simp [add, assembly, request, headers, headersOf_concat, text]

theorem trailing_bytes (body : Bytes) (trailers : List FieldLine) (text : Bytes) :
    ((head.trailing body trailers).charge text).headBytes =
      (head.text ++ crlf ++ (fieldLines trailers ++ (text ++ crlf))).length := by
  simp [Assembly.charge, trailing, crlf, crlfSize]
  omega

theorem trailing_concat (body : Bytes) (trailers : List FieldLine) (line : FieldLine) :
    head.trailing body (trailers ++ [line]) =
      { (head.trailing body trailers).charge line.text with
          fieldCount := (head.fields ++ trailers).length + 1 } := by
  simp [trailing, Assembly.charge, crlf, crlfSize]
  omega

end Head

theorem fieldLine_goes (head : Head) {text : Bytes} (short : text.length ≤ maxLineLength) :
    Goes (head.text ++ (text ++ crlf)) (head.assembly.acceptLine text) := by
  have hbytes : (head.assembly.charge text).headBytes = (head.text ++ (text ++ crlf)).length := by
    simp [Assembly.charge, Head.assembly, crlf, crlfSize]
  rw [Assembly.acceptLine_charged (by simp [Head.assembly])]
  split
  · exact Goes.fail _ _ (by decide)
  rename_i hsize
  rw [hbytes] at hsize
  change Goes _ ((head.assembly.charge text).handleFieldLine text)
  unfold Assembly.handleFieldLine
  by_cases hblank : text = []
  · subst hblank
    exact blankLine_goes (Nat.le_of_not_lt hsize)
  rw [if_neg hblank]
  dsimp only
  split
  · exact Goes.fail _ _ (by decide)
  rename_i hcount
  cases hparse : parseHeaderField text with
  | none => exact Goes.fail _ _ (by decide)
  | some field =>
    obtain ⟨line, rfl, rfl⟩ := parseHeaderField_iff.mp hparse
    have hpartly := Partly.head (head.add line short (Nat.le_of_not_lt hcount)
      (Nat.le_of_not_lt hsize))
    rw [Head.add_text, Head.add_assembly, ← hbytes] at hpartly
    exact hpartly

theorem body_goes {head : Head} (complete : head.Complete) {n : Nat} (states : head.StatesLength n)
    (fits : n ≤ maxBodyBytes) {data : Bytes} (hdata : data.length = n) :
    Goes (head.text ++ crlf ++ data) ((head.awaiting n).consume data) := by
  subst hdata
  exact Goes.deliver_plain complete (.sized data) rfl rfl fits states rfl rfl rfl

theorem sizeLine_goes {head : Head} (complete : head.Complete) (coded : head.CodedAsChunked)
    (chunks : List Chunk) (fits : (chunksData chunks).length ≤ maxBodyBytes) {text : Bytes}
    (clear : ¬ crlf <:+: text) (short : text.length ≤ maxLineLength) :
    Goes (head.text ++ crlf ++ chunksText chunks ++ (text ++ crlf))
      ((head.between (chunksData chunks)).acceptLine text) := by
  rw [Assembly.acceptLine_chunkSize rfl]
  unfold Assembly.handleChunkSize
  dsimp only
  split
  · rename_i herror
    exact Goes.fail _ _ herror
  rename_i hnone
  obtain ⟨n, hn⟩ := parseChunkSize_none (not_not.mp hnone)
  obtain ⟨-, line, rfl, rfl⟩ := SizeLine.of_parse clear short hn
  rw [hn]
  split
  · rename_i hzero
    have hpartly := Partly.trailing complete coded chunks fits ⟨line, hzero⟩ []
      (by simp [ShortLines]) (by simpa using head.fieldCount) (by simpa using complete.size)
    simpa [Goes, Head.trailing, Head.between, Assembly.settle] using hpartly
  rename_i hpos
  split
  · exact Goes.fail _ _ (by decide)
  rename_i hfits
  exact Partly.inChunk complete coded chunks line (Nat.pos_of_ne_zero hpos)
    (Nat.le_of_not_lt hfits)

theorem chunk_goes {head : Head} (complete : head.Complete) (coded : head.CodedAsChunked)
    (chunks : List Chunk) (line : SizeLine) (pos : 0 < line.size)
    (fits : (chunksData chunks).length + line.size ≤ maxBodyBytes) {piece : Bytes}
    (hpiece : piece.length = line.size + crlfSize) :
    Goes (head.text ++ crlf ++ chunksText chunks ++ (line.text ++ crlf) ++ piece)
      ((head.inChunk (chunksData chunks) line.size).consume piece) := by
  change Goes _ ((head.inChunk (chunksData chunks) line.size).acceptChunk piece)
  unfold Assembly.acceptChunk
  split
  · exact Goes.fail _ _ (by decide)
  rename_i hend
  have hcut : piece = piece.take line.size ++ crlf := by
    have hdrop : piece.drop line.size = crlf := not_not.mp hend
    rw [← hdrop, List.take_append_drop]
  have hlen : (piece.take line.size).length = line.size := by
    rw [List.length_take, hpiece]
    omega
  have hne : piece.take line.size ≠ [] := by
    intro hnil
    rw [hnil] at hlen
    simp at hlen
    omega
  have hpartly := Partly.between complete coded
    (chunks ++ [⟨line, piece.take line.size, hne, hlen.symm⟩])
    (by simpa [hlen] using fits)
  rw [chunksText_concat, chunksData_concat, Chunk.text, ← hcut] at hpartly
  simpa [Goes, Head.between, Head.inChunk, Head.request, Assembly.settle] using hpartly

theorem trailerLine_goes {head : Head} (complete : head.Complete) (coded : head.CodedAsChunked)
    (chunks : List Chunk) (fits : (chunksData chunks).length ≤ maxBodyBytes) (last : LastChunk)
    (trailers : List FieldLine) (shorts : ShortLines trailers)
    (count : (head.fields ++ trailers).length ≤ maxFields) {text : Bytes}
    (short : text.length ≤ maxLineLength) :
    Goes (head.text ++ crlf ++ chunksText chunks ++ (last.line.text ++ crlf) ++
      fieldLines trailers ++ (text ++ crlf))
      ((head.trailing (chunksData chunks) trailers).acceptLine text) := by
  rw [Assembly.acceptLine_charged (by simp [Head.trailing])]
  split
  · exact Goes.fail _ _ (by decide)
  rename_i hsize
  rw [Head.trailing_bytes] at hsize
  change Goes _ (((head.trailing (chunksData chunks) trailers).charge text).handleTrailerLine text)
  unfold Assembly.handleTrailerLine
  by_cases hblank : text = []
  · subst hblank
    rw [if_pos rfl]
    have htail : (head.text ++ crlf ++ (fieldLines trailers ++ crlf)).length ≤ maxHeadBytes := by
      simpa using hsize
    have hwire := Goes.deliver (head.wire complete (.chunked chunks last trailers) shorts
      count htail fits coded) (a := (head.trailing (chunksData chunks) trailers).charge []) rfl rfl
    change Goes (head.text ++ crlf ++ (WireBody.chunked chunks last trailers).text) _ at hwire
    simpa [WireBody.text] using hwire
  rw [if_neg hblank]
  dsimp only
  split
  · exact Goes.fail _ _ (by decide)
  rename_i hcount
  have hcount' : (head.fields ++ trailers).length + 1 ≤ maxFields := Nat.le_of_not_lt hcount
  cases hparse : parseHeaderField text with
  | none => exact Goes.fail _ _ (by decide)
  | some field =>
    obtain ⟨line, rfl, rfl⟩ := parseHeaderField_iff.mp hparse
    have hshort : ShortLines (trailers ++ [line]) := by
      intro entry hentry
      rcases List.mem_append.mp hentry with h | h
      · exact shorts entry h
      · rwa [List.mem_singleton.mp h]
    have hpartly := Partly.trailing complete coded chunks fits last (trailers ++ [line]) hshort
      (by simpa [Nat.add_assoc] using hcount') (by simpa using Nat.le_of_not_lt hsize)
    rw [Head.trailing_concat, fieldLines_concat, ← List.append_assoc] at hpartly
    exact hpartly

theorem Partly.failure {p : Bytes} {a : Assembly} (h : Partly p a) : a.failure = .none := by
  cases h <;> rfl

theorem Assembly.Token.line {a : Assembly} {c : Bytes} (token : a.Token c)
    (h : a.phase.isLine = true) : ∃ text, c = text ++ crlf ∧ ¬ crlf <:+: text ∧
      text.length ≤ maxLineLength ∧ a.consume c = a.acceptLine text := by
  obtain ⟨text, rfl, clear, short⟩ := Assembly.Token.isLine h token
  exact ⟨text, rfl, clear, short, Assembly.consume_line h text⟩

/-- One token further the description still holds, or a request is complete. -/
theorem Partly.goes {p c : Bytes} {a : Assembly} (h : Partly p a) (token : a.Token c) :
    Goes (p ++ c) (a.consume c) := by
  cases h with
  | start =>
    obtain ⟨text, rfl, clear, short, heq⟩ := token.line rfl
    rw [heq]
    exact startLine_goes clear short
  | head head =>
    obtain ⟨text, rfl, -, short, heq⟩ := token.line rfl
    rw [heq]
    exact fieldLine_goes head short
  | body complete states _ fits => exact body_goes complete states fits token.2.2
  | between complete coded chunks fits =>
    obtain ⟨text, rfl, clear, short, heq⟩ := token.line rfl
    rw [heq]
    exact sizeLine_goes complete coded chunks fits clear short
  | inChunk complete coded chunks line pos fits =>
    exact chunk_goes complete coded chunks line pos fits token.2
  | trailing complete coded chunks fits last trailers shorts count =>
    obtain ⟨text, rfl, -, short, heq⟩ := token.line rfl
    rw [heq]
    exact trailerLine_goes complete coded chunks fits last trailers shorts count short

theorem Partly.next_silent {p c : Bytes} {s t : Assembly} (h : Partly p s)
    (token : framing.token s c) (next : framing.next s c = (t, none)) : Partly (p ++ c) t := by
  have hgoes := h.goes token
  simp only [framing, Prod.mk.injEq] at next
  obtain ⟨rfl, hout⟩ := next
  rwa [Goes, hout] at hgoes

theorem Partly.next_verdict {p c : Bytes} {s t : Assembly} {result : RequestResult}
    (h : Partly p s) (token : framing.token s c) (next : framing.next s c = (t, some result)) :
    Verdict (p ++ c) t result := by
  have hgoes := h.goes token
  simp only [framing, Prod.mk.injEq] at next
  obtain ⟨rfl, hout⟩ := next
  rwa [Goes, hout] at hgoes

/-- Silent tokens stay inside a request. -/
theorem Partly.reads {p e : Bytes} {a b : Assembly} {out : List RequestResult} (h : Partly p a)
    (reads : framing.Reads a e out b) (silent : out = []) : Partly (p ++ e) b := by
  induction reads generalizing p with
  | done => simpa using h
  | @step s t b c e out ws token next _ ih =>
    obtain ⟨hnone, rfl⟩ := List.append_eq_nil_iff.mp silent
    obtain rfl : out = none := by simpa using hnone
    rw [← List.append_assoc]
    exact ih (h.next_silent token next) rfl

end Carafe.Http
