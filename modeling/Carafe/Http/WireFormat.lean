import Carafe.Http.BodyFraming

/-!
# Requests as a client spells them

A request on the wire keeps every freedom the format leaves its sender: the case
of field names and hex digits, the whitespace around a value, leading zeros, chunk
extensions, the cutting of a body into chunks, and trailers. The caps and the
framing rules are fields of the structures, so what can be built can be sent.
-/

namespace Carafe.Http
open Search Numeral

theorem crlf_not_infix {front rest : Bytes} (hf : (13 : UInt8) ∉ front)
    (hr : ¬ crlf <:+: rest) : ¬ crlf <:+: front ++ rest := by
  induction front with
  | nil => exact hr
  | cons ch front ih =>
    rw [List.cons_append, List.infix_cons_iff]
    rintro (hpre | hin)
    · obtain ⟨tail, htail⟩ := hpre
      have hch : 13 = ch := (List.cons.inj htail).1
      exact hf (hch ▸ List.mem_cons_self)
    · exact ih (fun h => hf (List.mem_cons_of_mem ch h)) hin

theorem crlf_not_infix_plain {line : Bytes} (h : (13 : UInt8) ∉ line) : ¬ crlf <:+: line := by
  rintro ⟨front, back, rfl⟩
  exact h (by simp [crlf])

theorem RequestLine.text_plain {line : RequestLine} (h : TargetValid line.target) :
    ¬ crlf <:+: line.text := by
  apply crlf_not_infix_plain
  intro hmem
  exact absurd (containsCtl_iff.mp (RequestLine.clean h) 13 hmem) (by decide)

theorem FieldLine.text_plain (line : FieldLine) : ¬ crlf <:+: line.text := by
  have hcr : ∀ {text : Bytes} {p : UInt8 → Bool}, (∀ ch ∈ text, p ch = true) → p 13 = false →
      (13 : UInt8) ∉ text := by
    intro text p hall hp hmem
    rw [hall 13 hmem] at hp
    cases hp
  have hn := hcr (List.all_eq_true.mp line.nameToken) (by decide)
  have hb := hcr line.beforeOws (by decide)
  have hv := hcr (List.all_eq_true.mp line.valueChars) (by decide)
  have ha := hcr line.afterOws (by decide)
  have hcolon : (13 : UInt8) ≠ colon := by decide
  apply crlf_not_infix_plain
  simp [FieldLine.text, hn, hb, hv, ha, hcolon]

theorem FieldLine.text_ne_nil (line : FieldLine) : line.text ≠ [] := by
  simp [FieldLine.text]

def ShortLines (fields : List FieldLine) : Prop :=
  ∀ field ∈ fields, field.text.length ≤ maxLineLength

instance (fields : List FieldLine) : Decidable (ShortLines fields) :=
  inferInstanceAs (Decidable (∀ field ∈ fields, _))

def fieldLines (fields : List FieldLine) : Bytes :=
  fields.flatMap fun field => field.text ++ crlf

@[simp] theorem fieldLines_nil : fieldLines [] = [] := rfl

@[simp] theorem fieldLines_concat (fields : List FieldLine) (field : FieldLine) :
    fieldLines (fields ++ [field]) = fieldLines fields ++ (field.text ++ crlf) := by
  simp [fieldLines]

/-- The header list that results from the field lines of a head. -/
def headersOf (fields : List FieldLine) : Headers := .ofFields (fields.map FieldLine.field)

@[simp] theorem headersOf_nil : headersOf [] = .empty := rfl

theorem headersOf_fields (fields : List FieldLine) :
    (headersOf fields).fields = fields.map FieldLine.field := by
  simp [headersOf, FieldLine.field]

theorem headersOf_concat (fields : List FieldLine) (field : FieldLine) :
    headersOf (fields ++ [field]) = (headersOf fields).add field.field := by
  simp [headersOf, Headers.ofFields_concat]

/-- A chunk-size line: hex digits, and an extension that cannot end the line early. -/
structure SizeLine where
  digits : Bytes
  extension : Bytes
  size : Nat
  number : hexNumber digits = some size
  extensionStart : ∀ ch ∈ extension.head?, ch = semicolon
  extensionClear : ¬ crlf <:+: extension
  short : (digits ++ extension).length ≤ maxLineLength

namespace SizeLine

def text (line : SizeLine) : Bytes := line.digits ++ line.extension

theorem digits_hex (line : SizeLine) : ∀ ch ∈ line.digits, (asciiHexValue ch).isSome :=
  valueFrom_digits (value_eq_some_iff.mp line.number).2

theorem text_plain (line : SizeLine) : ¬ crlf <:+: line.text := by
  refine crlf_not_infix (fun h => ?_) line.extensionClear
  exact absurd (line.digits_hex 13 h) (by decide)

theorem sizePart_text (line : SizeLine) : sizePart line.text = line.digits := by
  have hfresh : semicolon ∉ line.digits := fun h =>
    absurd (line.digits_hex semicolon h) (by decide)
  unfold sizePart text
  cases hext : line.extension with
  | nil =>
    rw [List.append_nil, find_eq_none_iff.mpr (by simpa using hfresh)]
  | cons ch rest =>
    obtain rfl : ch = semicolon := line.extensionStart ch (by rw [hext]; rfl)
    rw [find_zero, idxOf?_append_cons hfresh]
    simp

theorem parse (line : SizeLine) (h : line.size ≤ maxBodyBytes) :
    parseChunkSize line.text = { bytes := line.size } := by
  rw [parseChunkSize_ok, sizePart_text]
  exact ⟨line.number, h⟩

/-- A line that parses to a size is the spelling of that size. -/
theorem of_parse {text : Bytes} {n : Nat} (clear : ¬ crlf <:+: text)
    (short : text.length ≤ maxLineLength) (h : parseChunkSize text = { bytes := n }) :
    n ≤ maxBodyBytes ∧ ∃ line : SizeLine, line.text = text ∧ line.size = n := by
  obtain ⟨hnumber, hle⟩ := parseChunkSize_ok.mp h
  refine ⟨hle, ?_⟩
  unfold sizePart at hnumber
  cases hf : find semicolon 0 text with
  | none =>
    rw [hf] at hnumber
    exact ⟨⟨text, [], n, hnumber, by simp, by simp [crlf], by simpa using short⟩,
      List.append_nil text, rfl⟩
  | some ext =>
    rw [hf] at hnumber
    obtain ⟨piece, rest, heq, _, rfl⟩ := find_some hf
    rw [List.drop_zero] at heq
    subst heq
    have htake : (piece ++ semicolon :: rest).take (0 + piece.length) = piece := by simp
    change hexNumber ((piece ++ semicolon :: rest).take (0 + piece.length)) = some n at hnumber
    rw [htake] at hnumber
    refine ⟨⟨piece, semicolon :: rest, n, hnumber, by simp, ?_, short⟩, rfl, rfl⟩
    exact fun hin => clear (hin.trans (List.suffix_append piece _).isInfix)

end SizeLine

structure Chunk where
  line : SizeLine
  data : Bytes
  nonempty : data ≠ []
  size : line.size = data.length

def Chunk.text (chunk : Chunk) : Bytes :=
  (chunk.line.text ++ crlf) ++ (chunk.data ++ crlf)

/-- The chunk of size zero, which ends a chunked body. -/
structure LastChunk where
  line : SizeLine
  zero : line.size = 0

def chunksText (chunks : List Chunk) : Bytes := chunks.flatMap Chunk.text

def chunksData (chunks : List Chunk) : Bytes := chunks.flatMap Chunk.data

@[simp] theorem chunksText_concat (chunks : List Chunk) (chunk : Chunk) :
    chunksText (chunks ++ [chunk]) = chunksText chunks ++ chunk.text := by
  simp [chunksText]

@[simp] theorem chunksData_concat (chunks : List Chunk) (chunk : Chunk) :
    chunksData (chunks ++ [chunk]) = chunksData chunks ++ chunk.data := by
  simp [chunksData]

inductive WireBody where
  | none
  | sized (data : Bytes)
  | chunked (chunks : List Chunk) (last : LastChunk) (trailers : List FieldLine)

namespace WireBody

def data : WireBody → Bytes
  | none => []
  | sized data => data
  | chunked chunks _ _ => chunksData chunks

def trailers : WireBody → List FieldLine
  | none | sized _ => []
  | chunked _ _ trailers => trailers

/-- The trailer lines and the blank line behind them. -/
def tail : WireBody → Bytes
  | none | sized _ => []
  | chunked _ _ trailers => fieldLines trailers ++ crlf

def text : WireBody → Bytes
  | none => []
  | sized data => data
  | chunked chunks last trailers =>
    chunksText chunks ++ (last.line.text ++ crlf) ++ (fieldLines trailers ++ crlf)

/-- What the head has to say about a body for the two to belong together. -/
def Framed (headers : Headers) (version : Version) : WireBody → Prop
  | none => headers.contains transferEncoding = false ∧ headers.count contentLength = 0
  | sized data => headers.contains transferEncoding = false ∧ headers.count contentLength = 1 ∧
      (headers.get contentLength).bind decimalNumber = some data.length
  | chunked .. => CodingsAllowed headers version ∧
      foldedCodings headers = [chunkedCoding]

end WireBody

structure WireRequest where
  line : RequestLine
  fields : List FieldLine
  body : WireBody
  target : TargetValid line.target
  lineShort : line.text.length ≤ maxLineLength
  fieldsShort : ShortLines (fields ++ body.trailers)
  fieldCount : (fields ++ body.trailers).length ≤ maxFields
  headSize : (line.text ++ crlf ++ fieldLines fields ++ crlf ++ body.tail).length ≤ maxHeadBytes
  bodySize : body.data.length ≤ maxBodyBytes
  hostRule : HostRule (headersOf fields) line.version
  framed : body.Framed (headersOf fields) line.version

namespace WireRequest

def encode (wire : WireRequest) : Bytes :=
  wire.line.text ++ crlf ++ fieldLines wire.fields ++ crlf ++ wire.body.text

/-- What the handler sees of it. -/
def request (wire : WireRequest) : Request where
  method := wire.line.method
  target := wire.line.target
  version := wire.line.version
  headers := headersOf wire.fields
  body := wire.body.data

end WireRequest

end Carafe.Http
