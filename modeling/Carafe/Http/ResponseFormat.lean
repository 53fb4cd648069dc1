import Carafe.Http.WireFormat

/-!
# Responses as a client reads them

A client takes a response off the stream by its head: the status line, field lines
up to the first blank one, and as many bytes of body as content-length says, unless
it knows that there is no body. What `serialize` writes is read back this way, one
response behind the other.
-/

namespace Carafe.Http
open Search Numeral

theorem decimal_eq (n : Nat) : decimal n =
    if n < 10 then [(Nat.digitChar n).toUInt8]
    else decimal (n / 10) ++ [(Nat.digitChar (n % 10)).toUInt8] := by
  rw [decimal, Nat.toDigits_eq_if (by decide)]
  split <;> simp [decimal]

theorem asciiDigitValue_digitChar {d : Nat} (h : d < 10) :
    asciiDigitValue (Nat.digitChar d).toUInt8 = some d := by
  have hall : ∀ d : Fin 10, asciiDigitValue (Nat.digitChar d).toUInt8 = some d.val := by
    decide
  exact hall ⟨d, h⟩

theorem valueFrom_decimal (n : Nat) : valueFrom 10 asciiDigitValue 0 (decimal n) = some n := by
  induction n using Nat.strongRecOn with
  | ind n ih =>
    rw [decimal_eq]
    split
    · rename_i hlt
      simp [valueFrom, asciiDigitValue_digitChar hlt]
    · rename_i hge
      rw [valueFrom_append, ih (n / 10) (by omega)]
      simp only [Option.bind_some, valueFrom, asciiDigitValue_digitChar (Nat.mod_lt n (by decide))]
      congr 1
      omega

theorem decimal_ne_nil (n : Nat) : decimal n ≠ [] := by
  rw [decimal_eq]
  split <;> simp

theorem decimalNumber_decimal (n : Nat) : decimalNumber (decimal n) = some n :=
  value_eq_some_iff.mpr ⟨decimal_ne_nil n, valueFrom_decimal n⟩

theorem decimal_digits (n : Nat) : ∀ ch ∈ decimal n, (asciiDigitValue ch).isSome :=
  valueFrom_digits (valueFrom_decimal n)

/-- A digit is no separator of any kind. -/
theorem digit_plain {ch : UInt8} (h : (asciiDigitValue ch).isSome = true) :
    ch ≠ 13 ∧ ch ≠ sp ∧ ch ≠ '-'.toUInt8 ∧ isOws ch = false ∧ isValidValueChar ch = true := by
  have hall : ∀ ch : UInt8, (asciiDigitValue ch).isSome = true →
      ch ≠ 13 ∧ ch ≠ sp ∧ ch ≠ '-'.toUInt8 ∧ isOws ch = false ∧ isValidValueChar ch = true := by
    refine forall_byte ?_
    decide +kernel
  exact hall ch h

/-- The first line, without its terminator, and what follows it. -/
def cutLine (stream : Bytes) : Option (Bytes × Bytes) :=
  (findPattern crlf 0 stream).map fun n => (stream.take n, stream.drop (n + crlf.length))

theorem cutLine_shorter {stream line rest : Bytes} (h : cutLine stream = some (line, rest)) :
    rest.length < stream.length := by
  obtain ⟨n, hn, heq⟩ := Option.map_eq_some_iff.mp h
  obtain ⟨line', rest', rfl, rfl, -⟩ := findPattern_split hn
  have hrest := (Prod.mk.inj heq).2
  rw [← hrest]
  simp [crlf]
  omega

/-- Field lines up to the blank line. -/
def readFields (stream : Bytes) : Option (List HeaderField × Bytes) :=
  match h : cutLine stream with
  | none => none
  | some ([], rest) => some ([], rest)
  | some (line, rest) =>
    have := cutLine_shorter h
    (parseHeaderField line).bind fun field =>
      (readFields rest).map fun read => (field :: read.1, read.2)
termination_by stream.length

def readInt : Bytes → Option Int
  | [] => none
  | ch :: digits =>
    if ch = '-'.toUInt8 then (decimalNumber digits).map fun n : Nat => -(n : Int)
    else (decimalNumber (ch :: digits)).map fun n : Nat => (n : Int)

def readStatus (line : Bytes) : Option Int :=
  if line.take 9 = bytes "HTTP/1.1 " then readInt ((line.drop 9).takeWhile (· ≠ sp)) else none

/-- A response as it arrives. -/
structure Received where
  status : Int
  fields : List HeaderField
  body : Bytes
  deriving DecidableEq

/-- Only one content-length can be relied on. -/
def statedLength (fields : List HeaderField) : Option Nat :=
  match fields.filter (fun field => field.name = contentLength) with
  | [field] => decimalNumber field.value
  | _ => none

def readResponse (withBody : Bool) (stream : Bytes) : Option (Received × Bytes) :=
  (cutLine stream).bind fun (line, rest) =>
  (readStatus line).bind fun status =>
  (readFields rest).bind fun (fields, rest) =>
  (statedLength fields).bind fun length =>
    if withBody = false then some (⟨status, fields, []⟩, rest)
    else if length ≤ rest.length then
      some (⟨status, fields, rest.take length⟩, rest.drop length)
    else none

/-- All the responses of a stream, with what the client knows about their bodies. -/
def readResponses : List Bool → Bytes → Option (List Received)
  | [], stream => if stream = [] then some [] else none
  | withBody :: bodies, stream =>
    (readResponse withBody stream).bind fun (received, rest) =>
      (readResponses bodies rest).map (received :: ·)

theorem cutLine_line {line : Bytes} (clear : ¬ crlf <:+: line) (rest : Bytes) :
    cutLine (line ++ crlf ++ rest) = some (line, rest) := by
  have hfind := findPattern_line (by decide : (13 : UInt8) ≠ 10) clear rest
  change findPattern crlf 0 (line ++ crlf ++ rest) = _ at hfind
  rw [cutLine, hfind]
  simp [crlf]

theorem readInt_decimalInt (n : Int) : readInt (decimalInt n) = some n := by
  unfold decimalInt
  split
  · rename_i hneg
    rw [readInt, if_pos rfl, decimalNumber_decimal, Option.map_some]
    congr 1
    omega
  · rename_i hpos
    have hread := decimalNumber_decimal n.natAbs
    cases hdigits : decimal n.natAbs with
    | nil => exact False.elim (decimal_ne_nil _ hdigits)
    | cons ch digits =>
      have hch := digit_plain (decimal_digits n.natAbs ch (by simp [hdigits]))
      rw [readInt, if_neg hch.2.2.1, ← hdigits, hread, Option.map_some]
      congr 1
      omega

theorem decimalInt_plain (n : Int) : ∀ ch ∈ decimalInt n, ch ≠ 13 ∧ ch ≠ sp := by
  have hdigits : ∀ ch ∈ decimal n.natAbs, ch ≠ 13 ∧ ch ≠ sp := by
    intro ch hch
    have hplain := digit_plain (decimal_digits _ ch hch)
    exact ⟨hplain.1, hplain.2.1⟩
  unfold decimalInt
  split
  · intro ch hch
    rcases List.mem_cons.mp hch with rfl | hch
    · decide
    · exact hdigits ch hch
  · exact hdigits

theorem statusMessage_plain (status : Int) : (13 : UInt8) ∉ statusMessage status := by
  have hite : ∀ {c : Prop} [Decidable c] {first second : Bytes}, (13 : UInt8) ∉ first →
      (13 : UInt8) ∉ second → (13 : UInt8) ∉ if c then first else second := by
    intro c _ first second hfirst hsecond
    split
    · exact hfirst
    · exact hsecond
  unfold statusMessage
  iterate 13 refine hite (by decide) ?_
  exact List.not_mem_nil

namespace Response

/-- The status line without its terminator. -/
def statusText (response : Response) : Bytes :=
  bytes "HTTP/1.1 " ++ decimalInt response.status ++ bytes " " ++ statusMessage response.status

/-- The fields that are written: the caller's but for a content-length, and the computed one. -/
def callerFields (response : Response) : List HeaderField :=
  response.headers.fields.filter (fun field => field.name ≠ contentLength)

def sentFields (response : Response) : List HeaderField :=
  response.callerFields ++ [⟨contentLength, decimal response.body.length⟩]

theorem serializeHead_eq (response : Response) : response.serializeHead =
    response.statusText ++ crlf ++ ((response.sentFields.map HeaderField.line).flatten ++ crlf) := by
  simp [serializeHead, statusLine, statusText, sentFields, callerFields, HeaderField.line,
    contentLength, bytes]

theorem readStatus_statusText (response : Response) :
    readStatus response.statusText = some response.status := by
  have htake : response.statusText.take 9 = bytes "HTTP/1.1 " := by
    simp [statusText, bytes]
  have hdrop : response.statusText.drop 9 =
      decimalInt response.status ++ sp :: statusMessage response.status := by
    simp [statusText, bytes, sp]
  have hspan : (decimalInt response.status ++ sp :: statusMessage response.status).takeWhile
      (· ≠ sp) = decimalInt response.status := by
    rw [List.takeWhile_append_of_pos (by
      intro ch hch
      simpa using (decimalInt_plain _ ch hch).2)]
    simp
  rw [readStatus, if_pos htake, hdrop, hspan, readInt_decimalInt]

theorem statusText_clear (response : Response) : ¬ crlf <:+: response.statusText := by
  apply crlf_not_infix_plain
  intro hmem
  simp only [statusText, List.mem_append] at hmem
  rcases hmem with ((h | h) | h) | h
  · exact absurd h (by decide)
  · exact (decimalInt_plain _ _ h).1 rfl
  · exact absurd h (by decide)
  · exact statusMessage_plain _ h

end Response

namespace HeaderField

/-- A field that is read as it was written. -/
def Spelled (field : HeaderField) : Prop :=
  parseHeaderField (field.name ++ bytes ": " ++ field.value) = some field

instance (field : HeaderField) : Decidable field.Spelled :=
  inferInstanceAs (Decidable (_ = _))

theorem spelled_of_parse {text : Bytes} {field : HeaderField}
    (h : parseHeaderField text = some field) : field.Spelled := by
  obtain ⟨line, -, rfl⟩ := parseHeaderField_sound h
  have hparse := parseHeaderField_text ⟨line.name.map asciiLower, [sp], line.value, [],
    by simpa using line.nameNonempty, line.field_name, by decide +kernel, by simp, line.valueChars,
    line.valueFirst, line.valueLast⟩
  simp only [FieldLine.text, FieldLine.field, map_asciiLower_idem, List.append_nil] at hparse
  have hseparator : bytes ": " = [colon, sp] := rfl
  rw [Spelled, hseparator]
  simpa [FieldLine.field] using hparse

theorem Spelled.clear {field : HeaderField} (h : field.Spelled) :
    ¬ crlf <:+: field.name ++ bytes ": " ++ field.value := by
  obtain ⟨line, htext, -⟩ := parseHeaderField_sound h
  rw [← htext]
  exact line.text_plain

theorem spelled_length (n : Nat) : Spelled ⟨contentLength, decimal n⟩ := by
  have hplain : ∀ ch ∈ decimal n, isOws ch = false ∧ isValidValueChar ch = true :=
    fun ch hch => (digit_plain (decimal_digits n ch hch)).2.2.2
  have hparse := parseHeaderField_text ⟨contentLength, [sp], decimal n, [], by decide,
    by decide, by decide +kernel, by simp, List.all_eq_true.mpr fun ch hch => (hplain ch hch).2,
    fun ch hch => (hplain ch (List.mem_of_mem_head? hch)).1,
    fun ch hch => (hplain ch (List.mem_of_mem_getLast? hch)).1⟩
  exact spelled_of_parse hparse

end HeaderField

theorem readFields_blank (rest : Bytes) : readFields (crlf ++ rest) = some ([], rest) := by
  have hcut : cutLine (crlf ++ rest) = some ([], rest) := @cutLine_line [] (by decide) rest
  rw [readFields]
  split
  · rename_i h
    rw [hcut] at h
    cases h
  · rename_i h
    rw [hcut] at h
    cases h
    rfl
  · rename_i hne h
    rw [hcut] at h
    cases h
    exact False.elim (hne rfl)

theorem readFields_field {line : Bytes} (clear : ¬ crlf <:+: line) (hne : line ≠ [])
    (rest : Bytes) : readFields (line ++ crlf ++ rest) =
      (parseHeaderField line).bind fun field =>
        (readFields rest).map fun read => (field :: read.1, read.2) := by
  have hcut := cutLine_line clear rest
  rw [readFields]
  split
  · rename_i h
    rw [hcut] at h
    cases h
  · rename_i h
    rw [hcut] at h
    cases h
    exact False.elim (hne rfl)
  · rename_i h
    rw [hcut] at h
    cases h
    rfl

theorem readFields_lines {fields : List HeaderField} (h : ∀ field ∈ fields, field.Spelled)
    (rest : Bytes) :
    readFields ((fields.map HeaderField.line).flatten ++ crlf ++ rest) = some (fields, rest) := by
  induction fields with
  | nil => exact readFields_blank rest
  | cons field fields ih =>
    have hfield := h field List.mem_cons_self
    have hfirst := readFields_field hfield.clear (by simp [bytes])
      ((fields.map HeaderField.line).flatten ++ crlf ++ rest)
    rw [hfield, ih fun field hmem => h field (List.mem_cons_of_mem _ hmem)] at hfirst
    rw [← List.append_assoc, ← List.append_assoc] at hfirst
    simpa [HeaderField.line] using hfirst

/-- Fields that arrive are fields that would arrive again. -/
theorem readFields_spelled {stream rest : Bytes} {fields : List HeaderField}
    (h : readFields stream = some (fields, rest)) : ∀ field ∈ fields, field.Spelled := by
  induction hlen : stream.length using Nat.strongRecOn generalizing stream fields rest with
  | ind n ih =>
    rw [readFields] at h
    split at h
    · cases h
    · cases h
      simp
    · rename_i line rest' _ hcut
      obtain ⟨field, hfield, h⟩ := Option.bind_eq_some_iff.mp h
      obtain ⟨⟨fields', rest''⟩, hrest, h⟩ := Option.map_eq_some_iff.mp h
      cases h
      intro field' hmem
      rcases List.mem_cons.mp hmem with rfl | hmem
      · exact HeaderField.spelled_of_parse hfield
      · exact ih _ (by have := cutLine_shorter hcut; omega) hrest rfl field' hmem

namespace Response

/-- What the client makes of a response. -/
def received (response : Response) (withBody : Bool) : Received where
  status := response.status
  fields := response.sentFields
  body := if withBody then response.body else []

theorem statedLength_sentFields (response : Response) :
    statedLength response.sentFields = some response.body.length := by
  have hcaller : response.callerFields.filter (fun field => field.name = contentLength) = [] := by
    simp [callerFields]
  rw [statedLength, sentFields, List.filter_append, hcaller]
  simp [decimalNumber_decimal]

theorem sentFields_spelled {response : Response}
    (h : ∀ field ∈ response.callerFields, field.Spelled) :
    ∀ field ∈ response.sentFields, field.Spelled := by
  intro field hmem
  rcases List.mem_append.mp hmem with hmem | hmem
  · exact h field hmem
  · rw [List.mem_singleton.mp hmem]
    exact HeaderField.spelled_length _

theorem serialize_stops {response : Response} {withBody : Bool} :
    response.serialize withBody = response.serializeHead ↔ withBody = false ∨ response.body = [] := by
  cases withBody <;> simp [serialize]

theorem readResponse_serialize {response : Response}
    (h : ∀ field ∈ response.callerFields, field.Spelled) (withBody : Bool) (rest : Bytes) :
    readResponse withBody (response.serialize withBody ++ rest) =
      some (response.received withBody, rest) := by
  have hline := cutLine_line response.statusText_clear
    ((response.sentFields.map HeaderField.line).flatten ++ crlf ++
      ((if withBody then response.body else []) ++ rest))
  have hfields := readFields_lines (sentFields_spelled h)
    ((if withBody then response.body else []) ++ rest)
  have hstream : response.serialize withBody ++ rest = response.statusText ++ crlf ++
      ((response.sentFields.map HeaderField.line).flatten ++ crlf ++
        ((if withBody then response.body else []) ++ rest)) := by
    simp [serialize, serializeHead_eq]
  rw [readResponse, hstream, hline, Option.bind_some]
  simp only [readStatus_statusText, Option.bind_some, hfields, statedLength_sentFields]
  cases withBody <;> simp [received]

end Response

theorem readResponse_spelled {withBody : Bool} {stream rest : Bytes} {received : Received}
    (h : readResponse withBody stream = some (received, rest)) :
    ∀ field ∈ received.fields, field.Spelled := by
  obtain ⟨⟨line, rest₁⟩, -, h⟩ := Option.bind_eq_some_iff.mp h
  obtain ⟨status, -, h⟩ := Option.bind_eq_some_iff.mp h
  obtain ⟨⟨fields, rest₂⟩, hfields, h⟩ := Option.bind_eq_some_iff.mp h
  obtain ⟨length, -, h⟩ := Option.bind_eq_some_iff.mp h
  have hsame : received.fields = fields := by
    split at h
    · cases h
      rfl
    · split at h
      · cases h
        rfl
      · cases h
  rw [hsame]
  exact readFields_spelled hfields

theorem readResponses_spelled {bodies : List Bool} {stream : Bytes} {all : List Received}
    (h : readResponses bodies stream = some all) :
    ∀ received ∈ all, ∀ field ∈ received.fields, field.Spelled := by
  induction bodies generalizing stream all with
  | nil =>
    rw [readResponses] at h
    split at h
    · cases h
      simp
    · cases h
  | cons withBody bodies ih =>
    obtain ⟨⟨first, rest⟩, hfirst, h⟩ := Option.bind_eq_some_iff.mp h
    obtain ⟨others, hrest, h⟩ := Option.map_eq_some_iff.mp h
    cases h
    intro received hmem
    rcases List.mem_cons.mp hmem with rfl | hmem
    · exact readResponse_spelled hfirst
    · exact ih hrest received hmem

/-- A client that knows which responses have no body reads back exactly what was sent, if
and only if all the callers' fields are ones that are read as they are written. -/
theorem readResponses_serialize {sent : List (Response × Bool)} :
    readResponses (sent.map Prod.snd) (sent.flatMap fun one => one.1.serialize one.2) =
        some (sent.map fun one => one.1.received one.2) ↔
      ∀ one ∈ sent, ∀ field ∈ one.1.callerFields, field.Spelled := by
  constructor
  · intro h one hone field hfield
    refine readResponses_spelled h _ (List.mem_map_of_mem hone) field ?_
    exact List.mem_append_left _ hfield
  · intro h
    induction sent with
    | nil => rfl
    | cons one sent ih =>
      have hfirst := Response.readResponse_serialize (h one List.mem_cons_self) one.2
        (sent.flatMap fun one => one.1.serialize one.2)
      have hrest := ih fun one hone => h one (List.mem_cons_of_mem _ hone)
      rw [List.flatMap_cons, List.map_cons, readResponses, hfirst, Option.bind_some]
      simp only [hrest]
      rfl

end Carafe.Http
