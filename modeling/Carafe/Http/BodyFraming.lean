import Carafe.Http.Framing
import Carafe.Library.Numeral

/-!
# How a body is framed

The two length parsers against exact values, and `measure_body` against the list
that all Transfer-Encoding fields mean together.
-/

namespace Carafe.Http
open Search Numeral

def asciiDigitValue (ch : UInt8) : Option Nat :=
  if '0'.toUInt8 ≤ ch ∧ ch ≤ '9'.toUInt8 then some (ch.toNat - '0'.toNat) else none

def decimalNumber (text : Bytes) : Option Nat := value 10 asciiDigitValue text

def hexNumber (text : Bytes) : Option Nat := value 16 asciiHexValue text

theorem asciiDigitValue_other {ch : UInt8} (h : ch < '0'.toUInt8 ∨ ch > '9'.toUInt8) :
    asciiDigitValue ch = none := by
  refine if_neg ?_
  rintro ⟨h0, h9⟩
  rcases h with hlt | hgt
  · exact absurd hlt (UInt8.not_lt.mpr h0)
  · exact absurd hgt (UInt8.not_lt.mpr h9)

theorem asciiDigitValue_digit {ch : UInt8} (h : ¬ (ch < '0'.toUInt8 ∨ ch > '9'.toUInt8)) :
    asciiDigitValue ch = some (ch.toNat - '0'.toNat) := by
  rw [not_or] at h
  exact if_pos ⟨UInt8.not_lt.mp h.1, UInt8.not_lt.mp h.2⟩

def BodyLength.ofReading : Reading → BodyLength
  | .exact n => { bytes := n }
  | .noDigit => { error := .malformed }
  | .tooLarge => { error := .bodyTooLarge }

theorem BodyLength.ofReading_ok {reading : Reading} {n : Nat} :
    BodyLength.ofReading reading = { bytes := n } ↔ reading = .exact n := by
  cases reading <;> simp [ofReading]

/-- The digit loop of `parse_content_length` is the bounded reader in base ten. -/
theorem contentLengthDigits_reads (length : Nat) (text : Bytes) :
    contentLengthDigits length text =
      .ofReading (readFrom 10 asciiDigitValue maxDrainBytes length text) := by
  induction text generalizing length with
  | nil => rfl
  | cons digit rest ih =>
    rw [contentLengthDigits, readFrom]
    by_cases hdigit : digit < '0'.toUInt8 ∨ digit > '9'.toUInt8
    · rw [if_pos hdigit, asciiDigitValue_other hdigit]
      rfl
    · rw [if_neg hdigit, asciiDigitValue_digit hdigit]
      dsimp only [Option.elim_some]
      split
      · rfl
      · exact ih _

theorem parseContentLength_reads (value : Bytes) :
    parseContentLength value = .ofReading (readAll 10 asciiDigitValue maxDrainBytes value) := by
  cases value with
  | nil => rfl
  | cons digit rest => exact contentLengthDigits_reads 0 (digit :: rest)

theorem parseContentLength_ok {value : Bytes} {n : Nat} :
    parseContentLength value = { bytes := n } ↔
      decimalNumber value = some n ∧ n ≤ maxDrainBytes := by
  rw [parseContentLength_reads, BodyLength.ofReading_ok, readAll_exact_iff (by decide)]
  rfl

/-- A length that is not an error is nothing but a length. -/
theorem parseContentLength_none {value : Bytes} (h : (parseContentLength value).error = .none) :
    ∃ n, parseContentLength value = { bytes := n } := by
  rw [parseContentLength_reads] at h ⊢
  cases hread : readAll 10 asciiDigitValue maxDrainBytes value with
  | exact n => exact ⟨n, rfl⟩
  | noDigit | tooLarge =>
    rw [hread] at h
    cases h

def ChunkLength.ofReading : Reading → ChunkLength
  | .exact n => { bytes := n }
  | .noDigit => { error := .malformed }
  | .tooLarge => { error := .bodyTooLarge }

theorem ChunkLength.ofReading_ok {reading : Reading} {n : Nat} :
    ChunkLength.ofReading reading = { bytes := n } ↔ reading = .exact n := by
  cases reading <;> simp [ofReading]

/-- The digit loop of `parse_chunk_size` is the same reader in base sixteen. -/
theorem chunkSizeDigits_reads (size : Nat) (text : Bytes) :
    chunkSizeDigits size text =
      .ofReading (readFrom 16 asciiHexValue maxBodyBytes size text) := by
  induction text generalizing size with
  | nil => rfl
  | cons ch rest ih =>
    rw [chunkSizeDigits, readFrom]
    cases asciiHexValue ch with
    | none => rfl
    | some digit =>
      dsimp only [Option.elim_some]
      split
      · rfl
      · exact ih _

/-- The part of a chunk-size line that the extension leaves. -/
def sizePart (line : Bytes) : Bytes :=
  match find semicolon 0 line with
  | some ext => line.take ext
  | none => line

theorem parseChunkSize_reads (line : Bytes) :
    parseChunkSize line = .ofReading (readAll 16 asciiHexValue maxBodyBytes (sizePart line)) := by
  have hparse : parseChunkSize line =
      if sizePart line = [] then { error := .malformed } else chunkSizeDigits 0 (sizePart line) :=
    rfl
  rw [hparse]
  cases sizePart line with
  | nil => rfl
  | cons ch rest => exact chunkSizeDigits_reads 0 (ch :: rest)

theorem parseChunkSize_ok {line : Bytes} {n : Nat} :
    parseChunkSize line = { bytes := n } ↔
      hexNumber (sizePart line) = some n ∧ n ≤ maxBodyBytes := by
  rw [parseChunkSize_reads, ChunkLength.ofReading_ok, readAll_exact_iff (by decide)]
  rfl

theorem parseChunkSize_none {line : Bytes} (h : (parseChunkSize line).error = .none) :
    ∃ n, parseChunkSize line = { bytes := n } := by
  rw [parseChunkSize_reads] at h ⊢
  cases hread : readAll 16 asciiHexValue maxBodyBytes (sizePart line) with
  | exact n => exact ⟨n, rfl⟩
  | noDigit | tooLarge =>
    rw [hread] at h
    cases h

theorem lowered_contentLength : contentLength.map asciiLower = contentLength := by decide
theorem lowered_transferEncoding : transferEncoding.map asciiLower = transferEncoding := by decide
theorem lowered_host : host.map asciiLower = host := by decide

/-- The one list that all Transfer-Encoding fields make together. -/
def transferElements (headers : Headers) : List Bytes :=
  headers.fields.flatMap fun field =>
    if field.name = transferEncoding then elementsOf field.value else []

/-- The same list up to case, as codings are compared. -/
def foldedCodings (headers : Headers) : List Bytes :=
  (transferElements headers).map (·.map asciiLower)

theorem contains_of_codings {headers : Headers} (h : foldedCodings headers ≠ []) :
    headers.contains transferEncoding = true := by
  rw [Headers.contains_iff lowered_transferEncoding]
  obtain ⟨coding, hcoding⟩ := List.exists_mem_of_ne_nil _ h
  obtain ⟨element, helement, -⟩ := List.mem_map.mp hcoding
  obtain ⟨field, hfield, hin⟩ := List.mem_flatMap.mp helement
  by_cases hname : field.name = transferEncoding
  · exact ⟨field, hfield, hname⟩
  · rw [if_neg hname] at hin
    cases hin

/-- What a list of codings, already lowercase, says about the body. -/
def codingsLength (codings : List Bytes) : BodyLength :=
  if codings.getLast? ≠ some chunkedCoding ∨ codings.count chunkedCoding > 1 then
    { error := .malformed }
  else if codings.length > 1 then { error := .unsupportedTransferEncoding }
  else { chunked := true }

theorem transferCodings_foldl (headers : Headers) :
    transferCodings headers = (transferElements headers).foldl Codings.see {} := by
  have hfold : ∀ (fields : List HeaderField) (codings : Codings),
      fields.foldl (fun codings field =>
        if field.name ≠ transferEncoding then codings
        else (listElements field.value).foldl Codings.see codings) codings =
      (fields.flatMap fun field =>
        if field.name = transferEncoding then elementsOf field.value else []).foldl
          Codings.see codings := by
    intro fields
    induction fields with
    | nil => intro codings; rfl
    | cons field fields ih =>
      intro codings
      rw [List.foldl_cons, List.flatMap_cons, List.foldl_append, ih]
      by_cases hname : field.name = transferEncoding
      · simp only [hname, ne_eq, not_true_eq_false, if_false, if_true, listElements_eq]
      · simp only [hname, ne_eq, not_false_eq_true, if_true, if_false, List.foldl_nil]
  exact hfold headers.fields {}

theorem foldl_see (elements : List Bytes) (codings : Codings) :
    elements.foldl Codings.see codings =
      { count := codings.count + elements.length
        chunked := codings.chunked + (elements.map (·.map asciiLower)).count chunkedCoding
        last := elements.getLast?.getD codings.last } := by
  induction elements generalizing codings with
  | nil => rfl
  | cons element elements ih =>
    have hone : (asciiEqualsLowered chunkedCoding element).toNat =
        if element.map asciiLower = chunkedCoding then 1 else 0 := by
      by_cases h : element.map asciiLower = chunkedCoding
      · rw [asciiEqualsLowered_iff.mpr h, if_pos h]
        rfl
      · rw [Bool.eq_false_iff.mpr (mt asciiEqualsLowered_iff.mp h), if_neg h]
        rfl
    rw [List.foldl_cons, ih, Codings.mk.injEq]
    refine ⟨?_, ?_, ?_⟩
    · simp only [Codings.see, List.length_cons]
      omega
    · simp only [Codings.see, hone, List.map_cons, List.count_cons, beq_iff_eq]
      omega
    · rw [List.getLast?_cons]
      rfl

/-- The last coding is chunked when the folded list ends in it. -/
theorem last_chunked (elements : List Bytes) :
    asciiEqualsLowered chunkedCoding (elements.getLast?.getD []) = true ↔
      (elements.map (·.map asciiLower)).getLast? = some chunkedCoding := by
  rw [asciiEqualsLowered_iff, List.getLast?_map]
  cases elements.getLast? with
  | none => decide
  | some coding => simp

/-- With a Transfer-Encoding field the decision is made on the folded list alone. -/
theorem measureBody_transfer {headers : Headers} (h : headers.contains transferEncoding = true)
    (version : Version) : measureBody headers version =
      if headers.contains contentLength = true ∨ version = .http10 then { error := .malformed }
      else codingsLength (foldedCodings headers) := by
  unfold measureBody
  rw [if_pos h, transferCodings_foldl, foldl_see]
  by_cases hlength : headers.contains contentLength = true
  · simp [hlength]
  by_cases hversion : version = .http10
  · simp [hversion]
  have hlast := last_chunked (transferElements headers)
  rw [← Bool.not_eq_false] at hlast
  simp only [hlength, hversion, Bool.false_eq_true, or_self, if_false, codingsLength,
    foldedCodings, List.length_map, Nat.zero_add, ne_eq, ← hlast, not_not]

theorem codingsLength_chunked {codings : List Bytes} :
    codingsLength codings = { chunked := true } ↔ codings = [chunkedCoding] := by
  constructor
  · intro h
    unfold codingsLength at h
    split at h
    · cases h
    rename_i hlast
    split at h
    · cases h
    rename_i hlen
    rw [not_or, not_not] at hlast
    cases codings with
    | nil => simp at hlast
    | cons coding rest =>
      obtain rfl : rest = [] := List.length_eq_zero_iff.mp (by simp at hlen; simpa using hlen)
      simpa using hlast.1
  · rintro rfl
    decide

/-- Chunked once, last, and over something else. -/
def Layered (codings : List Bytes) : Prop :=
  codings.getLast? = some chunkedCoding ∧ codings.count chunkedCoding = 1 ∧ 1 < codings.length

instance (codings : List Bytes) : Decidable (Layered codings) :=
  inferInstanceAs (Decidable (_ ∧ _))

theorem codingsLength_unsupported {codings : List Bytes} :
    codingsLength codings = { error := .unsupportedTransferEncoding } ↔ Layered codings := by
  unfold codingsLength Layered
  split
  · rename_i h
    simp only [BodyLength.mk.injEq, reduceCtorEq, false_and, false_iff]
    rintro ⟨hlast, hcount, -⟩
    rcases h with h | h
    · exact h hlast
    · omega
  · rename_i h
    rw [not_or, not_not] at h
    have hmem := List.count_pos_iff.mpr (List.mem_of_getLast? h.1)
    split
    · rename_i hlen
      simp only [true_iff]
      exact ⟨h.1, by omega, hlen⟩
    · rename_i hlen
      simp only [BodyLength.mk.injEq, reduceCtorEq, false_and, false_iff]
      rintro ⟨-, -, hlen'⟩
      exact hlen hlen'

/-- There are three answers. -/
theorem codingsLength_cases (codings : List Bytes) :
    codingsLength codings = { chunked := true } ∨
    codingsLength codings = { error := .unsupportedTransferEncoding } ∨
    codingsLength codings = { error := .malformed } := by
  unfold codingsLength
  split
  · exact Or.inr (Or.inr rfl)
  · split
    · exact Or.inr (Or.inl rfl)
    · exact Or.inl rfl

/-- Without Transfer-Encoding the length is the one Content-Length states, if any. -/
theorem measureBody_length {headers : Headers} (h : headers.contains transferEncoding = false)
    (version : Version) {body : BodyLength} :
    measureBody headers version = body ∧ body.error = .none ↔
      headers.count contentLength = 0 ∧ body = {} ∨
      headers.count contentLength = 1 ∧ ∃ n, body = { bytes := n } ∧
        (headers.get contentLength).bind decimalNumber = some n ∧ n ≤ maxDrainBytes := by
  have hcontains := Headers.contains_iff_count lowered_contentLength headers
  unfold measureBody
  simp only [h, Bool.false_eq_true, if_false]
  rcases Nat.lt_trichotomy (headers.count contentLength) 1 with hzero | hone | hmany
  · have hnone : headers.get contentLength = none := by
      rw [← Option.not_isSome_iff_eq_none]
      intro hsome
      have hpos := hcontains.mp hsome
      omega
    rw [if_neg (by omega), hnone]
    have hcount : headers.count contentLength = 0 := by omega
    simp only [hcount, true_and, Nat.zero_ne_one, false_and, or_false, eq_comm (a := body)]
    exact and_iff_left_of_imp fun heq => heq ▸ rfl
  · obtain ⟨value, hvalue⟩ := Option.isSome_iff_exists.mp (hcontains.mpr (by omega))
    rw [if_neg (by omega), hvalue]
    simp only [hone, Nat.one_ne_zero, false_and, true_and, false_or, Option.bind_some]
    constructor
    · rintro ⟨rfl, hnone⟩
      obtain ⟨n, hn⟩ := parseContentLength_none hnone
      exact ⟨n, hn, parseContentLength_ok.mp hn⟩
    · rintro ⟨n, rfl, hn⟩
      exact ⟨parseContentLength_ok.mpr hn, rfl⟩
  · rw [if_pos hmany]
    constructor
    · rintro ⟨rfl, hnone⟩
      cases hnone
    · rintro (⟨hzero, _⟩ | ⟨hone, _⟩) <;> omega

/-- Only a Transfer-Encoding makes a body chunked. -/
theorem measureBody_chunked {headers : Headers} {version : Version} {body : BodyLength}
    (h : measureBody headers version = body) (hnone : body.error = .none)
    (present : headers.contains transferEncoding = true) :
    body = { chunked := true } ∧ ¬ (headers.contains contentLength = true ∨ version = .http10) ∧
      foldedCodings headers = [chunkedCoding] := by
  rw [measureBody_transfer present] at h
  split at h
  · subst h
    cases hnone
  · rename_i inside
    rcases codingsLength_cases (foldedCodings headers) with heq | heq | heq
    · exact ⟨h.symm.trans heq, inside, codingsLength_chunked.mp heq⟩
    · rw [← h, heq] at hnone
      cases hnone
    · rw [← h, heq] at hnone
      cases hnone

/-- Exactly one Host on HTTP/1.1, at most one on HTTP/1.0. -/
def HostRule (headers : Headers) (version : Version) : Prop :=
  headers.count host ≤ 1 ∧ (version = .http11 → headers.count host = 1)

instance (headers : Headers) (version : Version) : Decidable (HostRule headers version) :=
  inferInstanceAs (Decidable (_ ∧ _))

theorem hostRule_iff {headers : Headers} {version : Version} : HostRule headers version ↔
    ¬ (headers.count host > 1 ∨ (headers.count host = 0 ∧ version = .http11)) := by
  unfold HostRule
  cases version
  · simp
  · simp
    omega

/-- Past the Host rule and the framing rules, the length decides. -/
theorem completeHead_measured {a : Assembly} {body : BodyLength}
    (rule : HostRule a.request.headers a.request.version)
    (measured : measureBody a.request.headers a.request.version = body)
    (sound : body.error = .none) :
    a.completeHead =
      if body.chunked = true then ({ a with phase := .chunkSize }, none)
      else if body.bytes > maxBodyBytes then
        Assembly.handOver ({ a with bodyBytes := body.bytes }.refuse .bodyTooLarge)
      else if body.bytes = 0 then
        Assembly.handOver { a with bodyBytes := body.bytes }.finishRequest
      else ({ a with bodyBytes := body.bytes, phase := .body }, none) := by
  unfold Assembly.completeHead
  rw [if_neg (hostRule_iff.mp rule)]
  dsimp only
  rw [measured, if_neg (by rw [sound]; simp)]

/-- Any other head loses the stream. -/
theorem completeHead_refused {a : Assembly}
    (h : ¬ (HostRule a.request.headers a.request.version ∧
      (measureBody a.request.headers a.request.version).error = .none)) :
    ∃ error, error ≠ .none ∧ a.completeHead = Assembly.handOver (a.fail error) := by
  unfold Assembly.completeHead
  dsimp only
  split
  · exact ⟨.malformed, by decide, rfl⟩
  · rename_i rule
    have unsound : (measureBody a.request.headers a.request.version).error ≠ .none :=
      fun sound => h ⟨hostRule_iff.mpr rule, sound⟩
    rw [if_pos unsound]
    exact ⟨_, unsound, rfl⟩

/-- Where a Transfer-Encoding may stand: on HTTP/1.1 and without Content-Length. -/
def CodingsAllowed (headers : Headers) (version : Version) : Prop :=
  headers.contains contentLength = false ∧ version = .http11

instance (headers : Headers) (version : Version) : Decidable (CodingsAllowed headers version) :=
  inferInstanceAs (Decidable (_ ∧ _))

theorem codingsAllowed_iff {headers : Headers} {version : Version} :
    CodingsAllowed headers version ↔
      ¬ (headers.contains contentLength = true ∨ version = .http10) := by
  unfold CodingsAllowed
  cases version <;> simp

/-- What is not Transfer-Encoding. -/
def otherFields (headers : Headers) : List HeaderField :=
  headers.fields.filter (fun field => field.name ≠ transferEncoding)

def Assembly.withHeaders (a : Assembly) (headers : Headers) : Assembly :=
  { a with request := { a.request with headers := headers } }

theorem count_otherFields {name : Bytes} (lowered : name.map asciiLower = name)
    (hne : name ≠ transferEncoding) (headers : Headers) :
    headers.count name = (otherFields headers).countP (fun field => field.name = name) := by
  rw [Headers.count_eq lowered, otherFields, List.countP_filter]
  apply List.countP_congr
  intro field _
  simp only [decide_eq_true_eq, Bool.and_eq_true, iff_self_and]
  rintro rfl
  exact hne

theorem contains_otherFields {name : Bytes} (lowered : name.map asciiLower = name)
    (hne : name ≠ transferEncoding) {headers headers' : Headers}
    (h : otherFields headers = otherFields headers') :
    headers.contains name = headers'.contains name := by
  rw [Bool.eq_iff_iff, Headers.contains_iff_count lowered, Headers.contains_iff_count lowered,
    count_otherFields lowered hne, count_otherFields lowered hne, h]

/-- The answers to a head with Transfer-Encoding: a chunked body, or a failure. -/
theorem completeHead_transfer {a : Assembly}
    (present : a.request.headers.contains transferEncoding = true) :
    a.completeHead =
      if HostRule a.request.headers a.request.version ∧
          CodingsAllowed a.request.headers a.request.version then
        if foldedCodings a.request.headers = [chunkedCoding] then
          ({ a with phase := .chunkSize }, none)
        else if Layered (foldedCodings a.request.headers) then
          Assembly.handOver (a.fail .unsupportedTransferEncoding)
        else Assembly.handOver (a.fail .malformed)
      else Assembly.handOver (a.fail .malformed) := by
  unfold Assembly.completeHead
  dsimp only
  rw [measureBody_transfer present]
  by_cases rule : HostRule a.request.headers a.request.version
  · rw [if_neg (hostRule_iff.mp rule)]
    by_cases allowed : CodingsAllowed a.request.headers a.request.version
    · have inside := codingsAllowed_iff.mp allowed
      simp only [inside, if_false, rule, allowed, and_self, if_true,
        ← codingsLength_unsupported, ← codingsLength_chunked]
      rcases codingsLength_cases (foldedCodings a.request.headers) with h | h | h
      · simp [h]
      · simp [h]
      · simp [h]
    · have outside := not_not.mp (mt codingsAllowed_iff.mpr allowed)
      simp [outside, allowed]
  · rw [if_pos (not_not.mp (mt hostRule_iff.mpr rule)), if_neg (fun h => rule h.1)]

theorem completeHead_transfer_cases {a : Assembly}
    (present : a.request.headers.contains transferEncoding = true) :
    a.completeHead = ({ a with phase := .chunkSize }, none) ∨
    a.completeHead = Assembly.handOver (a.fail .unsupportedTransferEncoding) ∨
    a.completeHead = Assembly.handOver (a.fail .malformed) := by
  rw [completeHead_transfer present]
  split
  · split
    · exact Or.inl rfl
    · split
      · exact Or.inr (Or.inl rfl)
      · exact Or.inr (Or.inr rfl)
  · exact Or.inr (Or.inr rfl)

/-- Another spelling of the same list changes nothing but the spelling. -/
theorem completeHead_withHeaders {a : Assembly} {headers : Headers}
    (present : a.request.headers.contains transferEncoding = true)
    (present' : headers.contains transferEncoding = true)
    (others : otherFields headers = otherFields a.request.headers)
    (folded : foldedCodings headers = foldedCodings a.request.headers) :
    (a.withHeaders headers).completeHead =
      (a.completeHead.1.withHeaders headers, a.completeHead.2) := by
  have hhost := count_otherFields lowered_host (by decide)
  have hrule : HostRule headers a.request.version ↔
      HostRule a.request.headers a.request.version := by
    simp only [HostRule, hhost, others]
  have hallowed : CodingsAllowed headers a.request.version ↔
      CodingsAllowed a.request.headers a.request.version := by
    rw [CodingsAllowed, CodingsAllowed,
      contains_otherFields lowered_contentLength (by decide) others]
  rw [completeHead_transfer (a := a.withHeaders headers) present', completeHead_transfer present]
  simp only [Assembly.withHeaders, hrule, hallowed, folded]
  split
  · split
    · rfl
    · split <;> rfl
  · rfl

section Spellings
variable (front middle back : List HeaderField) (x y : Bytes)

/-- One field with a comma in it, in the midst of others. -/
def joinedFields : Headers :=
  .ofFields (front ++ ⟨transferEncoding, x ++ comma :: y⟩ :: (middle ++ back))

/-- The same list cut at that comma, with the second part further down. -/
def splitFields : Headers :=
  .ofFields (front ++ ⟨transferEncoding, x⟩ :: (middle ++ ⟨transferEncoding, y⟩ :: back))

theorem split_contains : (splitFields front middle back x y).contains transferEncoding = true ∧
    (joinedFields front middle back x y).contains transferEncoding = true := by
  have hfirst : ∀ (field : HeaderField) (rest : List HeaderField),
      field.name = transferEncoding →
        (Headers.ofFields (front ++ field :: rest)).contains transferEncoding = true := by
    intro field rest hname
    rw [Headers.contains_iff lowered_transferEncoding]
    refine ⟨{ field with name := field.name.map asciiLower }, by simp, ?_⟩
    rw [hname, lowered_transferEncoding]
  exact ⟨hfirst _ _ rfl, hfirst _ _ rfl⟩

theorem split_otherFields : otherFields (splitFields front middle back x y) =
    otherFields (joinedFields front middle back x y) := by
  simp [otherFields, splitFields, joinedFields, lowered_transferEncoding]

theorem split_transferElements
    (apart : ∀ field ∈ middle, field.name.map asciiLower ≠ transferEncoding) :
    transferElements (splitFields front middle back x y) =
      transferElements (joinedFields front middle back x y) := by
  have hmiddle : (middle.map fun field : HeaderField =>
      { field with name := field.name.map asciiLower }).flatMap (fun field =>
        if field.name = transferEncoding then elementsOf field.value else []) = [] := by
    rw [List.flatMap_eq_nil_iff]
    intro field hfield
    obtain ⟨field', hmem, rfl⟩ := List.mem_map.mp hfield
    rw [if_neg (apart field' hmem)]
  simp only [transferElements, splitFields, joinedFields, Headers.ofFields_fields, List.map_append,
    List.map_cons, List.flatMap_append, List.flatMap_cons, lowered_transferEncoding, if_true,
    elementsOf_append, hmiddle, List.nil_append, List.append_assoc]

end Spellings

/-- An empty list is not the same as no list: the first is refused. -/
theorem completeHead_empty_list : ¬ ∀ (a : Assembly) (headers : Headers),
    otherFields headers = otherFields a.request.headers →
    foldedCodings headers = foldedCodings a.request.headers →
    (a.withHeaders headers).completeHead.2.map RequestResult.error =
      a.completeHead.2.map RequestResult.error := by
  intro h
  have hempty := h { phase := .headers } (.ofFields [⟨transferEncoding, bytes ","⟩])
    (by decide) (by decide)
  exact absurd hempty (by decide)

/-- Transfer-Encoding is judged as one list, folded over all its fields. -/
theorem completeHead_one_list {a : Assembly}
    (present : a.request.headers.contains transferEncoding = true) :
    (∀ headers : Headers, headers.contains transferEncoding = true →
      otherFields headers = otherFields a.request.headers →
      foldedCodings headers = foldedCodings a.request.headers →
      (a.withHeaders headers).completeHead =
        (a.completeHead.1.withHeaders headers, a.completeHead.2)) ∧
    (∀ (front middle back : List HeaderField) (x y : Bytes),
      (∀ field ∈ middle, field.name.map asciiLower ≠ transferEncoding) →
      let joined := joinedFields front middle back x y
      let split := splitFields front middle back x y
      (a.withHeaders split).completeHead =
        ((a.withHeaders joined).completeHead.1.withHeaders split,
          (a.withHeaders joined).completeHead.2)) ∧
    (HostRule a.request.headers a.request.version →
      (a.completeHead = ({ a with phase := .chunkSize }, none) ↔
        CodingsAllowed a.request.headers a.request.version ∧
          foldedCodings a.request.headers = [chunkedCoding]) ∧
      (a.completeHead = Assembly.handOver (a.fail .unsupportedTransferEncoding) ↔
        CodingsAllowed a.request.headers a.request.version ∧
          Layered (foldedCodings a.request.headers)) ∧
      (a.completeHead = Assembly.handOver (a.fail .malformed) ↔
        ¬ (CodingsAllowed a.request.headers a.request.version ∧
          (foldedCodings a.request.headers = [chunkedCoding] ∨
            Layered (foldedCodings a.request.headers))))) ∧
    ∀ result, a.completeHead.2 = some result → ∀ (lineReader : LineReader) (more : Bytes),
      let reader : RequestReader := { toAssembly := a.completeHead.1, lineReader }
      result.error ≠ .none ∧ result.streamContinues = false ∧
        (reader.append more).nextRequest = (reader.append more, result) := by
  refine ⟨fun _ => completeHead_withHeaders present, ?_, ?_, ?_⟩
  · intro front middle back x y apart joined split
    obtain ⟨hsplit, hjoined⟩ := split_contains front middle back x y
    refine completeHead_withHeaders (a := a.withHeaders joined) hjoined hsplit
      (split_otherFields front middle back x y) ?_
    exact congrArg (List.map _) (split_transferElements front middle back x y apart)
  · intro rule
    have hsingle : foldedCodings a.request.headers = [chunkedCoding] →
        ¬ Layered (foldedCodings a.request.headers) := by
      rintro heq ⟨-, -, hlen⟩
      simp [heq] at hlen
    rw [completeHead_transfer present]
    by_cases allowed : CodingsAllowed a.request.headers a.request.version
    · by_cases single : foldedCodings a.request.headers = [chunkedCoding]
      · simp [rule, allowed, single, Assembly.handOver]
        exact single ▸ hsingle single
      · by_cases layered : Layered (foldedCodings a.request.headers)
        · simp [rule, allowed, single, layered, Assembly.handOver, Assembly.fail]
        · simp [rule, allowed, single, layered, Assembly.handOver, Assembly.fail]
    · simp [allowed, Assembly.handOver, Assembly.fail]
  · intro result hresult lineReader more reader
    have hfail : ∃ error, error ≠ .none ∧ a.completeHead = Assembly.handOver (a.fail error) := by
      rcases completeHead_transfer_cases present with h | h | h
      · rw [h] at hresult
        cases hresult
      · exact ⟨_, by decide, h⟩
      · exact ⟨_, by decide, h⟩
    obtain ⟨error, herror, hhead⟩ := hfail
    rw [hhead] at hresult
    obtain rfl : (a.fail error).2 = result := Option.some.inj hresult
    have hstate : (reader.append more).toAssembly = (a.fail error).1 := by
      change a.completeHead.1 = _
      rw [hhead]
      rfl
    refine ⟨herror, rfl, ?_⟩
    rw [RequestReader.nextRequest_failed (by rw [hstate]; exact herror), hstate]
    rfl

/-- A list over two fields, in mixed case and with stray commas, is still just chunked. -/
theorem completeHead_one_list_chunked :
    let a : Assembly :=
      { phase := .headers
        request := { version := .http11, headers := .ofFields [⟨host, bytes "a"⟩,
          ⟨transferEncoding, bytes ", "⟩, ⟨transferEncoding, bytes "CHUNKED,"⟩] } }
    a.completeHead = ({ a with phase := .chunkSize }, none) :=
  ((completeHead_one_list (by decide)).2.2.1 (by decide)).1.mpr
    (by decide)

end Carafe.Http
