import Carafe.Http.BodyFraming
import Carafe.Http.Progress

/-!
# Lengths in machine arithmetic

The source computes lengths in `std::size_t`. Here a product or a sum of two sizes
that does not fit has no result at all, and the parsers always have one: the bound
tested behind each digit leaves room for the next product and the next digit.
-/

namespace Carafe.Http
open Numeral Search

/-- The largest `std::size_t`. -/
def maxSize : Nat := 18446744073709551615

def sizeMul (a b : Nat) : Option Nat := limited maxSize (a * b)

def sizeAdd (a b : Nat) : Option Nat := limited maxSize (a + b)

/-- The source asserts this of its caps, and the next one. -/
theorem maxBodyBytes_room : maxBodyBytes ≤ (maxSize - 15) / 16 := by decide

theorem maxDrainBytes_room : maxDrainBytes ≤ (maxSize - 9) / 10 := by decide

def contentLengthDigitsChecked (length : Nat) : Bytes → Option BodyLength
  | [] => some { bytes := length }
  | digit :: rest =>
    if digit < '0'.toUInt8 ∨ digit > '9'.toUInt8 then some { error := .malformed }
    else
      (sizeMul length 10).bind fun product =>
        (sizeAdd product (digit.toNat - '0'.toNat)).bind fun length =>
          if length > maxDrainBytes then some { error := .bodyTooLarge }
          else contentLengthDigitsChecked length rest

def parseContentLengthChecked (value : Bytes) : Option BodyLength :=
  if value = [] then some { error := .malformed } else contentLengthDigitsChecked 0 value

def chunkSizeDigitsChecked (size : Nat) : Bytes → Option ChunkLength
  | [] => some { bytes := size }
  | ch :: rest =>
    match asciiHexValue ch with
    | none => some { error := .malformed }
    | some digit =>
      (sizeMul size 16).bind fun product =>
        (sizeAdd product digit).bind fun size =>
          if size > maxBodyBytes then some { error := .bodyTooLarge }
          else chunkSizeDigitsChecked size rest

def parseChunkSizeChecked (line : Bytes) : Option ChunkLength :=
  let line := match find semicolon 0 line with
    | some ext => line.take ext
    | none => line
  if line = [] then some { error := .malformed } else chunkSizeDigitsChecked 0 line

def Assembly.handleChunkSizeChecked (a : Assembly) (line : Bytes) :
    Option (Assembly × Option RequestResult) :=
  (parseChunkSizeChecked line).bind fun chunk =>
    if chunk.error ≠ .none then some (handOver (a.fail chunk.error))
    else if chunk.bytes = 0 then some ({ a with phase := .trailers }, none)
    else
      (sizeAdd a.request.body.length chunk.bytes).map fun total =>
        if total > maxBodyBytes then handOver (a.fail .bodyTooLarge)
        else ({ a with chunkBytes := chunk.bytes, phase := .chunkData }, none)

theorem contentLengthDigitsChecked_reads (length : Nat) (text : Bytes) :
    contentLengthDigitsChecked length text =
      (checkedFrom maxSize 10 asciiDigitValue maxDrainBytes length text).map .ofReading := by
  induction text generalizing length with
  | nil => rfl
  | cons digit rest ih =>
    rw [contentLengthDigitsChecked, checkedFrom, sizeMul]
    by_cases hdigit : digit < '0'.toUInt8 ∨ digit > '9'.toUInt8
    · rw [if_pos hdigit, asciiDigitValue_other hdigit]
      rfl
    · rw [if_neg hdigit, asciiDigitValue_digit hdigit]
      dsimp only [Option.elim_some]
      cases limited maxSize (length * 10) with
      | none => rfl
      | some product =>
        rw [Option.bind_some, Option.bind_some, sizeAdd]
        cases limited maxSize (product + (digit.toNat - '0'.toNat)) with
        | none => rfl
        | some next =>
          rw [Option.bind_some, Option.bind_some]
          split
          · rfl
          · exact ih next

theorem chunkSizeDigitsChecked_reads (size : Nat) (text : Bytes) :
    chunkSizeDigitsChecked size text =
      (checkedFrom maxSize 16 asciiHexValue maxBodyBytes size text).map .ofReading := by
  induction text generalizing size with
  | nil => rfl
  | cons ch rest ih =>
    rw [chunkSizeDigitsChecked, checkedFrom, sizeMul]
    cases asciiHexValue ch with
    | none => rfl
    | some digit =>
      dsimp only [Option.elim_some]
      cases limited maxSize (size * 16) with
      | none => rfl
      | some product =>
        rw [Option.bind_some, Option.bind_some, sizeAdd]
        cases limited maxSize (product + digit) with
        | none => rfl
        | some next =>
          rw [Option.bind_some, Option.bind_some]
          split
          · rfl
          · exact ih next

theorem asciiDigitValue_lt (ch : UInt8) : ∀ d ∈ asciiDigitValue ch, d < 10 := by
  revert ch
  refine forall_byte ?_
  decide +kernel

theorem parseContentLengthChecked_eq (value : Bytes) :
    parseContentLengthChecked value = some (parseContentLength value) := by
  have hchecked : parseContentLengthChecked value =
      (checkedAll maxSize 10 asciiDigitValue maxDrainBytes value).map .ofReading := by
    cases value with
    | nil => rfl
    | cons digit rest => exact contentLengthDigitsChecked_reads 0 (digit :: rest)
  rw [hchecked, checkedAll_eq maxDrainBytes_room (by decide) asciiDigitValue_lt,
    parseContentLength_reads, Option.map_some]

theorem parseChunkSizeChecked_eq (line : Bytes) :
    parseChunkSizeChecked line = some (parseChunkSize line) := by
  have hparse : parseChunkSizeChecked line =
      if sizePart line = [] then some { error := .malformed }
      else chunkSizeDigitsChecked 0 (sizePart line) :=
    rfl
  have hchecked : parseChunkSizeChecked line =
      (checkedAll maxSize 16 asciiHexValue maxBodyBytes (sizePart line)).map .ofReading := by
    rw [hparse]
    cases sizePart line with
    | nil => rfl
    | cons ch rest => exact chunkSizeDigitsChecked_reads 0 (ch :: rest)
  rw [hchecked, checkedAll_eq maxBodyBytes_room (by decide) fun ch d => asciiHexValue_lt,
    parseChunkSize_reads, Option.map_some]

namespace Assembly
variable {a : Assembly}

/-- The body is within its cap, and stays so with the chunk that is due. -/
structure Roomy (a : Assembly) : Prop where
  body : a.request.body.length ≤ maxBodyBytes
  chunk : a.phase = .chunkData → a.request.body.length + a.chunkBytes ≤ maxBodyBytes

/-- No line adds to the body. -/
theorem Lined.body_le {answer : Assembly × Option RequestResult} (h : a.Lined answer) :
    answer.1.request.body.length ≤ a.request.body.length := by
  cases h with
  | finished => exact Nat.zero_le _
  | failed | started | field | chunked | refused | body | lastChunk | chunk | trailer =>
    exact Nat.le_refl _

/-- Only a chunk adds to the body, and not more than was due. -/
theorem pull_body (h : a.Roomy) (unread : Bytes) :
    (a.pull unread).2.1.request.body.length ≤ maxBodyBytes := by
  unfold pull
  cases hphase : a.phase with
  | requestLine | headers | chunkSize | trailers =>
    have hline : a.phase.isLine = true := by rw [hphase]; rfl
    dsimp only
    rcases onLine_lined hline (LineReader.lineOf unread).2 with heq | hlined
    · rw [heq]
      exact h.body
    · exact Nat.le_trans hlined.body_le h.body
  | discard =>
    simp only [onDiscard]
    split
    · exact h.body
    · exact Nat.zero_le _
  | body =>
    dsimp only
    split
    · exact h.body
    · exact Nat.zero_le _
  | chunkData =>
    have hfits := h.chunk hphase
    dsimp only
    split
    · exact h.body
    · simp only [onChunk, acceptChunk]
      split
      · exact h.body
      · simp only [List.length_append, List.length_take]
        omega

theorem pull_roomy (h : a.Roomy) (unread : Bytes) : (a.pull unread).2.1.Roomy := by
  refine ⟨pull_body h unread, fun chunk => ?_⟩
  rcases pull_chunk unread chunk with ⟨hphase, hbytes, hrequest⟩ | ⟨n, -, hfits, heq⟩
  · rw [hbytes, hrequest]
    exact h.chunk hphase
  · rw [heq]
    exact hfits

/-- What the body holds and what a size line may promise fit in one size together. -/
theorem Roomy.handleChunkSizeChecked_eq (h : a.Roomy) (line : Bytes) :
    a.handleChunkSizeChecked line = some (a.handleChunkSize line) := by
  unfold handleChunkSizeChecked handleChunkSize
  rw [parseChunkSizeChecked_eq, Option.bind_some]
  dsimp only
  split
  · rfl
  split
  · rfl
  rename_i hnone _
  obtain ⟨n, hn⟩ := parseChunkSize_none (not_not.mp hnone)
  have hbody := h.body
  have hchunk := (parseChunkSize_ok.mp hn).2
  have hsum : a.request.body.length + n ≤ maxSize := by
    simp only [maxBodyBytes, maxSize] at *
    omega
  rw [hn, sizeAdd, limited_of_le hsum, Option.map_some]

end Assembly

theorem Visited.roomy {reader : RequestReader} (h : Visited reader) : reader.Roomy := by
  induction h with
  | fresh => exact ⟨Nat.zero_le _, fun chunk => by cases chunk⟩
  | append _ _ ih => exact ih
  | @round reader _ _ ih =>
    have hpull := Assembly.pull_roomy ih reader.unread
    rwa [← reader.iterate_pull] at hpull

theorem sizePart_eq_takeWhile (line : Bytes) : sizePart line = line.takeWhile (· ≠ semicolon) := by
  unfold sizePart
  cases hfind : find semicolon 0 line with
  | none =>
    rw [find_eq_none_iff, List.drop_zero] at hfind
    symm
    rw [List.takeWhile_eq_self_iff]
    intro ch hch
    exact decide_eq_true fun heq => hfind (heq ▸ hch)
  | some ext =>
    obtain ⟨piece, rest, hline, hclear, rfl⟩ := find_some hfind
    rw [List.drop_zero] at hline
    have hpiece : ∀ ch ∈ piece, decide (ch ≠ semicolon) = true := by
      intro ch hch
      exact decide_eq_true fun heq => hclear (heq ▸ hch)
    rw [hline, List.takeWhile_append_of_pos hpiece, List.takeWhile_cons_of_neg (by simp)]
    simp

/-- The length parsers read exact values up to their caps and nothing else, and neither they
nor the sum that a chunk is measured with leave 64 bits. -/
theorem lengths_exact :
    (∀ (text : Bytes) (n : Nat), parseContentLength text = { bytes := n } ↔
      n ≤ 8388608 ∧ ∃ digits, Spells asciiDigitValue text digits ∧
        n = Nat.ofDigits 10 digits.reverse) ∧
    (∀ (line : Bytes) (n : Nat), parseChunkSize line = { bytes := n } ↔
      n ≤ 1048576 ∧ ∃ digits, Spells asciiHexValue (line.takeWhile (· ≠ ';'.toUInt8)) digits ∧
        n = Nat.ofDigits 16 digits.reverse) ∧
    (∀ text, (parseContentLength text).error ≠ .none ∨
      ∃ n, parseContentLength text = { bytes := n }) ∧
    (∀ line, (parseChunkSize line).error ≠ .none ∨ ∃ n, parseChunkSize line = { bytes := n }) ∧
    (∀ text, parseContentLengthChecked text = some (parseContentLength text)) ∧
    (∀ line, parseChunkSizeChecked line = some (parseChunkSize line)) ∧
    (∀ reader : RequestReader, Visited reader → ∀ line,
      reader.handleChunkSizeChecked line = some (reader.handleChunkSize line)) := by
  refine ⟨fun text n => ?_, fun line n => ?_, fun text => ?_, fun line => ?_,
    parseContentLengthChecked_eq, parseChunkSizeChecked_eq,
    fun reader h line => h.roomy.handleChunkSizeChecked_eq line⟩
  · rw [parseContentLength_ok, decimalNumber, value_eq_ofDigits, and_comm]
    rfl
  · rw [parseChunkSize_ok, hexNumber, value_eq_ofDigits, and_comm, sizePart_eq_takeWhile]
    rfl
  · by_cases hnone : (parseContentLength text).error = .none
    · exact Or.inr (parseContentLength_none hnone)
    · exact Or.inl hnone
  · by_cases hnone : (parseChunkSize line).error = .none
    · exact Or.inr (parseChunkSize_none hnone)
    · exact Or.inl hnone

/-- Leading zeros are part of the run, and an extension is not. -/
theorem lengths_exact_zeros :
    parseContentLength (bytes "00042") = { bytes := 42 } ∧
      parseChunkSize (bytes "0fF;name=value") = { bytes := 255 } ∧
      ({} : RequestReader).handleChunkSizeChecked (bytes "0fF") =
        some (({} : RequestReader).handleChunkSize (bytes "0fF")) := by
  obtain ⟨hlength, hsize, -, -, -, -, hsum⟩ := lengths_exact
  refine ⟨?_, ?_, hsum {} .fresh _⟩
  · exact (hlength _ _).mpr ⟨by decide, [0, 0, 0, 4, 2], ⟨by decide, by decide⟩, by decide⟩
  · exact (hsize _ _).mpr ⟨by decide, [0, 15, 15], ⟨by decide, by decide⟩, by decide⟩

end Carafe.Http
