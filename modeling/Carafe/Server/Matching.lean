import Carafe.Http.RawPath
import Carafe.Server.Decoded

/-!
# What a match is

The walk in `matches` has three ways out, and compares counts of separators where it
means escapes. Seen from outside it is a relation between the segments of a pattern and
the pieces of a path: a piece for each segment, or a rest at the end that takes what is
left as long as none of it hides a separator.
-/

namespace Carafe.Server
open Http Segments

/-- Somewhere in the text stands an escape of the separator. -/
def HidesSlash (text : Bytes) : Prop :=
  ∃ front highCh lowCh back high low, text = front ++ percent :: highCh :: lowCh :: back ∧
    asciiHexValue highCh = some high ∧ asciiHexValue lowCh = some low ∧
    escapedByte high low = slash

def hidesSlash : Token → Bool
  | .byte _ => false
  | .escape _ _ high low => escapedByte high low = slash

/-- Wherever an escape is written, one pass from left to right takes it for one. -/
theorem hidesSlash_iff {text : Bytes} :
    HidesSlash text ↔ ∃ token ∈ tokens text, hidesSlash token = true := by
  constructor
  · rintro ⟨front, highCh, lowCh, back, high, low, rfl, isHigh, isLow, hslash⟩
    have noDigit : asciiHexValue percent = none := by decide
    refine ⟨.escape highCh lowCh high low, ?_, by simpa [hidesSlash] using hslash⟩
    rw [tokens_append noDigit, tokens_escape isHigh isLow]
    simp
  · rintro ⟨token, hmem, hides⟩
    obtain ⟨front, back, hcut⟩ := List.append_of_mem hmem
    have hspelling := tokens_spelling text
    cases token with
    | byte ch => cases hides
    | escape highCh lowCh high low =>
      obtain ⟨isHigh, isLow⟩ := tokens_sound text _ hmem
      refine ⟨front.flatMap Token.spelling, highCh, lowCh, back.flatMap Token.spelling, high, low,
        ?_, isHigh, isLow, by simpa [hidesSlash] using hides⟩
      rw [← hspelling, hcut]
      simp [Token.spelling]

theorem digit_ne_slash {ch : UInt8} {digit : Nat} (h : asciiHexValue ch = some digit) :
    ch ≠ slash := by
  rintro rfl
  exact absurd h (by decide +revert)

/-- Decoding adds a separator for every escape of one, and takes none away. -/
theorem count_decode (text : Bytes) : (percentDecode text).count slash =
    text.count slash + (tokens text).countP hidesSlash := by
  have hcount : ∀ ts : List Token, (∀ token ∈ ts, token.Sound) →
      (ts.map Token.value).count slash =
        (ts.flatMap Token.spelling).count slash + ts.countP hidesSlash := by
    intro ts sound
    induction ts with
    | nil => rfl
    | cons token ts ih =>
      have hrest := ih fun t ht => sound t (List.mem_cons_of_mem _ ht)
      have htoken : [token.value].count slash =
          token.spelling.count slash + [token].countP hidesSlash := by
        cases token with
        | byte ch => rfl
        | escape highCh lowCh high low =>
          obtain ⟨isHigh, isLow⟩ := sound _ List.mem_cons_self
          have hpercent : percent ≠ slash := by decide
          simp [Token.value, Token.spelling, hidesSlash, List.count_cons, List.countP_cons,
            digit_ne_slash isHigh, digit_ne_slash isLow, hpercent]
      rw [List.map_cons, ← List.singleton_append, List.count_append, htoken, hrest,
        List.flatMap_cons, List.count_append, ← List.singleton_append (l := ts),
        List.countP_append]
      omega
  rw [percentDecode_tokens, hcount _ (tokens_sound text), tokens_spelling]

theorem count_decode_iff (text : Bytes) :
    (percentDecode text).count slash = text.count slash ↔ ¬ HidesSlash text := by
  rw [count_decode, hidesSlash_iff]
  simp [List.countP_eq_zero]

/-- No escape reaches over a separator. -/
theorem hidesSlash_intercalate {pieces : List Bytes} :
    HidesSlash ([slash].intercalate pieces) ↔ ∃ piece ∈ pieces, HidesSlash piece := by
  have noDigit : asciiHexValue slash = none := by decide
  simp only [hidesSlash_iff]
  induction pieces with
  | nil => simp [tokens]
  | cons piece pieces ih =>
    by_cases hlast : pieces = []
    · subst hlast
      simp
    · rw [intercalate_cons hlast, tokens_append noDigit, tokens_plain slash_bare.1]
      simp only [List.mem_append, List.mem_cons, or_and_right, exists_or, ih, exists_eq_left]
      simp [hidesSlash]

/-- A literal stands for itself, a parameter for something. -/
def Stands (segment : Segment) (piece : Bytes) : Prop :=
  match segment.capture with
  | .none => piece = segment.text
  | .text => piece ≠ []
  | .number => piece ≠ [] ∧ ∀ ch ∈ piece, '0'.toUInt8 ≤ ch ∧ ch ≤ '9'.toUInt8
  | .rest => False

/-- What is captured piece by piece, in the order of the pattern. -/
def captured (pattern : Pattern) (pieces : List Bytes) : List PathParam :=
  (pattern.zip pieces).flatMap fun (segment, piece) => bound segment piece

/-- Behind the pieces for `front` comes one that is not empty, and no separator is hidden
from there on. -/
structure TailStands (front : Pattern) (segment : Segment) (pieces : List Bytes) : Prop where
  single : ∀ segment ∈ front, segment.capture ≠ .rest
  isRest : segment.capture = .rest
  more : front.length < pieces.length
  each : List.Forall₂ Stands front (pieces.take front.length)
  stands : pieces[front.length]? ≠ some []
  clear : ∀ piece ∈ pieces.drop front.length, ¬ HidesSlash piece

/-- A pattern with the pieces it matches, and the captures. -/
inductive Matched : Pattern → List Bytes → List PathParam → Prop where
  | pieces {pattern : Pattern} {pieces : List Bytes}
      (single : ∀ segment ∈ pattern, segment.capture ≠ .rest)
      (each : List.Forall₂ Stands pattern pieces) :
      Matched pattern pieces (captured pattern pieces)
  | rest {front : Pattern} {segment : Segment} {pieces : List Bytes}
      (tail : TailStands front segment pieces) :
      Matched (front ++ [segment]) pieces (captured front pieces ++
        [⟨segment.text, percentDecode ([slash].intercalate (pieces.drop front.length))⟩])

theorem takes_iff {segment : Segment} {piece : Bytes} :
    Takes segment piece ↔ Stands segment piece := by
  constructor
  · rintro ⟨single, accepted, stands⟩
    simp only [accepts] at accepted
    simp only [Stands]
    cases hcapture : segment.capture with
    | none => simpa [hcapture, eq_comm] using accepted
    | text => exact stands (by rw [hcapture]; rfl)
    | number =>
      refine ⟨stands (by rw [hcapture]; rfl), ?_⟩
      simpa [hcapture, allDigits, isDigit] using accepted
    | rest => exact single hcapture
  · intro h
    simp only [Stands] at h
    cases hcapture : segment.capture with
    | none =>
      rw [hcapture] at h
      exact ⟨by simp [hcapture], by simp [accepts, hcapture, h], by simp [hcapture, bindsAName]⟩
    | text =>
      rw [hcapture] at h
      exact ⟨by simp [hcapture], by simp [accepts, hcapture], fun _ => h⟩
    | number =>
      rw [hcapture] at h
      refine ⟨by simp [hcapture], ?_, fun _ => h.1⟩
      simpa [accepts, hcapture, allDigits, isDigit] using h.2
    | rest =>
      rw [hcapture] at h
      exact h.elim

theorem Stands.single {segment : Segment} {piece : Bytes} (h : Stands segment piece) :
    segment.capture ≠ .rest :=
  (takes_iff.mpr h).single

theorem takesRest_iff {segment : Segment} {piece : Bytes} {more : List Bytes} :
    TakesRest segment (piece :: more) ↔ segment.capture = .rest ∧ piece ≠ [] ∧
      ∀ p ∈ piece :: more, ¬ HidesSlash p := by
  have hclear : (percentDecode ([slash].intercalate (piece :: more))).count slash =
      ([slash].intercalate (piece :: more)).count slash ↔
        ∀ p ∈ piece :: more, ¬ HidesSlash p := by
    rw [count_decode_iff, hidesSlash_intercalate]
    push Not
    rfl
  constructor
  · rintro ⟨isRest, stands, separators⟩
    exact ⟨isRest, by simpa using stands, hclear.mp separators⟩
  · rintro ⟨isRest, stands, clear⟩
    exact ⟨isRest, by simpa using stands, hclear.mpr clear⟩

theorem Matched.cons {segment : Segment} {piece : Bytes} {pattern : Pattern} {pieces : List Bytes}
    {entries : List PathParam} (front : Stands segment piece)
    (tail : Matched pattern pieces entries) :
    Matched (segment :: pattern) (piece :: pieces) (bound segment piece ++ entries) := by
  have hsingle : ∀ {pattern : Pattern}, (∀ segment ∈ pattern, segment.capture ≠ .rest) →
      ∀ s ∈ segment :: pattern, s.capture ≠ .rest := by
    intro pattern single s hs
    rcases List.mem_cons.mp hs with rfl | hs
    · exact front.single
    · exact single s hs
  cases tail with
  | pieces single each => exact .pieces (hsingle single) (.cons front each)
  | @rest front' last _ tail =>
    have hfront : TailStands (segment :: front') last (piece :: pieces) :=
      ⟨hsingle tail.single, tail.isRest, Nat.succ_lt_succ tail.more, .cons front tail.each,
        tail.stands, tail.clear⟩
    have h := Matched.rest hfront
    simpa [captured] using h

theorem matched_of_fits {pattern : Pattern} {pieces : List Bytes} {entries : List PathParam}
    (h : Fits pattern pieces entries) : Matched pattern pieces entries := by
  induction h with
  | nil => exact .pieces (by simp) .nil
  | piece front tail ih => exact ih.cons (takes_iff.mp front)
  | @rest segment pieces h =>
    cases pieces with
    | nil => exact absurd h.stands (by simp)
    | cons piece more =>
      obtain ⟨isRest, stands, clear⟩ := takesRest_iff.mp h
      exact @Matched.rest [] _ _
        ⟨by simp, isRest, Nat.zero_lt_succ _, .nil, by simpa using stands, clear⟩

theorem fits_of_matched {pattern : Pattern} {pieces : List Bytes} {entries : List PathParam}
    (h : Matched pattern pieces entries) : Fits pattern pieces entries := by
  cases h with
  | pieces single each =>
    clear single
    induction each with
    | nil => exact .nil
    | cons front tail ih => exact .piece (takes_iff.mpr front) ih
  | @rest front segment pieces tail =>
    induction front generalizing pieces with
    | nil =>
      cases pieces with
      | nil => exact absurd tail.more (by simp)
      | cons piece more =>
        exact .rest (takesRest_iff.mpr ⟨tail.isRest, by simpa using tail.stands, tail.clear⟩)
    | cons s front ih =>
      cases pieces with
      | nil => exact absurd tail.more (by simp)
      | cons piece more =>
        rcases tail.each with - | ⟨hpiece, hmore⟩
        have hrest := ih ⟨fun s hs => tail.single s (List.mem_cons_of_mem _ hs), tail.isRest,
          Nat.lt_of_succ_lt_succ tail.more, hmore, tail.stands, tail.clear⟩
        have h := Fits.piece (takes_iff.mpr hpiece) hrest
        simpa [captured] using h

/-- The walk as it is called: what `out` points to is written on success only. -/
def Pattern.matchesInto (pattern : Pattern) (path : Bytes) (out : Option Params) :
    Bool × Option Params :=
  match pattern.matches path out.isSome with
  | some captured => (true, out.map fun _ => captured)
  | none => (false, out)

theorem matchesInto_eq (pattern : Pattern) (path : Bytes) (out : Option Params) :
    pattern.matchesInto path out =
      match pattern.matches path true with
      | some captured => (true, out.map fun _ => captured)
      | none => (false, out) := by
  cases out with
  | some params => rfl
  | none =>
    have h := matches_out pattern path
    simp only [Pattern.matchesInto, Option.isSome_none]
    cases hfalse : pattern.matches path false with
    | none =>
      rw [hfalse] at h
      rw [Option.isSome_eq_false_iff.mp h.symm |> Option.isNone_iff_eq_none.mp]
    | some kept =>
      rw [hfalse] at h
      obtain ⟨captured, hcaptured⟩ := Option.isSome_iff_exists.mp h.symm
      rw [hcaptured]
      rfl

/-- A pattern matches a path exactly as its segments stand for the pieces of the path,
whether or not the captures are asked for; and only then anything is written. -/
theorem matchesInto_matched (text path : Bytes) (out : Option Params) :
    (((compile text).matchesInto path out).1 = true ↔
      ∃ entries, Matched (compile text) (path.splitOn slash) entries) ∧
    (∀ entries, Matched (compile text) (path.splitOn slash) entries →
      ((compile text).matchesInto path out).2 = out.map fun _ => ⟨entries⟩) ∧
    (((compile text).matchesInto path out).1 = false →
      ((compile text).matchesInto path out).2 = out) := by
  have hmatches : ∀ entries, Matched (compile text) (path.splitOn slash) entries ↔
      (compile text).matches path true = some ⟨entries⟩ := fun entries =>
    ⟨fun h => matches_iff.mpr (fits_of_matched h), fun h => matched_of_fits (matches_iff.mp h)⟩
  simp only [hmatches, matchesInto_eq]
  cases (compile text).matches path true with
  | none => simp
  | some params => simpa using ⟨⟨params.entries, rfl⟩, fun entries h => by rw [h]⟩

example : (compile (bytes "/files/<path:name>")).matchesInto (bytes "/files/a%20b/c") (some {}) =
    (true, some ⟨[⟨bytes "name", bytes "a b/c"⟩]⟩) := by decide

end Carafe.Server
