import Carafe.Server.Captures
import Mathlib.Data.List.Forall2

/-!
# The notation of patterns

A segment of a pattern is a parameter if it has the form of one, and literal text else. No
two notations mean the same but that `str:` may be left out, and each pattern that has a
notation has one that can be computed from it.
-/

namespace Carafe.Server
open Http Search Segments

/-- What a pattern names a converter by. -/
def converterName : Capture → Bytes
  | .none => []
  | .text => bytes "str"
  | .number => bytes "int"
  | .rest => bytes "path"

/-- A name in brackets, or a converter, a colon and a name. -/
inductive Parameter : Bytes → Segment → Prop where
  | name {name : Bytes} (nonempty : name ≠ []) (bare : colon ∉ name) :
      Parameter (nameSegment name) ⟨name, .text⟩
  | converter {capture : Capture} {name : Bytes} (known : capture ≠ .none)
      (nonempty : name ≠ []) :
      Parameter (nameSegment (converterName capture ++ colon :: name)) ⟨name, capture⟩

/-- Anything else is literal text. -/
def Spells (text : Bytes) (segment : Segment) : Prop :=
  Parameter text segment ∨ (segment = ⟨text, .none⟩ ∧ ∀ other, ¬ Parameter text other)

/-- One notation of a segment. -/
def spelling (segment : Segment) : Bytes :=
  match segment.capture with
  | .none => segment.text
  | .text | .number | .rest => nameSegment (converterName segment.capture ++ colon :: segment.text)

def patternText (pattern : Pattern) : Bytes := [slash].intercalate (pattern.map spelling)

/-- The same segment in two notations. -/
def Alike (first second : Bytes) : Prop :=
  first = second ∨ ∃ name, name ≠ [] ∧ colon ∉ name ∧
    ((first = nameSegment name ∧ second = nameSegment (bytes "str:" ++ name)) ∨
      (second = nameSegment name ∧ first = nameSegment (bytes "str:" ++ name)))

/-- The test in front of the brackets. -/
theorem nameSegment_iff {text : Bytes} :
    ¬ (text.length < 3 ∨ text.head? ≠ some '<'.toUInt8 ∨ text.getLast? ≠ some '>'.toUInt8) ↔
      ∃ inner ≠ [], text = nameSegment inner := by
  constructor
  · intro h
    simp only [not_or, not_lt, not_not] at h
    obtain ⟨hlength, hhead, hlast⟩ := h
    cases text with
    | nil => cases hhead
    | cons ch rest =>
      obtain rfl : ch = '<'.toUInt8 := by simpa using hhead
      rcases List.eq_nil_or_concat rest with rfl | ⟨inner, last, rfl⟩
      · simp at hlength
      · rw [List.concat_eq_append] at hlength hlast ⊢
        rw [← List.cons_append, List.getLast?_concat] at hlast
        refine ⟨inner, ?_, by rw [nameSegment, Option.some.inj hlast]⟩
        rintro rfl
        simp at hlength
  · rintro ⟨inner, hne, rfl⟩
    have hlength := List.length_pos_of_ne_nil hne
    have hlast : (nameSegment inner).getLast? = some '>'.toUInt8 := by
      rw [nameSegment, ← List.cons_append, List.getLast?_concat]
    have hlong : ¬ (nameSegment inner).length < 3 := by
      simp [nameSegment]
      omega
    rintro (h | h | h)
    · exact hlong h
    · exact h rfl
    · exact h hlast

theorem captureFor_known {converter : Bytes} (h : captureFor converter ≠ .none) :
    converter = converterName (captureFor converter) := by
  unfold captureFor at h ⊢
  split
  · assumption
  split
  · assumption
  split
  · assumption
  · simp_all

theorem converterName_captureFor {capture : Capture} (known : capture ≠ .none) :
    captureFor (converterName capture) = capture ∧ colon ∉ converterName capture := by
  cases capture with
  | none => exact absurd rfl known
  | text | number | rest => decide

theorem find_colon {front : Bytes} (bare : colon ∉ front) (back : Bytes) :
    find colon 0 (front ++ colon :: back) = some front.length := by
  rw [find_zero]
  exact idxOf?_append_cons bare

theorem Parameter.compile {text : Bytes} {segment : Segment} (h : Parameter text segment) :
    compileSegment text = segment := by
  cases h with
  | name nonempty bare =>
    rw [compileSegment_brackets nonempty, find_eq_none_iff.mpr (by simpa using bare)]
  | @converter capture name known nonempty =>
    obtain ⟨hcapture, hbare⟩ := converterName_captureFor known
    rw [compileSegment_brackets (by simp), find_colon hbare]
    simp only [List.take_left, hcapture, List.drop_append, known, false_or]
    simp [nonempty]

theorem Parameter.known {text : Bytes} {segment : Segment} (h : Parameter text segment) :
    segment.capture ≠ .none := by
  cases h with
  | name => simp
  | converter known => exact known

theorem compileSegment_spells (text : Bytes) : Spells text (compileSegment text) := by
  by_cases hliteral : (compileSegment text).capture = .none
  · have hsegment := compileSegment_literal hliteral
    refine .inr ⟨hsegment, fun other h => h.known ?_⟩
    rw [← h.compile, hliteral]
  · left
    by_cases hbrackets : text.length < 3 ∨ text.head? ≠ some '<'.toUInt8 ∨
        text.getLast? ≠ some '>'.toUInt8
    · simp [compileSegment, if_pos hbrackets] at hliteral
    · obtain ⟨inner, hne, rfl⟩ := nameSegment_iff.mp hbrackets
      rw [compileSegment_brackets hne] at hliteral ⊢
      cases hcolon : find colon 0 inner with
      | none => exact .name hne (by simpa using find_eq_none_iff.mp hcolon)
      | some pos =>
        simp only [hcolon] at hliteral ⊢
        split at hliteral
        · exact absurd rfl hliteral
        · rename_i hknown
          rw [not_or] at hknown
          rw [if_neg (not_or.mpr hknown)]
          obtain ⟨front, back, hinner, -, rfl⟩ := find_some hcolon
          rw [List.drop_zero] at hinner
          have hfront : inner.take (0 + front.length) = front := by simp [hinner]
          have hback : inner.drop (0 + front.length + 1) = back := by simp [hinner]
          rw [hfront, hback] at hknown ⊢
          have hparameter := Parameter.converter hknown.1 hknown.2
          rw [← captureFor_known hknown.1] at hparameter
          rw [hinner]
          exact hparameter

/-- What a segment compiles to is what it spells. -/
theorem compileSegment_eq {text : Bytes} {segment : Segment} :
    compileSegment text = segment ↔ Spells text segment := by
  constructor
  · rintro rfl
    exact compileSegment_spells text
  · rintro (h | ⟨rfl, plain⟩)
    · exact h.compile
    · rcases compileSegment_spells text with h | ⟨h, -⟩
      · exact absurd h (plain _)
      · exact h

theorem spelling_spells {text : Bytes} {segment : Segment} (h : Spells text segment) :
    compileSegment (spelling segment) = segment := by
  rcases h with h | ⟨rfl, plain⟩
  · have hparameter : Parameter (spelling segment) segment := by
      cases h with
      | name nonempty => exact .converter (by simp) nonempty
      | @converter capture name known nonempty =>
        have hspelling : spelling ⟨name, capture⟩ =
            nameSegment (converterName capture ++ colon :: name) := by
          cases capture <;> first | rfl | exact absurd rfl known
        rw [hspelling]
        exact .converter known nonempty
    exact hparameter.compile
  · exact compileSegment_eq.mpr (.inr ⟨rfl, plain⟩)

theorem Parameter.alike {first second : Bytes} {segment : Segment} (h : Parameter first segment)
    (h' : Parameter second segment) : Alike first second := by
  cases h with
  | name nonempty bare =>
    cases h' with
    | name => exact .inl rfl
    | converter => exact .inr ⟨_, nonempty, bare, .inl ⟨rfl, rfl⟩⟩
  | converter known nonempty =>
    cases h' with
    | name nonempty' bare => exact .inr ⟨_, nonempty', bare, .inr ⟨rfl, rfl⟩⟩
    | converter => exact .inl rfl

theorem compileSegment_alike {first second : Bytes} :
    compileSegment first = compileSegment second ↔ Alike first second := by
  constructor
  · intro h
    have hsecond := compileSegment_spells second
    rw [← h] at hsecond
    rcases compileSegment_spells first with hparameter | ⟨hliteral, -⟩
    · rcases hsecond with hparameter' | ⟨hliteral', -⟩
      · exact hparameter.alike hparameter'
      · exact absurd (by rw [hliteral']) hparameter.known
    · rcases hsecond with hparameter' | ⟨hliteral', -⟩
      · exact absurd (by rw [hliteral]) hparameter'.known
      · rw [hliteral, Segment.mk.injEq] at hliteral'
        exact .inl hliteral'.1
  · rintro (rfl | ⟨name, nonempty, bare, ⟨rfl, rfl⟩ | ⟨rfl, rfl⟩⟩)
    · rfl
    · exact (Parameter.name nonempty bare).compile.trans
        (@Parameter.converter .text name (by simp) nonempty).compile.symm
    · exact (@Parameter.converter .text name (by simp) nonempty).compile.trans
        (Parameter.name nonempty bare).compile.symm

theorem spelling_plain {text : Bytes} (h : slash ∉ text) :
    slash ∉ spelling (compileSegment text) := by
  have hnames : ∀ {inner : Bytes}, slash ∉ nameSegment inner → slash ∉ inner := by
    intro inner hplain hmem
    exact hplain (by simp [nameSegment, hmem])
  have hconverter : ∀ capture, slash ∉ converterName capture := by
    intro capture
    cases capture <;> decide
  have hbrackets : ∀ {segment : Segment}, slash ∉ segment.text → slash ∉ spelling segment := by
    intro segment hplain
    have hcolon : slash ≠ colon := by decide
    have hinner : slash ∉ converterName segment.capture ++ colon :: segment.text := by
      simp [hconverter, hcolon, hplain]
    unfold spelling
    split
    · exact hplain
    · exact (nameSegment_plain hinner).1
    · exact (nameSegment_plain hinner).1
    · exact (nameSegment_plain hinner).1
  refine hbrackets ?_
  rcases compileSegment_spells text with hparameter | ⟨hliteral, -⟩
  · generalize compileSegment text = segment at hparameter
    cases hparameter with
    | name => exact hnames h
    | converter =>
      have hinner := hnames h
      rw [List.mem_append, List.mem_cons, not_or, not_or] at hinner
      exact hinner.2.2
  · rw [hliteral]
    exact h

theorem compile_eq {path : Bytes} {pattern : Pattern} :
    compile path = pattern ↔ List.Forall₂ Spells (path.splitOn slash) pattern := by
  rw [compile]
  generalize path.splitOn slash = texts
  induction texts generalizing pattern with
  | nil => simp [eq_comm]
  | cons text texts ih =>
    cases pattern with
    | nil => simp
    | cons segment pattern =>
      rw [List.map_cons, List.cons.injEq, List.forall₂_cons, compileSegment_eq, ih]

theorem compile_patternText (path : Bytes) : compile (patternText (compile path)) = compile path := by
  have hplain : ∀ piece ∈ (compile path).map spelling, slash ∉ piece := by
    intro piece hmem
    obtain ⟨segment, hsegment, rfl⟩ := List.mem_map.mp hmem
    obtain ⟨text, htext, rfl⟩ := List.mem_map.mp hsegment
    exact spelling_plain (not_mem_piece htext)
  have hne : (compile path).map spelling ≠ [] := by
    simp [compile, List.splitOn_ne_nil]
  rw [patternText, compile, List.splitOn_intercalate slash hplain hne, List.map_map]
  refine List.map_congr_left (g := id) (fun segment hsegment => ?_) |>.trans (List.map_id _)
  obtain ⟨text, -, rfl⟩ := List.mem_map.mp hsegment
  exact spelling_spells (compileSegment_spells text)

/-- A path is a pattern exactly as its segments spell it; one notation can be computed from
the pattern; and two notations are the same pattern only where `str:` is left out. -/
theorem compile_grammar (path : Bytes) :
    (∀ pattern, compile path = pattern ↔ List.Forall₂ Spells (path.splitOn slash) pattern) ∧
    compile (patternText (compile path)) = compile path ∧
    ∀ other, compile path = compile other ↔
      List.Forall₂ Alike (path.splitOn slash) (other.splitOn slash) := by
  refine ⟨fun pattern => compile_eq, compile_patternText path, fun other => ?_⟩
  rw [compile, compile, ← List.forall₂_eq_eq_eq, List.forall₂_map_left_iff,
    List.forall₂_map_right_iff]
  simp only [compileSegment_alike]

example : patternText (compile (bytes "/a/<int:n>/<x>/<>")) = bytes "/a/<int:n>/<str:x>/<>" := by
  decide

end Carafe.Server
