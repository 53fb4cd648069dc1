import Carafe.Server.Decoded
import Mathlib.Data.List.Forall2

/-!
# Values a client can mean

A client fills the captures of a pattern and spells the values as it likes, as long
as it escapes what would cut them. Such a target is accepted, and the captures are
bound to the values that were meant.
-/

namespace Carafe.Server
open Http Search Segments

/-- A byte that a value cannot hold as it stands. -/
def mustEscape (ch : UInt8) : Bool :=
  ch = percent ∨ ch = slash ∨ ch = questionMark ∨ ch = sp ∨ isCtl ch = true

/-- Any percent-encoding of a value: what need not be escaped may be, in either case. -/
inductive Encodes : Bytes → Bytes → Prop where
  | nil : Encodes [] []
  | plain {ch : UInt8} {value piece : Bytes} (free : mustEscape ch = false)
      (tail : Encodes value piece) : Encodes (ch :: value) (ch :: piece)
  | escaped {highCh lowCh : UInt8} {high low : Nat} {value piece : Bytes}
      (isHigh : asciiHexValue highCh = some high) (isLow : asciiHexValue lowCh = some low)
      (tail : Encodes value piece) :
      Encodes (escapedByte high low :: value) (percent :: highCh :: lowCh :: piece)

/-- A piece of a target that nothing cuts and nothing refuses. -/
structure Sendable (piece : Bytes) : Prop where
  noSlash : slash ∉ piece
  noQuery : questionMark ∉ piece
  noSpace : sp ∉ piece
  noCtl : containsCtl piece = false
  escapes : hasValidEscapes piece = true

theorem hasValidEscapes_plain {ch : UInt8} (bare : ch ≠ percent) (rest : Bytes) :
    hasValidEscapes (ch :: rest) = hasValidEscapes rest := by
  match rest with
  | [] => simp [hasValidEscapes, bare]
  | [_] => simp [hasValidEscapes, bare]
  | _ :: _ :: _ => rw [hasValidEscapes, if_pos bare]

theorem hasValidEscapes_escape {highCh lowCh : UInt8} {high low : Nat}
    (isHigh : asciiHexValue highCh = some high) (isLow : asciiHexValue lowCh = some low)
    (rest : Bytes) :
    hasValidEscapes (percent :: highCh :: lowCh :: rest) = hasValidEscapes rest := by
  have hdigit : ∀ ch : UInt8, (asciiHexValue ch).isSome = true → isHexDigit ch = true := by
    refine forall_byte ?_
    decide +kernel
  have hhigh := hdigit highCh (by rw [isHigh]; rfl)
  have hlow := hdigit lowCh (by rw [isLow]; rfl)
  simp [hasValidEscapes, hhigh, hlow]

theorem hasValidEscapes_append {front : Bytes} (h : Escaped (fun _ => True) front)
    (back : Bytes) : hasValidEscapes (front ++ back) = hasValidEscapes back := by
  induction h with
  | nil => rfl
  | plain bare tail ih => rw [List.cons_append, hasValidEscapes_plain bare, ih]
  | escape isHigh isLow _ tail ih =>
    rw [List.cons_append, List.cons_append, List.cons_append, hasValidEscapes_escape isHigh isLow,
      ih]

theorem Sendable.escaped {piece : Bytes} (h : Sendable piece) : Escaped (fun _ => True) piece :=
  Escaped.of_valid h.escapes

theorem hexDigit_sendable {ch : UInt8} {digit : Nat} (h : asciiHexValue ch = some digit) :
    mustEscape ch = false := by
  have hall : ∀ ch : UInt8, (asciiHexValue ch).isSome = true → mustEscape ch = false := by
    refine forall_byte ?_
    decide +kernel
  exact hall ch (by rw [h]; rfl)

theorem Sendable.nil : Sendable [] := by
  constructor <;> decide

theorem Sendable.cons {ch : UInt8} {piece : Bytes} (free : mustEscape ch = false)
    (h : Sendable piece) : Sendable (ch :: piece) := by
  simp only [mustEscape, decide_eq_false_iff_not, not_or, Bool.not_eq_true] at free
  obtain ⟨hpercent, hslash, hquestion, hsp, hctl⟩ := free
  refine ⟨?_, ?_, ?_, ?_, ?_⟩
  · simp [h.noSlash, Ne.symm hslash]
  · simp [h.noQuery, Ne.symm hquestion]
  · simp [h.noSpace, Ne.symm hsp]
  · have hrest := h.noCtl
    simp only [containsCtl] at hrest ⊢
    simp [hctl, hrest]
  · rw [hasValidEscapes_plain hpercent, h.escapes]

theorem Sendable.escape {highCh lowCh : UInt8} {high low : Nat} {piece : Bytes}
    (isHigh : asciiHexValue highCh = some high) (isLow : asciiHexValue lowCh = some low)
    (h : Sendable piece) : Sendable (percent :: highCh :: lowCh :: piece) := by
  have hdigits := (h.cons (hexDigit_sendable isLow)).cons (hexDigit_sendable isHigh)
  have hslash : slash ≠ percent := by decide
  have hquestion : questionMark ≠ percent := by decide
  have hsp : sp ≠ percent := by decide
  refine ⟨?_, ?_, ?_, ?_, ?_⟩
  · simpa [hslash] using hdigits.noSlash
  · simpa [hquestion] using hdigits.noQuery
  · simpa [hsp] using hdigits.noSpace
  · have hrest := hdigits.noCtl
    have hpercent : isCtl percent = false := by decide
    simp only [containsCtl, List.any_cons, hpercent, Bool.false_or] at hrest ⊢
    exact hrest
  · rw [hasValidEscapes_escape isHigh isLow]
    exact h.escapes

theorem Encodes.sendable {value piece : Bytes} (h : Encodes value piece) : Sendable piece := by
  induction h with
  | nil => exact .nil
  | plain free _ ih => exact ih.cons free
  | escaped isHigh isLow _ ih => exact ih.escape isHigh isLow

/-- Decoding once gives the value back. -/
theorem Encodes.decode {value piece : Bytes} (h : Encodes value piece) :
    percentDecode piece = value := by
  induction h with
  | nil => rfl
  | @plain ch value piece free tail ih =>
    have bare : ch ≠ percent := by
      rintro rfl
      exact absurd free (by decide)
    rw [percentDecode_plain bare, ih]
  | escaped isHigh isLow _ ih => rw [percentDecode_escape isHigh isLow, ih]

/-- So does decoding behind the first pass. -/
theorem Encodes.decode_resolved {value piece : Bytes} (h : Encodes value piece) :
    percentDecode (resolveEscapes piece) = value :=
  (decode_escaped h.sendable.escaped).trans h.decode

theorem Encodes.not_dots {value piece : Bytes} (h : Encodes value piece) (walked : Walked value) :
    isDots piece = false := by
  simp only [isDots, decide_eq_false_iff_not, not_or]
  constructor
  · intro heq
    have hvalue := h.decode_resolved
    rw [heq] at hvalue
    exact walked.1 hvalue.symm
  · intro heq
    have hvalue := h.decode_resolved
    rw [heq] at hvalue
    exact walked.2 hvalue.symm

theorem Encodes.ne_nil {value piece : Bytes} (h : Encodes value piece) (hne : value ≠ []) :
    resolveEscapes piece ≠ [] := by
  intro hnil
  have hvalue := h.decode_resolved
  rw [hnil] at hvalue
  exact hne hvalue.symm

/-- A segment of a pattern that stands for itself. -/
structure Literal (text : Bytes) : Prop where
  sendable : Sendable text
  plain : isDots text = false
  noCapture : (compileSegment (resolveEscapes text)).capture = .none

/-- A name that brackets make a capture of. -/
structure CaptureName (name : Bytes) : Prop where
  nonempty : name ≠ []
  noSlash : slash ∉ name
  noColon : colon ∉ name

def nameSegment (name : Bytes) : Bytes := '<'.toUInt8 :: (name ++ ['>'.toUInt8])

def pathSegment (name : Bytes) : Bytes := nameSegment (bytes "path:" ++ name)

/-- The segments of a pattern, a spelling of each, and the values that are meant. -/
inductive Means : List Bytes → List Bytes → List PathParam → Prop where
  | done : Means [] [] []
  | literal {text : Bytes} {texts pieces : List Bytes} {entries : List PathParam}
      (ok : Literal text) (tail : Means texts pieces entries) :
      Means (text :: texts) (text :: pieces) entries
  | name {name value piece : Bytes} {texts pieces : List Bytes} {entries : List PathParam}
      (ok : CaptureName name) (nonempty : value ≠ []) (walked : Walked value)
      (spelled : Encodes value piece) (tail : Means texts pieces entries) :
      Means (nameSegment name :: texts) (piece :: pieces)
        (⟨resolveEscapes name, value⟩ :: entries)
  | rest {name value piece : Bytes} {values pieces : List Bytes} (nonempty : name ≠ [])
      (noSlash : slash ∉ name) (first : value ≠ [])
      (plain : ∀ v ∈ value :: values, slash ∉ v ∧ Walked v)
      (spelled : List.Forall₂ Encodes (value :: values) (piece :: pieces)) :
      Means [pathSegment name] (piece :: pieces)
        [⟨resolveEscapes name, [slash].intercalate (value :: values)⟩]

theorem compileSegment_literal {text : Bytes} (h : (compileSegment text).capture = .none) :
    compileSegment text = ⟨text, .none⟩ := by
  unfold compileSegment at h ⊢
  split at h
  · rw [if_pos ‹_›]
  · rename_i hbrackets
    rw [if_neg hbrackets]
    dsimp only at h ⊢
    split at h
    · cases h
    · split at h
      · rename_i hcapture
        rw [if_pos hcapture]
      · rename_i hcapture
        exact False.elim (hcapture (Or.inl h))

theorem resolve_nameSegment (name : Bytes) :
    resolveEscapes (nameSegment name) = nameSegment (resolveEscapes name) := by
  have hopen : '<'.toUInt8 ≠ percent := by decide
  have hclose : '>'.toUInt8 ≠ percent ∧ asciiHexValue '>'.toUInt8 = none := by decide
  rw [nameSegment, resolveEscapes_plain hopen, resolveEscapes_cut hclose.1 hclose.2]
  rfl

/-- Between brackets, the text in front of a colon is a converter. -/
theorem compileSegment_brackets {inner : Bytes} (hne : inner ≠ []) :
    compileSegment (nameSegment inner) =
      match find colon 0 inner with
      | none => { text := inner, capture := .text }
      | some pos =>
        if captureFor (inner.take pos) = .none ∨ inner.drop (pos + 1) = [] then
          { text := nameSegment inner }
        else { text := inner.drop (pos + 1), capture := captureFor (inner.take pos) } := by
  have hlength : ¬ (nameSegment inner).length < 3 := by
    have := List.length_pos_of_ne_nil hne
    simp [nameSegment]
    omega
  have hlast : (nameSegment inner).getLast? = some '>'.toUInt8 := by
    rw [nameSegment, ← List.cons_append, List.getLast?_concat]
  have hinner : ((nameSegment inner).drop 1).take ((nameSegment inner).length - 2) = inner := by
    simp [nameSegment]
  have hbrackets : ¬ ((nameSegment inner).length < 3 ∨
      (nameSegment inner).head? ≠ some '<'.toUInt8 ∨
      (nameSegment inner).getLast? ≠ some '>'.toUInt8) := by
    rintro (h | h | h)
    · exact hlength h
    · exact h rfl
    · exact h hlast
  cases hcolon : find colon 0 inner with
  | none => simp only [compileSegment, if_neg hbrackets, hinner, hcolon]
  | some pos => simp only [compileSegment, if_neg hbrackets, hinner, hcolon]

theorem CaptureName.compile {name : Bytes} (h : CaptureName name) :
    compileSegment (resolveEscapes (nameSegment name)) = ⟨resolveEscapes name, .text⟩ := by
  have hcolon : colon ∉ resolveEscapes name := by
    intro hmem
    rcases mem_resolveEscapes hmem with hname | unreserved
    · exact h.noColon hname
    · exact absurd unreserved (by decide)
  have hne : resolveEscapes name ≠ [] := fun hnil => h.nonempty (resolveEscapes_eq_nil.mp hnil)
  rw [resolve_nameSegment, compileSegment_brackets hne, find_eq_none_iff.mpr (by simpa using hcolon)]

theorem resolve_pathSegment (name : Bytes) :
    resolveEscapes (pathSegment name) = pathSegment (resolveEscapes name) := by
  have hfront : ∀ rest, resolveEscapes (bytes "path:" ++ rest) =
      bytes "path:" ++ resolveEscapes rest := by
    intro rest
    have hcut := resolveEscapes_cut (x := colon) (by decide) (by decide) (bytes "path") rest
    have hpath : resolveEscapes (bytes "path") = bytes "path" := by decide
    rw [hpath] at hcut
    exact hcut
  rw [pathSegment, resolve_nameSegment, hfront]
  rfl

theorem compileSegment_path {name : Bytes} (h : name ≠ []) :
    compileSegment (resolveEscapes (pathSegment name)) = ⟨resolveEscapes name, .rest⟩ := by
  have hne : resolveEscapes name ≠ [] := fun hnil => h (resolveEscapes_eq_nil.mp hnil)
  have hfind : find colon 0 (bytes "path:" ++ resolveEscapes name) = some 4 := by
    have hfresh : colon ∉ bytes "path" := by decide
    rw [find_zero]
    exact idxOf?_append_cons hfresh
  have htake : (bytes "path:" ++ resolveEscapes name).take 4 = bytes "path" := rfl
  have hdrop : (bytes "path:" ++ resolveEscapes name).drop (4 + 1) = resolveEscapes name := rfl
  have hcapture : captureFor (bytes "path") = .rest := by decide
  rw [resolve_pathSegment, pathSegment, compileSegment_brackets (by simp [bytes]), hfind]
  simp only [htake, hdrop, hcapture, hne]
  simp

theorem nameSegment_plain {name : Bytes} (h : slash ∉ name) :
    slash ∉ nameSegment name ∧ isDots (nameSegment name) = false := by
  constructor
  · simp [nameSegment, h, show slash ≠ '<'.toUInt8 by decide, show slash ≠ '>'.toUInt8 by decide]
  · simp only [isDots, decide_eq_false_iff_not, not_or, resolve_nameSegment]
    have hopen : '<'.toUInt8 ≠ '.'.toUInt8 := by decide
    constructor
    · exact fun heq => hopen (List.cons.inj heq).1
    · exact fun heq => hopen (List.cons.inj heq).1

theorem Means.texts_plain {texts pieces : List Bytes} {entries : List PathParam}
    (h : Means texts pieces entries) :
    ∀ text ∈ texts, slash ∉ text ∧ isDots text = false := by
  induction h with
  | done => simp
  | literal ok tail ih =>
    intro text htext
    rcases List.mem_cons.mp htext with rfl | hmem
    · exact ⟨ok.sendable.noSlash, ok.plain⟩
    · exact ih text hmem
  | name ok nonempty walked spelled tail ih =>
    intro text htext
    rcases List.mem_cons.mp htext with rfl | hmem
    · exact nameSegment_plain ok.noSlash
    · exact ih text hmem
  | @rest name _ _ _ _ nonempty noSlash =>
    intro text htext
    rw [List.mem_singleton.mp htext]
    apply nameSegment_plain
    have hpath : slash ∉ bytes "path:" := by decide
    simp [hpath, noSlash]

theorem spelled_value {values pieces : List Bytes} (spelled : List.Forall₂ Encodes values pieces) :
    ∀ piece ∈ pieces, ∃ value ∈ values, Encodes value piece := by
  induction spelled with
  | nil => simp
  | @cons value piece values pieces hfirst _ ih =>
    intro piece' hpiece
    rcases List.mem_cons.mp hpiece with rfl | hmem
    · exact ⟨value, List.mem_cons_self, hfirst⟩
    · obtain ⟨value', hvalue, hspelled⟩ := ih piece' hmem
      exact ⟨value', List.mem_cons_of_mem _ hvalue, hspelled⟩

theorem Means.pieces_plain {texts pieces : List Bytes} {entries : List PathParam}
    (h : Means texts pieces entries) :
    ∀ piece ∈ pieces, Sendable piece ∧ isDots piece = false := by
  induction h with
  | done => simp
  | literal ok tail ih =>
    intro piece hpiece
    rcases List.mem_cons.mp hpiece with rfl | hmem
    · exact ⟨ok.sendable, ok.plain⟩
    · exact ih piece hmem
  | name ok nonempty walked spelled tail ih =>
    intro piece hpiece
    rcases List.mem_cons.mp hpiece with rfl | hmem
    · exact ⟨spelled.sendable, spelled.not_dots walked⟩
    · exact ih piece hmem
  | rest nonempty noSlash first plain spelled =>
    intro piece hpiece
    obtain ⟨value, hvalue, hspelled⟩ := spelled_value spelled piece hpiece
    exact ⟨hspelled.sendable, hspelled.not_dots (plain value hvalue).2⟩

/-- The rest of the path decodes to the values, joined as they were meant. -/
theorem spelled_rest {values pieces : List Bytes} (spelled : List.Forall₂ Encodes values pieces) :
    percentDecode ([slash].intercalate (pieces.map resolveEscapes)) =
      [slash].intercalate values := by
  have hescaped : ∀ piece ∈ pieces.map resolveEscapes,
      Escaped (fun byte => asciiUnreserved byte = false) piece := by
    intro piece hpiece
    obtain ⟨raw, hraw, rfl⟩ := List.mem_map.mp hpiece
    obtain ⟨value, -, hvalue⟩ := spelled_value spelled raw hraw
    exact hvalue.sendable.escaped.resolve
  rw [percentDecode_intercalate hescaped, List.map_map]
  congr 1
  induction spelled with
  | nil => rfl
  | cons hfirst _ ih =>
    rw [List.map_cons, ih fun piece hpiece => hescaped piece (List.mem_cons_of_mem _ hpiece)]
    rw [Function.comp_apply, hfirst.decode_resolved]

/-- The compiled pattern fits the normalised target, and captures what was meant. -/
theorem Means.fits {texts pieces : List Bytes} {entries : List PathParam}
    (h : Means texts pieces entries) :
    Fits (texts.map fun text => compileSegment (resolveEscapes text)) (pieces.map resolveEscapes)
      entries := by
  induction h with
  | done => exact .nil
  | @literal text texts pieces entries ok tail ih =>
    have hcompile := compileSegment_literal ok.noCapture
    rw [List.map_cons, List.map_cons, hcompile]
    exact .piece ⟨by simp, by simp [accepts], by simp [bindsAName]⟩ ih
  | @name name value piece texts pieces entries ok nonempty walked spelled tail ih =>
    rw [List.map_cons, List.map_cons, ok.compile, ← spelled.decode_resolved]
    exact .piece ⟨by simp, rfl, fun _ => spelled.ne_nil nonempty⟩ ih
  | @rest name value piece values pieces nonempty noSlash first plain spelled =>
    have hdecode := spelled_rest spelled
    rw [List.map_singleton, compileSegment_path nonempty, ← hdecode]
    refine .rest ⟨rfl, ⟨resolveEscapes piece, rfl, ?_⟩, ?_⟩
    · cases spelled with
      | cons hfirst _ => exact hfirst.ne_nil first
    · have hvalues := count_intercalate_fresh (List.cons_ne_nil value values)
        fun v hv => (plain v hv).1
      have hfresh : ∀ resolved ∈ (piece :: pieces).map resolveEscapes, slash ∉ resolved := by
        intro resolved hresolved
        obtain ⟨raw, hraw, rfl⟩ := List.mem_map.mp hresolved
        obtain ⟨v, -, hv⟩ := spelled_value spelled raw hraw
        exact slash_not_mem_resolved hv.sendable.noSlash
      have hpieces := count_intercalate_fresh (by simp) hfresh
      have hlength := spelled.length_eq
      rw [List.length_map] at hpieces
      rw [hdecode]
      omega

/-- Nothing, or a query that the parser lets through. -/
def QueryText (query : Bytes) : Prop :=
  query = [] ∨ ∃ text, query = questionMark :: text ∧ sp ∉ text ∧ containsCtl text = false ∧
    hasValidEscapes text = true

/-- The pieces of a target behind its leading slash. -/
def targetOf (pieces : List Bytes) (query : Bytes) : Bytes :=
  slash :: [slash].intercalate pieces ++ query

theorem mem_intercalate {x ch : UInt8} {pieces : List Bytes}
    (h : ch ∈ [x].intercalate pieces) : ch = x ∨ ∃ piece ∈ pieces, ch ∈ piece := by
  induction pieces with
  | nil => cases h
  | cons piece pieces ih =>
    by_cases hne : pieces = []
    · subst hne
      rw [intercalate_singleton] at h
      exact Or.inr ⟨piece, List.mem_cons_self, h⟩
    · rw [intercalate_cons hne, List.mem_append, List.mem_cons] at h
      rcases h with hpiece | rfl | hrest
      · exact Or.inr ⟨piece, List.mem_cons_self, hpiece⟩
      · exact Or.inl rfl
      · rcases ih hrest with heq | ⟨piece', hmem, hch⟩
        · exact Or.inl heq
        · exact Or.inr ⟨piece', List.mem_cons_of_mem _ hmem, hch⟩

theorem intercalate_escaped {pieces : List Bytes}
    (h : ∀ piece ∈ pieces, Escaped (fun _ => True) piece) :
    Escaped (fun _ => True) ([slash].intercalate pieces) := by
  have happend : ∀ {front : Bytes}, Escaped (fun _ => True) front → ∀ {back : Bytes},
      Escaped (fun _ => True) back → Escaped (fun _ => True) (front ++ back) := by
    intro front hfront back hback
    induction hfront with
    | nil => exact hback
    | plain bare _ ih => exact .plain bare ih
    | escape isHigh isLow byte _ ih => exact .escape isHigh isLow byte ih
  induction pieces with
  | nil => exact .nil
  | cons piece pieces ih =>
    have hpiece := h piece List.mem_cons_self
    by_cases hne : pieces = []
    · subst hne
      rwa [intercalate_singleton]
    · rw [intercalate_cons hne]
      exact happend hpiece
        (.plain slash_bare.1 (ih fun p hp => h p (List.mem_cons_of_mem _ hp)))

/-- The path of such a target holds no query mark, so the query is cut off where it starts. -/
theorem pathOf_targetOf {pieces : List Bytes} {query : Bytes}
    (sendable : ∀ piece ∈ pieces, Sendable piece) (h : QueryText query) :
    pathOf (targetOf pieces query) = slash :: [slash].intercalate pieces := by
  have hfresh : questionMark ∉ slash :: [slash].intercalate pieces := by
    rw [List.mem_cons, not_or]
    refine ⟨by decide, fun hmem => ?_⟩
    rcases mem_intercalate hmem with heq | ⟨piece, hpiece, hch⟩
    · exact absurd heq (by decide)
    · exact (sendable piece hpiece).noQuery hch
  unfold pathOf targetOf
  rcases h with rfl | ⟨text, rfl, -⟩
  · rw [List.append_nil, find_eq_none_iff.mpr (by simpa using hfresh)]
    simp
  · rw [find_zero, idxOf?_append_cons hfresh]
    simp

theorem targetOf_valid {pieces : List Bytes} {query : Bytes}
    (sendable : ∀ piece ∈ pieces, Sendable piece) (h : QueryText query) :
    TargetValid (targetOf pieces query) := by
  have hquery : sp ∉ query ∧ containsCtl query = false ∧ hasValidEscapes query = true := by
    rcases h with rfl | ⟨text, rfl, noSpace, noCtl, escapes⟩
    · decide
    · refine ⟨?_, ?_, ?_⟩
      · simp [noSpace, show sp ≠ questionMark by decide]
      · simp only [containsCtl] at noCtl ⊢
        simp [noCtl, show isCtl questionMark = false by decide]
      · rw [hasValidEscapes_plain (by decide), escapes]
  have hctl : ∀ ch ∈ [slash].intercalate pieces, isCtl ch = false := by
    intro ch hch
    rcases mem_intercalate hch with rfl | ⟨piece, hpiece, hmem⟩
    · decide
    · have hno := List.any_eq_false.mp (sendable piece hpiece).noCtl ch hmem
      simpa using hno
  have hspace : sp ∉ [slash].intercalate pieces := by
    intro hmem
    rcases mem_intercalate hmem with heq | ⟨piece, hpiece, hch⟩
    · exact absurd heq (by decide)
    · exact (sendable piece hpiece).noSpace hch
  have hescaped := intercalate_escaped fun piece hpiece => (sendable piece hpiece).escaped
  refine ⟨by simp [targetOf], ?_, ?_, ?_⟩
  · simp [targetOf, hspace, hquery.1, show sp ≠ slash by decide]
  · have hslash : containsCtl [slash] = false := by decide
    have hjoined : containsCtl ([slash].intercalate pieces) = false :=
      List.any_eq_false.mpr fun ch hch => by simp [hctl ch hch]
    rw [targetOf, List.cons_append, ← List.singleton_append, containsCtl_append,
      containsCtl_append, hslash, hjoined, hquery.2.1]
    rfl
  · rw [targetOf, List.cons_append, hasValidEscapes_plain (by decide),
      hasValidEscapes_append hescaped, hquery.2.2]

theorem Means.pieces_ne_nil {texts pieces : List Bytes} {entries : List PathParam}
    (h : Means texts pieces entries) (hne : texts ≠ []) : pieces ≠ [] := by
  cases h with
  | done => exact False.elim (hne rfl)
  | literal | name | rest => exact List.cons_ne_nil _ _

/-- Every target that spells some values of a pattern is accepted, and a router with that
route alone hands those values to its handler. -/
theorem Means.arrives {texts pieces : List Bytes} {entries : List PathParam}
    (h : Means texts pieces entries) (hne : texts ≠ []) {query : Bytes} (hquery : QueryText query)
    (method : Method) (version : Version) {η : Type} (handler : η) :
    parseRequestLine (RequestLine.text ⟨method, targetOf pieces query, version⟩) =
      .ok ⟨method, targetOf pieces query, version⟩ ∧
    (({} : Router η).add method (slash :: [slash].intercalate texts) handler).find method
      (targetOf pieces query) = ⟨some handler, true, ⟨entries⟩⟩ := by
  have hpieces := h.pieces_plain
  have sendable : ∀ piece ∈ pieces, Sendable piece := fun piece hpiece => (hpieces piece hpiece).1
  refine ⟨parseRequestLine_text (targetOf_valid sendable hquery), ?_⟩
  have htarget := normalizePath_rooted (h.pieces_ne_nil hne) fun piece hpiece =>
    ⟨(hpieces piece hpiece).1.noSlash, (hpieces piece hpiece).2⟩
  have hpattern := normalizePath_rooted hne h.texts_plain
  have hmatch : (compile (normalizePath (slash :: [slash].intercalate texts))).matches
      (routablePath (targetOf pieces query)) true = some ⟨entries⟩ := by
    rw [matches_iff, routablePath, pathOf_targetOf sendable hquery, htarget, compile, hpattern,
      List.map_cons, List.map_map]
    have hroot : Takes (compileSegment []) [] := ⟨by decide, rfl, by decide⟩
    exact .piece hroot h.fits
  simp [Router.find, Router.add, Router.scan, hmatch]

/-- A slash is meant, and arrives as one. -/
theorem Means.arrives_slash :
    (({} : Router Nat).add .get (slash :: [slash].intercalate
      [bytes "u", nameSegment (bytes "id")]) 7).find .get (targetOf [bytes "u", bytes "%2f"] []) =
        ⟨some 7, true, ⟨[⟨bytes "id", bytes "/"⟩]⟩⟩ := by
  have hliteral : Literal (bytes "u") := by
    refine ⟨⟨?_, ?_, ?_, ?_, ?_⟩, ?_, ?_⟩ <;> decide
  have hname : CaptureName (bytes "id") := ⟨by decide, by decide, by decide⟩
  have hspelled : Encodes (bytes "/") (bytes "%2f") :=
    @Encodes.escaped _ _ 2 15 _ _ (by decide) (by decide) .nil
  have hmeans : Means [bytes "u", nameSegment (bytes "id")] [bytes "u", bytes "%2f"]
      [⟨resolveEscapes (bytes "id"), bytes "/"⟩] :=
    .literal hliteral (.name hname (by decide) (by constructor <;> decide) hspelled .done)
  exact (hmeans.arrives (by simp) (Or.inl rfl) .get .http11 7).2

end Carafe.Server
