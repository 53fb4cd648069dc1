import Carafe.Server.Captures
import Carafe.Server.Matching
import Carafe.Server.Relative
import Mathlib.Algebra.Order.BigOperators.Group.List
import Mathlib.Algebra.Order.Group.Nat

/-!
# Routes behind other routes

The first registration of a method wins, so a route is dead where one ahead of it takes
every path that it takes. Whether it does can be read off the two patterns, segment by
segment. A rest does not take all that stands behind it: a text segment lets an escaped
separator through, and a rest refuses one.
-/

namespace Carafe.Server
open Http Segments

/-- A pattern and the pieces of a path fit, with some captures. -/
def Accepts (pattern : Pattern) (pieces : List Bytes) : Prop :=
  ∃ entries, Fits pattern pieces entries

theorem accepts_nil_right {pattern : Pattern} : Accepts pattern [] ↔ pattern = [] := by
  constructor
  · rintro ⟨entries, fits⟩
    exact (fits_nil.mp fits).1
  · rintro rfl
    exact ⟨[], .nil⟩

theorem accepts_nil_left {pieces : List Bytes} : Accepts [] pieces ↔ pieces = [] := by
  constructor
  · rintro ⟨entries, fits⟩
    cases fits
    rfl
  · rintro rfl
    exact ⟨[], .nil⟩

theorem accepts_cons {segment : Segment} {pattern : Pattern} {piece : Bytes} {more : List Bytes} :
    Accepts (segment :: pattern) (piece :: more) ↔
      (Stands segment piece ∧ Accepts pattern more) ∨
      (pattern = [] ∧ segment.capture = .rest ∧ piece ≠ [] ∧
        ∀ p ∈ piece :: more, ¬ HidesSlash p) := by
  constructor
  · rintro ⟨entries, fits⟩
    rcases fits_cons.mp fits with ⟨front, tail, -, fits⟩ | ⟨hlast, hrest, -⟩
    · exact .inl ⟨takes_iff.mp front, tail, fits⟩
    · exact .inr ⟨hlast, takesRest_iff.mp hrest⟩
  · rintro (⟨front, tail, fits⟩ | ⟨rfl, hrest⟩)
    · exact ⟨_, .piece (takes_iff.mpr front) fits⟩
    · exact ⟨_, .rest (takesRest_iff.mpr hrest)⟩

theorem matches_accepts {pattern : Pattern} {path : Bytes} :
    (pattern.matches path true).isSome = true ↔ Accepts pattern (path.splitOn slash) := by
  rw [Option.isSome_iff_exists]
  constructor
  · rintro ⟨params, h⟩
    exact ⟨params.entries, matches_iff.mp h⟩
  · rintro ⟨entries, fits⟩
    exact ⟨⟨entries⟩, matches_iff.mpr fits⟩

def clear (text : Bytes) : Bool := (tokens text).all fun token => !hidesSlash token

theorem clear_iff {text : Bytes} : clear text = true ↔ ¬ HidesSlash text := by
  simp [clear, hidesSlash_iff]

namespace Segment

/-- All that the second one stands for, the first one stands for too. -/
def covers (first second : Segment) : Bool :=
  match second.capture with
  | .none => accepts first second.text && (!bindsAName first.capture || second.text ≠ [])
  | .text => first.capture = .text
  | .number => first.capture = .text || first.capture = .number
  | .rest => false

/-- It does not stand for the empty piece. -/
def something (segment : Segment) : Bool := segment.capture ≠ .none || segment.text ≠ []

/-- No piece it takes hides a separator. -/
def isClear (segment : Segment) : Bool :=
  match segment.capture with
  | .none => clear segment.text
  | .text => false
  | .number | .rest => true

end Segment

namespace Pattern

/-- Whatever the second one fits, the first one fits too. -/
def covers : Pattern → Pattern → Bool
  | [], [] => true
  | first :: front, second :: more =>
    if first.capture = .rest then
      front = [] && second.something && (second :: more).all Segment.isClear
    else first.covers second && covers front more
  | _, _ => false

/-- With a segment behind a rest a pattern fits nothing. -/
def dead (pattern : Pattern) : Bool := pattern.dropLast.any fun segment => segment.capture = .rest

end Pattern

theorem stands_literal {segment : Segment} (h : segment.capture = .none) {piece : Bytes} :
    Stands segment piece ↔ piece = segment.text := by
  simp [Stands, h]

theorem stands_text {segment : Segment} (h : segment.capture = .text) {piece : Bytes} :
    Stands segment piece ↔ piece ≠ [] := by
  simp [Stands, h]

theorem stands_number {segment : Segment} (h : segment.capture = .number) {piece : Bytes} :
    Stands segment piece ↔
      piece ≠ [] ∧ ∀ ch ∈ piece, '0'.toUInt8 ≤ ch ∧ ch ≤ '9'.toUInt8 := by
  simp [Stands, h]

theorem stands_iff {segment : Segment} {piece : Bytes} : Stands segment piece ↔
    accepts segment piece = true ∧ (bindsAName segment.capture = true → piece ≠ []) := by
  rw [← takes_iff]
  constructor
  · exact fun h => ⟨h.accepted, h.stands⟩
  · rintro ⟨accepted, stands⟩
    refine ⟨fun hrest => ?_, accepted, stands⟩
    simp [accepts, hrest] at accepted

namespace Segment

theorem covers_literal {first second : Segment} (h : second.capture = .none) :
    first.covers second = true ↔ Stands first second.text := by
  rw [stands_iff, covers, h]
  cases bindsAName first.capture <;> simp

theorem covers_single {first second : Segment} (h : first.covers second = true) :
    second.capture ≠ .rest := by
  intro hrest
  simp [covers, hrest] at h

theorem covers_stands {first second : Segment} (h : first.covers second = true) {piece : Bytes}
    (stands : Stands second piece) : Stands first piece := by
  cases hsecond : second.capture with
  | none =>
    rw [(stands_literal hsecond).mp stands]
    exact (covers_literal hsecond).mp h
  | text =>
    have hfirst : first.capture = .text := by simpa [covers, hsecond] using h
    exact (stands_text hfirst).mpr ((stands_text hsecond).mp stands)
  | number =>
    have hdigits := (stands_number hsecond).mp stands
    have hfirst : first.capture = .text ∨ first.capture = .number := by
      simpa [covers, hsecond] using h
    rcases hfirst with hfirst | hfirst
    · exact (stands_text hfirst).mpr hdigits.1
    · exact (stands_number hfirst).mpr hdigits
  | rest => exact absurd hsecond stands.single

theorem isClear_stands {segment : Segment} (h : segment.isClear = true) {piece : Bytes}
    (stands : Stands segment piece) : ¬ HidesSlash piece := by
  cases hcapture : segment.capture with
  | none =>
    rw [(stands_literal hcapture).mp stands]
    simpa [isClear, hcapture, clear_iff] using h
  | text => simp [isClear, hcapture] at h
  | number =>
    rintro ⟨front, highCh, lowCh, back, high, low, rfl, -⟩
    have hpercent := ((stands_number hcapture).mp stands).2 percent (by simp)
    exact absurd hpercent (by decide)
  | rest => exact absurd hcapture stands.single

theorem something_stands {segment : Segment} (h : segment.something = true) {piece : Bytes}
    (stands : Stands segment piece) : piece ≠ [] := by
  cases hcapture : segment.capture with
  | none =>
    rw [(stands_literal hcapture).mp stands]
    simpa [something, hcapture] using h
  | text => exact (stands_text hcapture).mp stands
  | number => exact ((stands_number hcapture).mp stands).1
  | rest => exact absurd hcapture stands.single

end Segment

/-- Clear segments take clear pieces. -/
theorem clear_pieces {pattern : Pattern} (clear : pattern.all Segment.isClear = true)
    {pieces : List Bytes} (accepts : Accepts pattern pieces) :
    ∀ piece ∈ pieces, ¬ HidesSlash piece := by
  induction pattern generalizing pieces with
  | nil => simp [accepts_nil_left.mp accepts]
  | cons segment pattern ih =>
    cases pieces with
    | nil => nofun
    | cons piece pieces =>
      rw [List.all_cons, Bool.and_eq_true] at clear
      rcases accepts_cons.mp accepts with ⟨hstands, haccepts⟩ | ⟨-, -, -, hclear⟩
      · intro p hp
        rcases List.mem_cons.mp hp with rfl | hp
        · exact Segment.isClear_stands clear.1 hstands
        · exact ih clear.2 haccepts p hp
      · exact hclear

theorem Pattern.covers_fits {first second : Pattern} (h : first.covers second = true)
    {pieces : List Bytes} (accepts : Accepts second pieces) : Accepts first pieces := by
  fun_induction Pattern.covers first second generalizing pieces with
  | case1 => exact accepts
  | case2 first front second more hrest =>
    simp only [Bool.and_eq_true, decide_eq_true_eq] at h
    obtain ⟨⟨rfl, hsomething⟩, hclear⟩ := h
    cases pieces with
    | nil => cases accepts_nil_right.mp accepts
    | cons piece pieces =>
      have hpiece : piece ≠ [] := by
        rcases accepts_cons.mp accepts with ⟨hstands, -⟩ | ⟨-, -, hne, -⟩
        · exact Segment.something_stands hsomething hstands
        · exact hne
      exact accepts_cons.mpr (.inr ⟨rfl, hrest, hpiece, clear_pieces hclear accepts⟩)
  | case3 first front second more hrest ih =>
    rw [Bool.and_eq_true] at h
    cases pieces with
    | nil => cases accepts_nil_right.mp accepts
    | cons piece pieces =>
      rcases accepts_cons.mp accepts with ⟨hstands, haccepts⟩ | ⟨-, hsecond, -⟩
      · exact accepts_cons.mpr (.inl ⟨Segment.covers_stands h.1 hstands, ih h.2 haccepts⟩)
      · exact absurd hsecond (Segment.covers_single h.1)
  | case4 => cases h

theorem Pattern.dead_iff {pattern : Pattern} : pattern.dead = true ↔
    ∃ segment ∈ pattern.dropLast, segment.capture = .rest := by
  simp [Pattern.dead]

/-- A dead pattern fits nothing. -/
theorem Pattern.dead_fits {pattern : Pattern} (h : pattern.dead = true) (pieces : List Bytes) :
    ¬ Accepts pattern pieces := by
  obtain ⟨segment, hmem, hrest⟩ := Pattern.dead_iff.mp h
  rintro ⟨entries, fits⟩
  obtain ⟨i, hi, hget⟩ := List.mem_iff_getElem.mp hmem
  rw [List.length_dropLast] at hi
  have position : pattern[i]? = some segment := by
    rw [← hget, List.getElem_dropLast, List.getElem?_eq_getElem]
  have hlast := (fits.rest_last position hrest).1
  omega

theorem Pattern.dead_cons {segment : Segment} {pattern : Pattern}
    (h : Pattern.dead (segment :: pattern) = false) :
    pattern.dead = false ∧ (segment.capture = .rest → pattern = []) := by
  cases pattern with
  | nil => exact ⟨rfl, fun _ => rfl⟩
  | cons next pattern =>
    simp only [Pattern.dead, List.dropLast_cons_cons, List.any_cons, Bool.or_eq_false_iff,
      decide_eq_false_iff_not] at h
    exact ⟨h.2, fun hrest => absurd hrest h.1⟩

section Apart
variable (size : Nat)

def digitsPiece : Bytes := List.replicate (size + 1) '0'.toUInt8

def escapedPiece : Bytes := bytes "%2F" ++ List.replicate size 'a'.toUInt8

def lettersPiece : Bytes := List.replicate (size + 1) 'a'.toUInt8

/-- The pieces of a path that tells patterns apart: they are longer than any literal, its text
pieces hide a separator, and a rest is one piece and then empty ones, more of them than a
pattern has segments. -/
def piecesFor (segment : Segment) : List Bytes :=
  match segment.capture with
  | .none => [segment.text]
  | .text => [escapedPiece size]
  | .number => [digitsPiece size]
  | .rest => lettersPiece size :: List.replicate size []

/-- A path for a pattern. -/
def apart (pattern : Pattern) : List Bytes := pattern.flatMap (piecesFor size)

/-- No literal or pattern is that long. -/
structure Smaller (pattern : Pattern) : Prop where
  segments : pattern.length ≤ size
  literals : ∀ segment ∈ pattern, segment.text.length ≤ size

variable {size : Nat}

theorem HidesSlash.percent_mem {text : Bytes} (h : HidesSlash text) : percent ∈ text := by
  obtain ⟨front, highCh, lowCh, back, high, low, rfl, -⟩ := h
  simp

theorem escaped_hides : HidesSlash (escapedPiece size) :=
  ⟨[], '2'.toUInt8, 'F'.toUInt8, List.replicate size 'a'.toUInt8, 2, 15, rfl, by decide, by decide,
    by decide⟩

theorem letters_clear : ¬ HidesSlash (lettersPiece size) := by
  intro hides
  have hletter := List.eq_of_mem_replicate hides.percent_mem
  exact absurd hletter (by decide)

theorem piece_stands {segment : Segment} (single : segment.capture ≠ .rest) :
    ∃ piece, piecesFor size segment = [piece] ∧ Stands segment piece := by
  cases hcapture : segment.capture with
  | none =>
    exact ⟨segment.text, by simp [piecesFor, hcapture], (stands_literal hcapture).mpr rfl⟩
  | text =>
    exact ⟨escapedPiece size, by simp [piecesFor, hcapture],
      (stands_text hcapture).mpr (by simp [escapedPiece, bytes])⟩
  | number =>
    refine ⟨digitsPiece size, by simp [piecesFor, hcapture],
      (stands_number hcapture).mpr ⟨by simp [digitsPiece], fun ch hch => ?_⟩⟩
    rw [List.eq_of_mem_replicate hch]
    decide
  | rest => exact absurd hcapture single

theorem accepts_blank {pattern : Pattern} {n : Nat} (h : Accepts pattern (List.replicate n [])) :
    pattern.length = n := by
  induction pattern generalizing n with
  | nil =>
    have hn : n = 0 := by simpa using accepts_nil_left.mp h
    exact hn.symm
  | cons segment pattern ih =>
    cases n with
    | zero => cases accepts_nil_right.mp h
    | succ n =>
      rcases accepts_cons.mp h with ⟨-, hmore⟩ | ⟨-, -, hne, -⟩
      · rw [List.length_cons, ih hmore]
      · exact absurd rfl hne

theorem apart_cons {segment : Segment} {pattern : Pattern} {piece : Bytes}
    (own : piecesFor size segment = [piece]) :
    apart size (segment :: pattern) = piece :: apart size pattern := by
  rw [apart, List.flatMap_cons, own]
  rfl

theorem apart_rest {segment : Segment} (isRest : segment.capture = .rest) :
    apart size [segment] = lettersPiece size :: List.replicate size [] := by
  simp [apart, piecesFor, isRest]

theorem rest_accepts {segment : Segment} (isRest : segment.capture = .rest) :
    Accepts [segment] (apart size [segment]) := by
  rw [apart_rest isRest]
  refine accepts_cons.mpr (.inr ⟨rfl, isRest, by simp [lettersPiece], fun p hp => ?_⟩)
  rcases List.mem_cons.mp hp with rfl | hp
  · exact letters_clear
  · rw [List.eq_of_mem_replicate hp]
    exact clear_iff.mp rfl

/-- The pattern accepts its own path. -/
theorem accepts_apart {pattern : Pattern} (usable : pattern.dead = false) :
    Accepts pattern (apart size pattern) := by
  induction pattern with
  | nil => exact accepts_nil_left.mpr rfl
  | cons segment pattern ih =>
    obtain ⟨htail, hrest⟩ := Pattern.dead_cons usable
    by_cases isRest : segment.capture = .rest
    · rw [hrest isRest]
      exact rest_accepts isRest
    · obtain ⟨piece, own, stands⟩ := @piece_stands size segment isRest
      rw [apart_cons own]
      exact accepts_cons.mpr (.inl ⟨stands, ih htail⟩)

/-- On this path a smaller segment takes the piece of one that it covers, and no other. -/
theorem covers_of_stands {first second : Segment} (small : first.text.length ≤ size)
    (single : second.capture ≠ .rest) {piece : Bytes} (own : piecesFor size second = [piece])
    (stands : Stands first piece) : first.covers second = true := by
  have notLiteral : size < piece.length → first.capture ≠ .none := by
    intro hlong hfirst
    rw [(stands_literal hfirst).mp stands] at hlong
    omega
  cases hsecond : second.capture with
  | none =>
    obtain rfl : second.text = piece := by simpa [piecesFor, hsecond] using own
    exact (Segment.covers_literal hsecond).mpr stands
  | text =>
    obtain rfl : escapedPiece size = piece := by simpa [piecesFor, hsecond] using own
    have hlong : size < (escapedPiece size).length := by
      simp [escapedPiece, bytes]
      omega
    cases hfirst : first.capture with
    | text => simp [Segment.covers, hsecond, hfirst]
    | none => exact absurd hfirst (notLiteral hlong)
    | number =>
      have hpercent := ((stands_number hfirst).mp stands).2 percent escaped_hides.percent_mem
      exact absurd hpercent (by decide)
    | rest => exact absurd hfirst stands.single
  | number =>
    obtain rfl : digitsPiece size = piece := by simpa [piecesFor, hsecond] using own
    have hlong : size < (digitsPiece size).length := by simp [digitsPiece]
    cases hfirst : first.capture with
    | text | number => simp [Segment.covers, hsecond, hfirst]
    | none => exact absurd hfirst (notLiteral hlong)
    | rest => exact absurd hfirst stands.single
  | rest => exact absurd hsecond single

/-- A pattern whose path hides no separator cannot take one. -/
theorem isClear_of_apart {pattern : Pattern}
    (clear : ∀ piece ∈ apart size pattern, ¬ HidesSlash piece) :
    pattern.all Segment.isClear = true := by
  refine List.all_eq_true.mpr fun segment hmem => ?_
  have own : ∀ piece ∈ piecesFor size segment, ¬ HidesSlash piece :=
    fun piece hpiece => clear piece (List.mem_flatMap.mpr ⟨segment, hmem, hpiece⟩)
  cases hcapture : segment.capture with
  | none => simpa [Segment.isClear, hcapture, clear_iff, piecesFor] using own
  | text => exact absurd escaped_hides (own (escapedPiece size) (by simp [piecesFor, hcapture]))
  | number | rest => simp [Segment.isClear, hcapture]

/-- And a smaller pattern takes it only if it covers the other. -/
theorem covers_of_apart {first second : Pattern} (usable : second.dead = false)
    (small : Smaller size first) (accepts : Accepts first (apart size second)) :
    first.covers second = true := by
  induction second generalizing first with
  | nil =>
    obtain rfl := accepts_nil_right.mp accepts
    rfl
  | cons second more ih =>
    obtain ⟨htail, hrest⟩ := Pattern.dead_cons usable
    cases first with
    | nil =>
      have hnil := accepts_nil_left.mp accepts
      cases hsecond : second.capture <;> simp [apart, piecesFor, hsecond] at hnil
    | cons first front =>
      have smallFront : Smaller size front := by
        have hsegments := small.segments
        rw [List.length_cons] at hsegments
        exact ⟨by omega, fun s hs => small.literals s (List.mem_cons_of_mem _ hs)⟩
      by_cases isRest : second.capture = .rest
      · obtain rfl := hrest isRest
        rw [apart_rest isRest] at accepts
        rcases accepts_cons.mp accepts with ⟨-, hblank⟩ | ⟨rfl, hfirst, -⟩
        · have hlength := accepts_blank hblank
          have hsegments := small.segments
          rw [List.length_cons] at hsegments
          omega
        · simp [Pattern.covers, hfirst, Segment.something, Segment.isClear, isRest]
      · obtain ⟨piece, own, -⟩ := @piece_stands size second isRest
        have hclear := @isClear_of_apart size (second :: more)
        rw [apart_cons own] at accepts hclear
        rcases accepts_cons.mp accepts with ⟨stands, hmore⟩ | ⟨rfl, hfirst, hne, hplain⟩
        · have hsegment := covers_of_stands (small.literals first List.mem_cons_self) isRest own
            stands
          simp [Pattern.covers, stands.single, hsegment, ih htail smallFront hmore]
        · have hsomething : second.something = true := by
            cases hsecond : second.capture with
            | none =>
              obtain rfl : second.text = piece := by simpa [piecesFor, hsecond] using own
              simpa [Segment.something, hsecond] using hne
            | text | number | rest => simp [Segment.something, hsecond]
          rw [Pattern.covers, if_pos hfirst, hsomething, hclear hplain]
          rfl

theorem apart_plain {pattern : Pattern}
    (literals : ∀ segment ∈ pattern, segment.capture = .none → slash ∉ segment.text) :
    ∀ piece ∈ apart size pattern, slash ∉ piece := by
  have letters : ∀ (n : Nat) (ch : UInt8), ch ≠ slash → slash ∉ List.replicate n ch := by
    intro n ch hne hmem
    exact hne (List.eq_of_mem_replicate hmem).symm
  intro piece hmem
  obtain ⟨segment, hsegment, hpiece⟩ := List.mem_flatMap.mp hmem
  cases hcapture : segment.capture with
  | none =>
    obtain rfl : piece = segment.text := by simpa [piecesFor, hcapture] using hpiece
    exact literals segment hsegment hcapture
  | text =>
    obtain rfl : piece = escapedPiece size := by simpa [piecesFor, hcapture] using hpiece
    refine List.not_mem_append (by decide) (letters _ _ (by decide))
  | number =>
    obtain rfl : piece = digitsPiece size := by simpa [piecesFor, hcapture] using hpiece
    exact letters _ _ (by decide)
  | rest =>
    rw [piecesFor, hcapture] at hpiece
    rcases List.mem_cons.mp hpiece with rfl | hblank
    · exact letters _ _ (by decide)
    · rw [List.eq_of_mem_replicate hblank]
      exact List.not_mem_nil

/-- Some number is large enough for all patterns of a list. -/
theorem exists_smaller (patterns : List Pattern) : ∃ size, ∀ pattern ∈ patterns,
    Smaller size pattern := by
  let length : Segment → Nat := fun segment => segment.text.length
  let bound : Pattern → Nat := fun pattern => pattern.length + (pattern.map length).sum
  refine ⟨(patterns.map bound).sum, fun pattern hmem => ?_⟩
  have hall : bound pattern ≤ (patterns.map bound).sum :=
    List.le_sum_of_mem (List.mem_map_of_mem hmem)
  constructor
  · exact Nat.le_trans (Nat.le_add_right _ _) hall
  · intro segment hsegment
    have hone : length segment ≤ (pattern.map length).sum :=
      List.le_sum_of_mem (List.mem_map_of_mem hsegment)
    exact Nat.le_trans (Nat.le_trans hone (Nat.le_add_left _ _)) hall

end Apart

theorem compile_plain (text : Bytes) : ∀ segment ∈ compile text, segment.capture = .none →
    slash ∉ segment.text := by
  intro segment hmem literal
  obtain ⟨piece, hpiece, rfl⟩ := List.mem_map.mp hmem
  rw [compileSegment_literal literal]
  exact not_mem_piece hpiece

/-- Where no pattern of a list covers this one, some path takes this one past all of them. -/
theorem exists_apart (text : Bytes) (usable : (compile text).dead = false)
    (patterns : List Pattern)
    (uncovered : ∀ pattern ∈ patterns, pattern.covers (compile text) = false) :
    ∃ path : Bytes, Accepts (compile text) (path.splitOn slash) ∧
      ∀ pattern ∈ patterns, ¬ Accepts pattern (path.splitOn slash) := by
  obtain ⟨size, small⟩ := exists_smaller patterns
  have hown := @accepts_apart size _ usable
  have hne : apart size (compile text) ≠ [] := by
    intro hnil
    rw [hnil] at hown
    exact List.splitOn_ne_nil slash text (List.map_eq_nil_iff.mp (accepts_nil_right.mp hown))
  have hsplit := List.splitOn_intercalate slash (apart_plain (compile_plain text)) hne
  refine ⟨[slash].intercalate (apart size (compile text)), by rwa [hsplit], ?_⟩
  intro pattern hmem accepts
  rw [hsplit] at accepts
  have hcovers := covers_of_apart usable (small pattern hmem) accepts
  rw [uncovered pattern hmem] at hcovers
  cases hcovers

namespace Router
variable {η : Type}

/-- What an entry is registered with. -/
abbrev Entry (η : Type) := Method × Bytes × η

/-- The pattern takes nothing, or one ahead of it of its method takes all that it takes. -/
def redundant (before : List (Entry η)) (method : Method) (path : Bytes) : Bool :=
  (compile (normalizePath path)).dead || before.any fun entry =>
    entry.1 = method && (compile (normalizePath entry.2.1)).covers (compile (normalizePath path))

theorem redundant_taken {before : List (Entry η)} {method : Method} {path : Bytes}
    (h : redundant before method path = true) {pieces : List Bytes}
    (accepts : Accepts (compile (normalizePath path)) pieces) :
    ∃ entry ∈ before, entry.1 = method ∧ Accepts (compile (normalizePath entry.2.1)) pieces := by
  rcases Bool.or_eq_true_iff.mp h with hdead | hcovered
  · exact absurd accepts (Pattern.dead_fits hdead pieces)
  · obtain ⟨entry, hmem, hentry⟩ := List.any_eq_true.mp hcovered
    simp only [Bool.and_eq_true, decide_eq_true_eq] at hentry
    exact ⟨entry, hmem, hentry.1, Pattern.covers_fits hentry.2 accepts⟩

/-- Whether a registration is ever reached can be read off the patterns, one by one: no two
ahead of it take together what none of them takes alone. -/
theorem redundant_iff (before : List (Entry η)) (method : Method) (path : Bytes) :
    redundant before method path = true ↔
      ∀ served, ((compile (normalizePath path)).matches served true).isSome = true →
        ∃ entry ∈ before, entry.1 = method ∧
          ((compile (normalizePath entry.2.1)).matches served true).isSome = true := by
  simp only [matches_accepts]
  constructor
  · exact fun h served => redundant_taken h
  · intro h
    by_contra hneeded
    simp only [redundant, Bool.or_eq_true, List.any_eq_true, Bool.and_eq_true, decide_eq_true_eq,
      not_or, not_exists, not_and, Bool.not_eq_true] at hneeded
    obtain ⟨usable, uncovered⟩ := hneeded
    let patterns := (before.filter fun entry => entry.1 = method).map fun entry =>
      compile (normalizePath entry.2.1)
    have hall : ∀ pattern ∈ patterns, pattern.covers (compile (normalizePath path)) = false := by
      intro pattern hmem
      obtain ⟨entry, hentry, rfl⟩ := List.mem_map.mp hmem
      rw [List.mem_filter, decide_eq_true_eq] at hentry
      exact uncovered entry hentry.1 hentry.2
    obtain ⟨served, accepts, refused⟩ := exists_apart _ usable patterns hall
    obtain ⟨entry, hmem, hmethod, haccepts⟩ := h served accepts
    refine refused _ (List.mem_map_of_mem (List.mem_filter.mpr ⟨hmem, ?_⟩)) haccepts
    exact decide_eq_true hmethod

/-- A rest does not take the escaped separator that a name takes. -/
example : redundant [(.get, bytes "/a/<path:p>", ())] .get (bytes "/a/<int:n>/b") = true ∧
    redundant [(.get, bytes "/a/<path:p>", ())] .get (bytes "/a/<id>") = false := by decide

/-- A route ahead of this one, of its method, takes all that it takes. -/
def Shadowed (before : List (Route η)) (route : Route η) : Prop :=
  ∀ path, route.serves path = true →
    ∃ ahead ∈ before, ahead.method = route.method ∧ ahead.serves path = true

theorem first_append (method : Method) (path : Bytes) (before after : List (Route η)) :
    first method path (before ++ after) =
      (first method path before).or (first method path after) :=
  List.findSome?_append

theorem Shadowed.first {before : List (Route η)} {route : Route η} (h : Shadowed before route)
    (method : Method) (path : Bytes) (after : List (Route η)) :
    Router.first method path (before ++ route :: after) =
      Router.first method path (before ++ after) := by
  rw [first_append, first_append, first_cons]
  split
  · rename_i hmethod
    cases hmatch : route.pattern.matches path true with
    | none => rfl
    | some params =>
      obtain ⟨ahead, hmem, hsame, hserves⟩ := h path (by rw [Route.serves, hmatch]; rfl)
      have hfound := first_isSome.mpr ⟨ahead, hmem, hserves, hsame.trans hmethod⟩
      obtain ⟨found, hfirst⟩ := Option.isSome_iff_exists.mp hfound
      rw [hfirst]
      rfl
  · rw [Option.none_or]

theorem Shadowed.any {before : List (Route η)} {route : Route η} (h : Shadowed before route)
    (path : Bytes) (after : List (Route η)) :
    (before ++ route :: after).any (·.serves path) = (before ++ after).any (·.serves path) := by
  rw [List.any_append, List.any_append, List.any_cons]
  cases hserves : route.serves path with
  | false => rfl
  | true =>
    obtain ⟨ahead, hmem, -, hahead⟩ := h path hserves
    have hbefore : before.any (·.serves path) = true := List.any_eq_true.mpr ⟨ahead, hmem, hahead⟩
    rw [hbefore, Bool.true_or, Bool.true_or]

/-- Its method is there already. -/
theorem Shadowed.allow {before : List (Route η)} {route : Route η} (h : Shadowed before route)
    (path : Bytes) : Router.allow path (before.foldl (Router.allow path) []) route =
      before.foldl (Router.allow path) [] := by
  have hthere : route.serves path = true → ∀ method, Handles route.method method →
      method ∈ before.foldl (Router.allow path) [] := by
    intro serves method handles
    obtain ⟨ahead, hmem, hsame, hserves⟩ := h path serves
    exact mem_foldl_allow.mpr (.inr ⟨ahead, hmem, hserves, hsame ▸ handles⟩)
  generalize before.foldl (Router.allow path) [] = known at hthere ⊢
  have hout := matches_out route.pattern path
  unfold Router.allow
  cases hmatch : route.pattern.matches path false with
  | none => rfl
  | some params =>
    rw [hmatch] at hout
    have hown := hthere hout.symm route.method (.inl rfl)
    have hhead : route.method = .get → .head ∈ known :=
      fun hget => hthere hout.symm .head (.inr ⟨hget, rfl⟩)
    simp only [if_pos hown]
    exact if_neg fun h => h.2 (hhead h.1)

theorem redundant_shadowed {before : List (Entry η)} {method : Method} {path : Bytes}
    (h : redundant before method path = true) (handler : η) :
    Shadowed (registered before).routes ⟨method, compile (normalizePath path), handler⟩ := by
  intro served serves
  obtain ⟨entry, hmem, hmethod, haccepts⟩ := redundant_taken h (matches_accepts.mp serves)
  rw [registered_routes]
  exact ⟨_, List.mem_map_of_mem hmem, hmethod, matches_accepts.mpr haccepts⟩

/-- A redundant registration makes no difference: not to what is found, with its captures,
nor to the methods that are listed and their order. -/
theorem without_redundant {before : List (Entry η)} {method : Method} {path : Bytes}
    (h : redundant before method path = true) (handler : η) (after : List (Entry η))
    (target : Bytes) :
    (∀ requested,
      (registered (before ++ (method, path, handler) :: after)).find requested target =
        (registered (before ++ after)).find requested target) ∧
    (registered (before ++ (method, path, handler) :: after)).allowedMethods target =
      (registered (before ++ after)).allowedMethods target := by
  have shadowed := redundant_shadowed h handler
  have hwith : (registered (before ++ (method, path, handler) :: after)).routes =
      (registered before).routes ++
        ⟨method, compile (normalizePath path), handler⟩ :: (registered after).routes := by
    simp [registered_routes]
  have hwithout : (registered (before ++ after)).routes =
      (registered before).routes ++ (registered after).routes := by
    simp [registered_routes]
  constructor
  · intro requested
    rw [find_eq, find_eq, hwith, hwithout]
    simp only [answering, shadowed.first, shadowed.any]
  · simp only [allowedMethods, hwith, hwithout, List.foldl_append, List.foldl_cons, shadowed.allow]

/-- A number behind a name. -/
theorem without_redundant_number :
    (registered [(.get, bytes "/users/<name>", 0), (.get, bytes "/users/<int:id>", 1)]).find .get
        (bytes "/users/7") =
      (registered [(.get, bytes "/users/<name>", 0)]).find .get (bytes "/users/7") :=
  (@without_redundant Nat [(.get, bytes "/users/<name>", 0)] .get (bytes "/users/<int:id>")
    (by decide +kernel) 1 [] (bytes "/users/7")).1 .get

theorem first_filter (method : Method) (path : Bytes) (routes : List (Route η)) :
    first method path routes =
      first method path (routes.filter fun route => route.method = method) := by
  induction routes with
  | nil => rfl
  | cons route routes ih =>
    by_cases hmethod : route.method = method
    · rw [List.filter_cons_of_pos (by simpa using hmethod), first_cons, first_cons, ih]
    · rw [List.filter_cons_of_neg (by simpa using hmethod), first_cons, if_neg hmethod,
        Option.none_or, ih]

theorem filter_registered (entries : List (Entry η)) (method : Method) :
    ((registered entries).routes.filter fun route => route.method = method) =
      (registered (entries.filter fun entry => entry.1 = method)).routes := by
  simp [registered_routes, List.filter_map, Function.comp_def]

/-- Only the order within each method counts: registrations of different methods may stand
in any order. -/
theorem find_reordered {entries others : List (Entry η)}
    (same : ∀ method, (entries.filter fun entry => entry.1 = method) =
      others.filter fun entry => entry.1 = method) (target : Bytes) :
    (∀ method, (registered entries).find method target = (registered others).find method target) ∧
    ((registered entries).allowedMethods target).Perm ((registered others).allowedMethods target) := by
  have hfilter : ∀ method, ((registered entries).routes.filter fun route => route.method = method) =
      (registered others).routes.filter fun route => route.method = method := by
    intro method
    rw [filter_registered, same, filter_registered]
  have hmem : ∀ route, route ∈ (registered entries).routes ↔ route ∈ (registered others).routes := by
    intro route
    have hroute := congrArg (route ∈ ·) (hfilter route.method)
    simpa using hroute
  have hfind : ∀ method,
      (registered entries).find method target = (registered others).find method target := by
    intro method
    have hfirst : ∀ method path, first method path (registered entries).routes =
        first method path (registered others).routes := by
      intro method path
      rw [first_filter, hfilter, ← first_filter]
    have hany : ∀ path, (registered entries).routes.any (·.serves path) =
        (registered others).routes.any (·.serves path) := by
      intro path
      rw [Bool.eq_iff_iff, List.any_eq_true, List.any_eq_true]
      simp only [hmem]
    rw [find_eq, find_eq]
    simp only [answering, hfirst, hany]
  refine ⟨hfind, (List.perm_ext_iff_of_nodup (allowedMethods_nodup _ _)
    (allowedMethods_nodup _ _)).mpr fun method => ?_⟩
  rw [mem_allowedMethods, mem_allowedMethods, hfind]

/-- A GET and a POST change places. -/
theorem find_reordered_pair :
    (registered [(.get, bytes "/<id>", 0), (.post, bytes "/a", 1)]).find .post (bytes "/a") =
      (registered [(.post, bytes "/a", 1), (.get, bytes "/<id>", 0)]).find .post (bytes "/a") :=
  (find_reordered (fun method => by cases method <;> rfl) (bytes "/a")).1 .post

end Router

end Carafe.Server
