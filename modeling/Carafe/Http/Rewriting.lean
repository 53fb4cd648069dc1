import Carafe.Http.Path
import Carafe.Library.Loops
import Mathlib.Data.List.DropRight

/-!
# Dot segments as the RFC removes them

RFC 3986, section 5.2.4, takes a path apart from the front: an input buffer is
rewritten prefix by prefix, and what is not a dot segment moves to an output buffer.
The second pass of `normalize_path` walks over the segments with a stack instead. On a
path with a leading slash both come to the same.
-/

namespace Carafe.Http
open Segments Loops

/-- The last segment goes, and the slash in front of it. -/
def dropLastSegment (output : Bytes) : Bytes := (output.rdropWhile (· ≠ slash)).dropLast

/-- With the slash in front of it, if there is one, and up to the next. -/
def firstSegment (input : Bytes) : Bytes := input.take 1 ++ (input.drop 1).takeWhile (· ≠ slash)

/-- Steps 2A to 2E, the input buffer first. -/
def rewrite (input output : Bytes) : Bytes × Bytes :=
  if bytes "../" <+: input then (input.drop 3, output)
  else if bytes "./" <+: input then (input.drop 2, output)
  else if bytes "/./" <+: input then (slash :: input.drop 3, output)
  else if input = bytes "/." then ([slash], output)
  else if bytes "/../" <+: input then (slash :: input.drop 4, dropLastSegment output)
  else if input = bytes "/.." then ([slash], dropLastSegment output)
  else if input = bytes "." ∨ input = bytes ".." then ([], output)
  else (input.drop (firstSegment input).length, output ++ firstSegment input)

def rewriteRound (buffers : Bytes × Bytes) : (Bytes × Bytes) × Option Bytes :=
  if buffers.1 = [] then (buffers, some buffers.2) else (rewrite buffers.1 buffers.2, none)

/-- The loop over both buffers; a round for every byte of the path is enough. -/
def rfcRemoveDotSegments (path : Bytes) : Option Bytes :=
  (rounds rewriteRound (path.length + 1) (path, [])).map Prod.snd

theorem rewrite_shorter {input : Bytes} (hne : input ≠ []) (output : Bytes) :
    (rewrite input output).1.length < input.length := by
  have hpos : 0 < input.length := List.length_pos_of_ne_nil hne
  have hfirst : 0 < (firstSegment input).length := by
    simp only [firstSegment, List.length_append, List.length_take]
    omega
  -- Of what starts with a word, at least two bytes go.
  have hless : ∀ {word : Bytes}, word <+: input → 2 ≤ word.length →
      (input.drop word.length).length + 1 < input.length := by
    intro word hword hlong
    have hle := hword.length_le
    rw [List.length_drop]
    omega
  unfold rewrite
  split
  · rename_i h
    have hshort := hless h (by decide)
    exact Nat.lt_of_succ_lt hshort
  split
  · rename_i h
    have hshort := hless h (by decide)
    exact Nat.lt_of_succ_lt hshort
  split
  · rename_i h
    exact hless h (by decide)
  split
  · rename_i h
    simp [h, bytes]
  split
  · rename_i h
    exact hless h (by decide)
  split
  · rename_i h
    simp [h, bytes]
  split
  · exact hpos
  · simp only [List.length_drop]
    omega

/-- Segments as both buffers hold them: a slash in front of each. -/
def spelled (pieces : List Bytes) : Bytes := pieces.flatMap (slash :: ·)

theorem spelled_cons (piece : Bytes) (pieces : List Bytes) :
    spelled (piece :: pieces) = slash :: (piece ++ spelled pieces) := rfl

theorem spelled_concat (pieces : List Bytes) (piece : Bytes) :
    spelled (pieces ++ [piece]) = spelled pieces ++ slash :: piece := by
  simp [spelled]

theorem slash_intercalate {pieces : List Bytes} (hne : pieces ≠ []) :
    slash :: [slash].intercalate pieces = spelled pieces := by
  induction pieces with
  | nil => exact absurd rfl hne
  | cons piece pieces ih =>
    by_cases hlast : pieces = []
    · subst hlast
      simp [spelled]
    · rw [intercalate_cons hlast, ih hlast]
      rfl

section Piece
variable {piece word : Bytes} {more : List Bytes} (fresh : slash ∉ piece)
include fresh

/-- A segment ends where the next one starts. -/
theorem takeWhile_spelled (more : List Bytes) :
    (piece ++ spelled more).takeWhile (· ≠ slash) = piece := by
  have hall : ∀ ch ∈ piece, decide (ch ≠ slash) = true := by
    intro ch hch
    simp only [ne_eq, decide_eq_true_eq]
    rintro rfl
    exact fresh hch
  rw [List.takeWhile_append_of_pos hall]
  cases more with
  | nil => simp [spelled]
  | cons next more => simp [spelled]

theorem firstSegment_spelled : firstSegment (spelled (piece :: more)) = slash :: piece := by
  have h := takeWhile_spelled fresh more
  rw [spelled_cons, firstSegment]
  simpa using h

theorem spelled_eq_iff (clear : slash ∉ word) :
    spelled (piece :: more) = slash :: word ↔ piece = word ∧ more = [] := by
  constructor
  · intro h
    have hrest : piece ++ spelled more = word := (List.cons.inj h).2
    have hpiece := takeWhile_spelled fresh more
    have hword := takeWhile_spelled clear []
    rw [hrest] at hpiece
    rw [spelled, List.flatMap_nil, List.append_nil, hpiece] at hword
    subst hword
    refine ⟨rfl, ?_⟩
    cases more with
    | nil => rfl
    | cons next more => simp [spelled] at hrest
  · rintro ⟨rfl, rfl⟩
    simp [spelled]

theorem prefix_spelled_iff (clear : slash ∉ word) :
    slash :: (word ++ [slash]) <+: spelled (piece :: more) ↔ piece = word ∧ more ≠ [] := by
  constructor
  · rintro ⟨rest, h⟩
    have hrest : word ++ spelled [rest] = piece ++ spelled more := by
      simpa [spelled] using h
    have hpiece := takeWhile_spelled fresh more
    have hword := takeWhile_spelled clear [rest]
    rw [← hrest, hword] at hpiece
    subst hpiece
    refine ⟨rfl, ?_⟩
    rintro rfl
    simp [spelled] at hrest
  · rintro ⟨rfl, hmore⟩
    obtain ⟨next, more, rfl⟩ := List.exists_cons_of_ne_nil hmore
    exact ⟨next ++ spelled more, by simp [spelled]⟩

end Piece

theorem dropLastSegment_spelled {pieces : List Bytes} (fresh : ∀ piece ∈ pieces, slash ∉ piece) :
    dropLastSegment (spelled pieces) = spelled pieces.dropLast := by
  rcases List.eq_nil_or_concat pieces with rfl | ⟨front, last, rfl⟩
  · rfl
  · have hlast : ∀ ch ∈ last, decide (ch ≠ slash) = true := by
      intro ch hch
      simp only [ne_eq, decide_eq_true_eq]
      rintro rfl
      exact fresh last (by simp) hch
    rw [List.concat_eq_append] at fresh ⊢
    rw [List.dropLast_concat, spelled_concat, dropLastSegment, ← List.singleton_append,
      ← List.append_assoc, Search.rdropWhile_append_all _ hlast,
      List.rdropWhile_concat, if_neg (by simp), List.dropLast_concat]

/-- What a dot segment leaves behind it: the segments to come, or an empty one at the end. -/
def ending (more : List Bytes) : List Bytes := if more = [] then [[]] else more

theorem dots_clear : slash ∉ dotSegment ∧ slash ∉ dotDotSegment := by decide

theorem drop_spelled (word : Bytes) {more : List Bytes} (hmore : more ≠ []) :
    slash :: (slash :: (word ++ spelled more)).drop (word.length + 2) = spelled more := by
  obtain ⟨next, more, rfl⟩ := List.exists_cons_of_ne_nil hmore
  rw [spelled_cons, List.drop_succ_cons, List.drop_length_add_append]
  rfl

/-- One round takes one segment. -/
theorem rewrite_spelled {piece : Bytes} (fresh : slash ∉ piece) (more : List Bytes)
    (output : Bytes) : rewrite (spelled (piece :: more)) output =
      if piece = dotSegment then (spelled (ending more), output)
      else if piece = dotDotSegment then (spelled (ending more), dropLastSegment output)
      else (spelled more, output ++ slash :: piece) := by
  have hrelative : ∀ word : Bytes, word.head? = some '.'.toUInt8 →
      ¬ word <+: spelled (piece :: more) := by
    rintro word hword ⟨rest, h⟩
    obtain ⟨word, rfl⟩ := List.head?_eq_some_iff.mp hword
    exact absurd (List.cons.inj h).1 (by decide)
  have halone : ¬ (spelled (piece :: more) = bytes "." ∨ spelled (piece :: more) = bytes "..") := by
    rintro (h | h)
    · exact hrelative (bytes ".") rfl (h ▸ List.prefix_rfl)
    · exact hrelative (bytes "..") rfl (h ▸ List.prefix_rfl)
  have hdot : bytes "/./" <+: spelled (piece :: more) ↔ piece = dotSegment ∧ more ≠ [] :=
    prefix_spelled_iff fresh dots_clear.1
  have hdots : bytes "/../" <+: spelled (piece :: more) ↔ piece = dotDotSegment ∧ more ≠ [] :=
    prefix_spelled_iff fresh dots_clear.2
  have hlastDot : spelled (piece :: more) = bytes "/." ↔ piece = dotSegment ∧ more = [] :=
    spelled_eq_iff fresh dots_clear.1
  have hlastDots : spelled (piece :: more) = bytes "/.." ↔ piece = dotDotSegment ∧ more = [] :=
    spelled_eq_iff fresh dots_clear.2
  have hdiffer : dotDotSegment ≠ dotSegment := by decide
  rw [rewrite, if_neg (hrelative _ rfl), if_neg (hrelative _ rfl)]
  simp only [hdot, hdots, hlastDot, hlastDots]
  by_cases hpiece : piece = dotSegment
  · subst hpiece
    by_cases hmore : more = []
    · simp [hmore, ending, spelled]
    · rw [if_pos ⟨rfl, hmore⟩, if_pos rfl, ending, if_neg hmore]
      exact congrArg (·, output) (drop_spelled dotSegment hmore)
  · by_cases hpiece' : piece = dotDotSegment
    · subst hpiece'
      by_cases hmore : more = []
      · simp [hmore, ending, spelled, hdiffer]
      · rw [if_neg fun h => hpiece h.1, if_neg fun h => hpiece h.1, if_pos ⟨rfl, hmore⟩,
          if_neg hpiece, if_pos rfl, ending, if_neg hmore]
        exact congrArg (·, dropLastSegment output) (drop_spelled dotDotSegment hmore)
    · rw [firstSegment_spelled fresh, if_neg halone]
      simp [hpiece, hpiece', spelled_cons]

/-- What a walk leaves to be joined. -/
def SegmentWalk.joined (walk : SegmentWalk) : List Bytes :=
  if walk.endedOnDots then walk.kept ++ [[]] else walk.kept

theorem rewriteRound_spelled {piece : Bytes} (fresh : slash ∉ piece) (more : List Bytes)
    (output : Bytes) : rewriteRound (spelled (piece :: more), output) =
      (if piece = dotSegment then (spelled (ending more), output)
        else if piece = dotDotSegment then (spelled (ending more), dropLastSegment output)
        else (spelled more, output ++ slash :: piece), none) := by
  rw [rewriteRound, if_neg (by simp [spelled_cons]), rewrite_spelled fresh]

/-- A last segment that is no dot segment moves over, and the loop ends. -/
theorem rounds_last {piece : Bytes} (fresh : slash ∉ piece) (walked : Walked piece)
    (output : Bytes) : rounds rewriteRound 2 (spelled [piece], output) =
      some (([], output ++ slash :: piece), output ++ slash :: piece) := by
  have hround := rewriteRound_spelled fresh [] output
  rw [if_neg walked.1, if_neg walked.2] at hround
  rw [rounds_silent hround]
  rfl

/-- The input buffer holds the segments to come, the output buffer those on the stack. -/
theorem rounds_spelled {pieces kept : List Bytes} (ended : Bool) (hne : pieces ≠ [])
    (fresh : ∀ piece ∈ pieces, slash ∉ piece) (clean : ∀ piece ∈ kept, slash ∉ piece) :
    ∃ n last, rounds rewriteRound n (spelled pieces, spelled kept) = some last ∧
      last.2 = spelled (pieces.foldl SegmentWalk.next ⟨kept, ended⟩).joined := by
  induction pieces generalizing kept ended with
  | nil => exact absurd rfl hne
  | cons piece more ih =>
    have hpiece : slash ∉ piece := fresh piece List.mem_cons_self
    have hmore : ∀ piece ∈ more, slash ∉ piece := fun p hp => fresh p (List.mem_cons_of_mem _ hp)
    have hround := rewriteRound_spelled hpiece more (spelled kept)
    rw [dropLastSegment_spelled clean] at hround
    -- Behind a dot segment: the segments to come, or the empty one it leaves at the end.
    have hdots : ∀ kept : List Bytes, (∀ piece ∈ kept, slash ∉ piece) →
        ∃ n last, rounds rewriteRound n (spelled (ending more), spelled kept) = some last ∧
          last.2 = spelled (more.foldl SegmentWalk.next ⟨kept, true⟩).joined := by
      intro kept clean
      by_cases hlast : more = []
      · have hempty := rounds_last List.not_mem_nil Walked.nil (spelled kept)
        rw [ending, if_pos hlast]
        refine ⟨2, _, hempty, ?_⟩
        simp [hlast, SegmentWalk.joined, spelled]
      · rw [ending, if_neg hlast]
        exact ih true hlast hmore clean
    rw [List.foldl_cons]
    by_cases hdot : piece = dotSegment
    · rw [if_pos hdot] at hround
      obtain ⟨n, last, hrounds, hjoined⟩ := hdots kept clean
      refine ⟨n + 1, last, by rw [rounds_silent hround, hrounds], ?_⟩
      rw [hjoined, SegmentWalk.next, if_pos hdot]
    rw [if_neg hdot] at hround
    by_cases hdotdot : piece = dotDotSegment
    · rw [if_pos hdotdot] at hround
      obtain ⟨n, last, hrounds, hjoined⟩ := hdots kept.dropLast
        fun piece hp => clean piece (List.mem_of_mem_dropLast hp)
      refine ⟨n + 1, last, by rw [rounds_silent hround, hrounds], ?_⟩
      rw [hjoined, SegmentWalk.next, if_neg hdot, if_pos hdotdot]
    rw [if_neg hdotdot, ← spelled_concat] at hround
    rw [SegmentWalk.next, if_neg hdot, if_neg hdotdot]
    by_cases hlast : more = []
    · subst hlast
      refine ⟨2, _, rounds_last hpiece ⟨hdot, hdotdot⟩ (spelled kept), ?_⟩
      rw [← spelled_concat]
      rfl
    · have hkept : ∀ p ∈ kept ++ [piece], slash ∉ p := by
        intro p hp
        rcases List.mem_append.mp hp with hold | hnew
        · exact clean p hold
        · rwa [List.mem_singleton.mp hnew]
      obtain ⟨n, last, hrounds, hjoined⟩ := ih false hlast hmore hkept
      exact ⟨n + 1, last, by rw [rounds_silent hround, hrounds], hjoined⟩

/-- Whatever the path, every round of the loop leaves less of it. -/
theorem rewriteRound_shorter {buffers next : Bytes × Bytes}
    (h : rewriteRound buffers = (next, none)) : next.1.length < buffers.1.length := by
  unfold rewriteRound at h
  split at h
  · cases h
  · rename_i hne
    rw [← (Prod.mk.inj h).1]
    exact rewrite_shorter hne buffers.2

theorem SegmentWalk.joined_ne_nil {pieces : List Bytes} (hne : pieces ≠ []) :
    (pieces.foldl SegmentWalk.next {}).joined ≠ [] := by
  unfold joined
  rcases SegmentWalk.foldl_nonempty {} hne with hdots | hsome
  · simp [hdots]
  · split <;> simp [hsome]

/-- Every path with a leading slash loses its dot segments as the RFC has it. -/
theorem removeDotSegments_rfc (rest : Bytes) :
    rfcRemoveDotSegments (slash :: rest) = some (removeDotSegments (slash :: rest)) := by
  have hpieces : rest.splitOn slash ≠ [] := List.splitOn_ne_nil slash rest
  have hspelled : slash :: rest = spelled (rest.splitOn slash) := by
    rw [← slash_intercalate hpieces, List.intercalate_splitOn]
  obtain ⟨n, last, hrounds, hjoined⟩ := @rounds_spelled _ [] false hpieces
    (fun _ hpiece => not_mem_piece hpiece) (by simp)
  obtain ⟨last', henough⟩ := @rounds_enough _ _ rewriteRound (fun _ => True)
    (fun buffers => buffers.1.length) (fun _ _ _ h => ⟨trivial, rewriteRound_shorter h⟩)
    (slash :: rest, []) trivial _ (Nat.lt_succ_self _)
  rw [← hspelled] at hrounds
  have hsame : last' = last := rounds_unique henough hrounds
  have hwalk : removeDotSegments (slash :: rest) =
      slash :: [slash].intercalate ((rest.splitOn slash).foldl SegmentWalk.next {}).joined := rfl
  rw [rfcRemoveDotSegments, henough, hsame, Option.map_some, hjoined, hwalk,
    slash_intercalate (SegmentWalk.joined_ne_nil hpieces)]

end Carafe.Http
