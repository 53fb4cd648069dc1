import Carafe.Http.Path
import Carafe.Library.StackWalk

/-!
# Raw segments of a path

What a normalised path is made of, in terms of the path as it was sent. An escape
never reaches over a separator, so the passes of `normalize_path` can be told apart
segment by segment: which raw segments stand, and what becomes of each.
-/

namespace Carafe.Http
open Segments StackWalk

/-- A byte that stands for itself, a stray percent sign included, or an escape. -/
inductive Token where
  | byte (ch : UInt8)
  | escape (highCh lowCh : UInt8) (high low : Nat)

/-- What one pass from left to right takes for an escape. -/
def tokens : Bytes → List Token
  | ch :: highCh :: lowCh :: tail =>
    if ch ≠ percent then .byte ch :: tokens (highCh :: lowCh :: tail)
    else match asciiHexValue highCh, asciiHexValue lowCh with
      | some high, some low => .escape highCh lowCh high low :: tokens tail
      | _, _ => .byte ch :: tokens (highCh :: lowCh :: tail)
  | ch :: rest => .byte ch :: tokens rest
  | [] => []

namespace Token

def spelling : Token → Bytes
  | byte ch => [ch]
  | escape highCh lowCh _ _ => [percent, highCh, lowCh]

def value : Token → UInt8
  | byte ch => ch
  | escape _ _ high low => escapedByte high low

/-- What the first pass of `normalize_path` leaves of it. -/
def resolved : Token → Bytes
  | byte ch => [ch]
  | escape _ _ high low =>
    if asciiUnreserved (escapedByte high low) then [escapedByte high low]
    else [percent, asciiHexDigit high, asciiHexDigit low]

/-- The digits of an escape are those it is made of. -/
def Sound : Token → Prop
  | byte _ => True
  | escape highCh lowCh high low =>
    asciiHexValue highCh = some high ∧ asciiHexValue lowCh = some low

end Token

theorem tokens_sound (text : Bytes) : ∀ token ∈ tokens text, token.Sound := by
  fun_induction tokens text with
  | case1 ch highCh lowCh tail bare ih =>
    intro token htoken
    rcases List.mem_cons.mp htoken with rfl | hmem
    · trivial
    · exact ih token hmem
  | case2 ch highCh lowCh tail bare high low isLow isHigh ih =>
    intro token htoken
    rcases List.mem_cons.mp htoken with rfl | hmem
    · exact ⟨isHigh, isLow⟩
    · exact ih token hmem
  | case3 ch highCh lowCh tail bare noEscape ih =>
    intro token htoken
    rcases List.mem_cons.mp htoken with rfl | hmem
    · trivial
    · exact ih token hmem
  | case4 ch rest short ih =>
    intro token htoken
    rcases List.mem_cons.mp htoken with rfl | hmem
    · trivial
    · exact ih token hmem
  | case5 => simp

theorem tokens_spelling (text : Bytes) : (tokens text).flatMap Token.spelling = text := by
  fun_induction tokens text with
  | case1 ch highCh lowCh tail bare ih => rw [List.flatMap_cons, ih]; rfl
  | case2 ch highCh lowCh tail bare high low isLow isHigh ih =>
    rw [List.flatMap_cons, ih, not_not.mp bare]
    rfl
  | case3 ch highCh lowCh tail bare noEscape ih => rw [List.flatMap_cons, ih]; rfl
  | case4 ch rest short ih => rw [List.flatMap_cons, ih]; rfl
  | case5 => rfl

theorem resolveEscapes_tokens (text : Bytes) :
    resolveEscapes text = (tokens text).flatMap Token.resolved := by
  fun_induction tokens text with
  | case1 ch highCh lowCh tail bare ih =>
    rw [resolveEscapes, if_pos bare, ih]
    rfl
  | case2 ch highCh lowCh tail bare high low isLow isHigh ih =>
    simp only [resolveEscapes, if_neg bare, isHigh, isLow, ih, List.flatMap_cons, Token.resolved]
    split <;> rfl
  | case3 ch highCh lowCh tail bare noEscape ih =>
    rw [resolveEscapes, if_neg bare, ih]
    cases isHigh : asciiHexValue highCh with
    | none => rfl
    | some high =>
      cases isLow : asciiHexValue lowCh with
      | none => rfl
      | some low => exact False.elim (noEscape high low isHigh isLow)
  | case4 ch rest short ih =>
    rcases rest with _ | ⟨highCh, _ | ⟨lowCh, tail⟩⟩
    · rfl
    · rfl
    · exact False.elim (short highCh lowCh tail rfl)
  | case5 => rfl

theorem tokens_plain {ch : UInt8} (bare : ch ≠ percent) (rest : Bytes) :
    tokens (ch :: rest) = .byte ch :: tokens rest := by
  match rest with
  | [] => rfl
  | [_] => rfl
  | _ :: _ :: _ => rw [tokens, if_pos bare]

theorem tokens_escape {highCh lowCh : UInt8} {high low : Nat}
    (isHigh : asciiHexValue highCh = some high) (isLow : asciiHexValue lowCh = some low)
    (rest : Bytes) : tokens (percent :: highCh :: lowCh :: rest) =
      .escape highCh lowCh high low :: tokens rest := by
  rw [tokens, if_neg (by simp), isHigh, isLow]

/-- A percent sign without two digits behind it stands for itself. -/
theorem tokens_stray {rest : Bytes} (h : ∀ highCh lowCh tail, rest = highCh :: lowCh :: tail →
    asciiHexValue highCh = none ∨ asciiHexValue lowCh = none) :
    tokens (percent :: rest) = .byte percent :: tokens rest := by
  match rest with
  | [] => rfl
  | [_] => rfl
  | highCh :: lowCh :: tail =>
    rw [tokens, if_neg (by simp)]
    rcases h highCh lowCh tail rfl with hnone | hnone
    · rw [hnone]
    · rw [hnone]
      cases asciiHexValue highCh <;> rfl

/-- No escape reaches over a byte that is no digit. -/
theorem tokens_append {x : UInt8} (noDigit : asciiHexValue x = none) (front back : Bytes) :
    tokens (front ++ x :: back) = tokens front ++ tokens (x :: back) := by
  fun_induction tokens front with
  | case1 ch highCh lowCh tail bare ih =>
    rw [List.cons_append, tokens_plain bare, ih]
    rfl
  | case2 ch highCh lowCh tail bare high low isLow isHigh ih =>
    rw [not_not.mp bare]
    simp only [List.cons_append]
    rw [tokens_escape isHigh isLow, ih]
  | case3 ch highCh lowCh tail bare noEscape ih =>
    rw [not_not.mp bare, List.cons_append, tokens_stray, ih]
    · rfl
    · intro h l rest hrest
      obtain ⟨rfl, rfl, -⟩ := by simpa using hrest
      by_contra hsome
      rw [not_or, ← ne_eq, ← ne_eq, Option.ne_none_iff_exists', Option.ne_none_iff_exists'] at hsome
      obtain ⟨⟨high, isHigh⟩, low, isLow⟩ := hsome
      exact noEscape high low isHigh isLow
  | case4 ch rest short ih =>
    by_cases bare : ch = percent
    · subst bare
      rw [List.cons_append, tokens_stray, ih]
      · rfl
      · intro h l tail hrest
        match rest, short with
        | [], _ =>
          obtain ⟨rfl, -⟩ := List.cons.inj hrest
          exact Or.inl noDigit
        | [_], _ =>
          obtain ⟨-, hrest⟩ := List.cons.inj hrest
          obtain ⟨rfl, -⟩ := List.cons.inj hrest
          exact Or.inr noDigit
        | highCh :: lowCh :: tail, short => exact False.elim (short highCh lowCh tail rfl)
    · rw [List.cons_append, tokens_plain bare, ih]
      rfl
  | case5 => rfl

theorem resolveEscapes_cut {x : UInt8} (bare : x ≠ percent) (noDigit : asciiHexValue x = none)
    (front back : Bytes) :
    resolveEscapes (front ++ x :: back) = resolveEscapes front ++ x :: resolveEscapes back := by
  rw [resolveEscapes_tokens, tokens_append noDigit, List.flatMap_append, tokens_plain bare,
    List.flatMap_cons, ← resolveEscapes_tokens, ← resolveEscapes_tokens]
  rfl

theorem spelling_subset {text : Bytes} {token : Token} (h : token ∈ tokens text) {ch : UInt8}
    (hch : ch ∈ token.spelling) : ch ∈ text := by
  rw [← tokens_spelling text]
  exact List.mem_flatMap.mpr ⟨token, h, hch⟩

theorem asciiHexDigit_unreserved {value : Nat} (h : value < 16) :
    asciiUnreserved (asciiHexDigit value) = true := by
  have hall : ∀ value : Fin 16, asciiUnreserved (asciiHexDigit value) = true := by decide
  exact hall ⟨value, h⟩

/-- Resolving adds unreserved bytes at most. -/
theorem mem_resolveEscapes {text : Bytes} {ch : UInt8} (h : ch ∈ resolveEscapes text) :
    ch ∈ text ∨ asciiUnreserved ch = true := by
  rw [resolveEscapes_tokens, List.mem_flatMap] at h
  obtain ⟨token, htoken, hch⟩ := h
  cases token with
  | byte ch' => exact Or.inl (spelling_subset htoken hch)
  | escape highCh lowCh high low =>
    obtain ⟨isHigh, isLow⟩ := tokens_sound text _ htoken
    simp only [Token.resolved] at hch
    split at hch
    · rename_i unreserved
      rw [List.mem_singleton.mp hch]
      exact Or.inr unreserved
    · simp only [List.mem_cons, List.not_mem_nil, or_false] at hch
      rcases hch with rfl | rfl | rfl
      · exact Or.inl (spelling_subset htoken List.mem_cons_self)
      · exact Or.inr (asciiHexDigit_unreserved (asciiHexValue_lt isHigh))
      · exact Or.inr (asciiHexDigit_unreserved (asciiHexValue_lt isLow))

theorem slash_not_mem_resolved {text : Bytes} (fresh : slash ∉ text) :
    slash ∉ resolveEscapes text := by
  intro h
  rcases mem_resolveEscapes h with hmem | unreserved
  · exact fresh hmem
  · exact absurd unreserved (by decide)

theorem resolveEscapes_eq_nil {text : Bytes} : resolveEscapes text = [] ↔ text = [] := by
  constructor
  · intro h
    rw [resolveEscapes_tokens, List.flatMap_eq_nil_iff] at h
    have hnone : tokens text = [] := by
      rw [List.eq_nil_iff_forall_not_mem]
      intro token htoken
      have hempty := h token htoken
      cases token with
      | byte => cases hempty
      | escape =>
        simp only [Token.resolved] at hempty
        split at hempty <;> cases hempty
    rw [← tokens_spelling text, hnone]
    rfl
  · rintro rfl
    rfl

theorem resolveEscapes_splitOn (path : Bytes) :
    (resolveEscapes path).splitOn slash = (path.splitOn slash).map resolveEscapes := by
  induction path using Segments.induction slash with
  | last piece fresh =>
    rw [splitOn_piece fresh, splitOn_piece (slash_not_mem_resolved fresh)]
    rfl
  | more piece rest fresh ih =>
    rw [resolveEscapes_cut slash_bare.1 slash_bare.2, splitOn_more fresh,
      splitOn_more (slash_not_mem_resolved fresh), ih]
    rfl

theorem resolveEscapes_intercalate (pieces : List Bytes) :
    resolveEscapes ([slash].intercalate pieces) =
      [slash].intercalate (pieces.map resolveEscapes) := by
  induction pieces with
  | nil => rfl
  | cons piece pieces ih =>
    by_cases hne : pieces = []
    · subst hne
      simp
    · rw [intercalate_cons hne, resolveEscapes_cut slash_bare.1 slash_bare.2, ih, List.map_cons,
        intercalate_cons (by simpa using hne)]

/-- A leading slash is an empty first segment in front of others. -/
theorem head_slash_iff {path : Bytes} :
    path.head? = some slash ↔ ∃ piece pieces, path.splitOn slash = [] :: piece :: pieces := by
  constructor
  · intro h
    obtain ⟨rest, rfl⟩ := List.head?_eq_some_iff.mp h
    obtain ⟨piece, pieces, hrest⟩ := List.exists_cons_of_ne_nil (List.splitOn_ne_nil slash rest)
    exact ⟨piece, pieces, by rw [splitOn_slash, hrest]⟩
  · rintro ⟨piece, pieces, hsplit⟩
    have hjoin : [slash].intercalate (path.splitOn slash) = path := List.intercalate_splitOn slash
    rw [hsplit, intercalate_cons (by simp)] at hjoin
    rw [← hjoin]
    rfl

theorem resolveEscapes_head {path : Bytes} :
    (resolveEscapes path).head? = some slash ↔ path.head? = some slash := by
  rw [head_slash_iff, head_slash_iff, resolveEscapes_splitOn]
  constructor
  · rintro ⟨piece, pieces, h⟩
    obtain ⟨first, rest, hsplit, hfirst, hrest⟩ := List.map_eq_cons_iff.mp h
    obtain ⟨second, more, rfl, -, -⟩ := List.map_eq_cons_iff.mp hrest
    rw [resolveEscapes_eq_nil.mp hfirst] at hsplit
    exact ⟨second, more, hsplit⟩
  · rintro ⟨piece, pieces, h⟩
    exact ⟨resolveEscapes piece, pieces.map resolveEscapes, by rw [h]; rfl⟩

/-- Whether a raw segment is a dot segment, however it is escaped. -/
def isDots (raw : Bytes) : Bool :=
  resolveEscapes raw = dotSegment ∨ resolveEscapes raw = dotDotSegment

def segmentMove (raw : Bytes) : Move Bytes :=
  if resolveEscapes raw = dotSegment then .stay
  else if resolveEscapes raw = dotDotSegment then .pop
  else .push raw

theorem segmentMove_nil : segmentMove [] = .push [] := by
  rw [segmentMove, if_neg (by decide), if_neg (by decide)]

theorem segmentMove_push {raw entry : Bytes} (h : segmentMove raw = .push entry) :
    raw = entry := by
  unfold segmentMove at h
  split at h
  · cases h
  split at h
  · cases h
  · cases h
    rfl

/-- Every segment but a dot segment is pushed. -/
theorem segmentMove_plain {raw : Bytes} (h : isDots raw = false) : segmentMove raw = .push raw := by
  simp only [isDots, decide_eq_false_iff_not, not_or] at h
  rw [segmentMove, if_neg h.1, if_neg h.2]

/-- The raw segments that no dot segment takes away, and an empty one behind a last dot segment. -/
def standingOf (raws : List Bytes) : List Bytes :=
  run [] (raws.map segmentMove) ++ if raws.getLast?.any isDots then [[]] else []

/-- The raw segments of a path that its normal form consists of. -/
def standing (path : Bytes) : List Bytes :=
  if path.head? = some slash then [] :: standingOf ((path.drop 1).splitOn slash)
  else standingOf (path.splitOn slash)

theorem SegmentWalk.next_resolved {walk : SegmentWalk} {stack : List Bytes}
    (h : walk.kept = stack.map resolveEscapes) (raw : Bytes) :
    (walk.next (resolveEscapes raw)).kept = ((segmentMove raw).apply stack).map resolveEscapes ∧
    (walk.next (resolveEscapes raw)).endedOnDots = isDots raw := by
  unfold SegmentWalk.next segmentMove isDots
  split
  · rename_i hdot
    simp [hdot, h, Move.apply]
  split
  · rename_i hdots
    simp [hdots, h, Move.apply]
  · rename_i hdot hdots
    simp [hdot, hdots, h, Move.apply]

theorem SegmentWalk.foldl_resolved {walk : SegmentWalk} {stack raws : List Bytes}
    (h : walk.kept = stack.map resolveEscapes) :
    ((raws.map resolveEscapes).foldl SegmentWalk.next walk).kept =
      (run stack (raws.map segmentMove)).map resolveEscapes := by
  induction raws generalizing walk stack with
  | nil => exact h
  | cons raw raws ih => exact ih (walk.next_resolved h raw).1

theorem SegmentWalk.foldl_kept_run (raws : List Bytes) :
    ((raws.map resolveEscapes).foldl SegmentWalk.next {}).kept =
      (run [] (raws.map segmentMove)).map resolveEscapes := foldl_resolved rfl

theorem SegmentWalk.foldl_ended {raws : List Bytes} (hne : raws ≠ []) :
    ((raws.map resolveEscapes).foldl SegmentWalk.next {}).endedOnDots =
      raws.getLast?.any isDots := by
  obtain ⟨front, raw, rfl⟩ := List.eq_nil_or_concat raws |>.resolve_left hne
  rw [List.concat_eq_append, List.map_append, List.foldl_append, List.getLast?_append]
  exact (SegmentWalk.next_resolved (foldl_kept_run front) raw).2

theorem standingOf_ne_nil {raws : List Bytes} (hne : raws ≠ []) : standingOf raws ≠ [] := by
  have hends := @SegmentWalk.foldl_nonempty (raws.map resolveEscapes) {} (by simpa)
  rw [SegmentWalk.foldl_ended hne, SegmentWalk.foldl_kept_run] at hends
  unfold standingOf
  rcases hends with hdots | hsome
  · simp [hdots]
  · have hrun : run [] (raws.map segmentMove) ≠ [] := by simpa using hsome
    simp [hrun]

/-- What stands was a segment, or is the empty one at the end. -/
theorem mem_standingOf {raws : List Bytes} {raw : Bytes} (h : raw ∈ standingOf raws) :
    raw = [] ∨ (raw ∈ raws ∧ isDots raw = false) := by
  rcases List.mem_append.mp h with hrun | hend
  · rcases mem_run hrun with hnone | hpush
    · cases hnone
    · obtain ⟨raw', hraw, hmove⟩ := List.mem_map.mp hpush
      unfold segmentMove at hmove
      split at hmove
      · cases hmove
      split at hmove
      · cases hmove
      · rename_i hdot hdots
        cases hmove
        exact Or.inr ⟨hraw, by simp [isDots, hdot, hdots]⟩
  · split at hend
    · exact Or.inl (List.mem_singleton.mp hend)
    · cases hend

theorem standingOf_plain {raws : List Bytes} (h : ∀ raw ∈ raws, isDots raw = false) :
    standingOf raws = raws := by
  have hrun : ∀ stack, run stack (raws.map segmentMove) = stack ++ raws := by
    induction raws with
    | nil => simp
    | cons raw raws ih =>
      intro stack
      rw [List.map_cons, run_cons, segmentMove_plain (h raw List.mem_cons_self),
        ih fun raw' hraw' => h raw' (List.mem_cons_of_mem _ hraw')]
      simp [Move.apply]
  have hlast : raws.getLast?.any isDots = false := by
    cases hget : raws.getLast? with
    | none => rfl
    | some last => exact h last (List.mem_of_getLast? hget)
  rw [standingOf, hrun, hlast]
  simp

theorem removeDotSegments_body {raws : List Bytes} (hne : raws ≠ []) :
    (if ((raws.map resolveEscapes).foldl SegmentWalk.next {}).endedOnDots then
      ((raws.map resolveEscapes).foldl SegmentWalk.next {}).kept ++ [[]]
      else ((raws.map resolveEscapes).foldl SegmentWalk.next {}).kept) =
    (standingOf raws).map resolveEscapes := by
  rw [SegmentWalk.foldl_ended hne, SegmentWalk.foldl_kept_run, standingOf, List.map_append]
  split <;> simp [resolveEscapes]

/-- Every segment of a normal form is a raw segment that stands, its escapes resolved. -/
theorem normalizePath_standing (path : Bytes) :
    (normalizePath path).splitOn slash = (standing path).map resolveEscapes := by
  have hjoin : ∀ body : Bytes, ([slash].intercalate
      ((standingOf (body.splitOn slash)).map resolveEscapes)).splitOn slash =
      (standingOf (body.splitOn slash)).map resolveEscapes := by
    intro body
    apply List.splitOn_intercalate slash
    · intro piece hpiece
      obtain ⟨raw, hraw, rfl⟩ := List.mem_map.mp hpiece
      apply slash_not_mem_resolved
      rcases mem_standingOf hraw with rfl | ⟨hmem, -⟩
      · exact List.not_mem_nil
      · exact not_mem_piece hmem
    · simpa using standingOf_ne_nil (List.splitOn_ne_nil slash body)
  unfold normalizePath removeDotSegments standing
  dsimp only
  by_cases habsolute : path.head? = some slash
  · obtain ⟨rest, rfl⟩ := List.head?_eq_some_iff.mp habsolute
    have hresolved := resolveEscapes_plain slash_bare.1 rest
    simp only [hresolved, List.head?_cons, if_true, List.drop_one, List.tail_cons,
      resolveEscapes_splitOn]
    rw [removeDotSegments_body (List.splitOn_ne_nil slash rest), List.singleton_append,
      splitOn_slash, hjoin]
    rfl
  · have hrelative : (resolveEscapes path).head? ≠ some slash := by
      rw [ne_eq, resolveEscapes_head]
      exact habsolute
    simp only [habsolute, hrelative, if_false, resolveEscapes_splitOn]
    rw [removeDotSegments_body (List.splitOn_ne_nil slash path), List.nil_append, hjoin]

/-- Without dot segments all of a path with a leading slash stands. -/
theorem normalizePath_rooted {raws : List Bytes} (hne : raws ≠ [])
    (h : ∀ raw ∈ raws, slash ∉ raw ∧ isDots raw = false) :
    (normalizePath (slash :: [slash].intercalate raws)).splitOn slash =
      [] :: raws.map resolveEscapes := by
  rw [normalizePath_standing, standing, List.head?_cons, if_pos rfl, List.drop_one, List.tail_cons,
    List.splitOn_intercalate slash (fun raw hraw => (h raw hraw).1) hne,
    standingOf_plain fun raw hraw => (h raw hraw).2]
  rfl

end Carafe.Http
