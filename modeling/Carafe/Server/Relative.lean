import Carafe.Http.RawPath
import Carafe.Server.Router

/-!
# Targets without a leading slash

Normalising a relative path can leave an empty segment in front, where everything
before it has been popped. Then the path begins with a slash that the target never
had, and a pattern that begins with one can match it.
-/

namespace Carafe.Server
open Http Search Segments StackWalk

/-- An empty segment, with nothing kept in front of it and more behind it, that no dot
segment behind it pops. -/
def Surfaces (path : Bytes) : Prop :=
  ∃ front back, path.splitOn slash = front ++ [] :: back ∧ back ≠ [] ∧
    height 0 (front.map segmentMove) = 0 ∧
    ∀ part, part <+: back → 0 < height 1 (part.map segmentMove)

/-- The first segment that stands is empty and not the only one. -/
def LeadsEmpty (raws : List Bytes) : Prop := ∃ piece pieces, standingOf raws = [] :: piece :: pieces

theorem leadsEmpty_of_bottom {raws front back : List Bytes} (cut : raws = front ++ [] :: back)
    (more : back ≠ []) (low : height 0 (front.map segmentMove) = 0)
    (stays : ∀ part, part <+: back → 0 < height 1 (part.map segmentMove)) : LeadsEmpty raws := by
  have hhead : (run [] (raws.map segmentMove)).head? = some [] := by
    apply head_run_iff.mpr
    refine ⟨front.map segmentMove, back.map segmentMove, by simp [cut, segmentMove_nil], low, ?_⟩
    intro part hpart
    obtain ⟨part', hpart', rfl⟩ := List.prefix_map_iff.mp hpart
    exact stays part' hpart'
  obtain ⟨rest, hrun⟩ := List.head?_eq_some_iff.mp hhead
  obtain ⟨before, last, rfl⟩ := (List.eq_nil_or_concat back).resolve_left more
  rw [List.concat_eq_append] at cut stays
  have hlast : raws.getLast? = some last := by
    rw [cut, ← List.cons_append, ← List.append_assoc, List.getLast?_concat]
  unfold LeadsEmpty standingOf
  rw [hlast, hrun]
  by_cases hdots : isDots last = true
  · cases rest <;> simp [hdots]
  · rw [Bool.not_eq_true] at hdots
    -- The last segment is pushed onto a stack that still holds the empty one.
    have hpos := stays before (List.prefix_append before [last])
    have hlength := run_length [] (raws.map segmentMove)
    have hheight : height 0 (raws.map segmentMove) = height 1 (before.map segmentMove) + 1 := by
      simp [cut, segmentMove_nil, segmentMove_plain hdots, height_append, low, Move.raise]
    rw [hrun, List.length_nil, hheight, List.length_cons] at hlength
    obtain ⟨piece, pieces, rfl⟩ := List.exists_cons_of_length_pos (l := rest) (by omega)
    exact ⟨piece, _, rfl⟩

theorem LeadsEmpty.bottom {raws : List Bytes} (h : LeadsEmpty raws) :
    ∃ front back, raws = front ++ [] :: back ∧ back ≠ [] ∧
      height 0 (front.map segmentMove) = 0 ∧
      ∀ part, part <+: back → 0 < height 1 (part.map segmentMove) := by
  obtain ⟨piece, pieces, hstanding⟩ := h
  unfold standingOf at hstanding
  have hhead : (run [] (raws.map segmentMove)).head? = some [] := by
    cases hrun : run [] (raws.map segmentMove) with
    | nil =>
      rw [hrun] at hstanding
      split at hstanding <;> simp at hstanding
    | cons first rest =>
      rw [hrun] at hstanding
      rw [(List.cons.inj hstanding).1]
      rfl
  obtain ⟨front, back, hmoves, low, stays⟩ := head_run_iff.mp hhead
  obtain ⟨raws₁, raws₂, rfl, rfl, hraws₂⟩ := List.map_eq_append_iff.mp hmoves
  obtain ⟨raw, raws₃, rfl, hraw, rfl⟩ := List.map_eq_cons_iff.mp hraws₂
  obtain rfl := segmentMove_push hraw
  refine ⟨raws₁, raws₃, rfl, ?_, low, fun part hpart => stays _ (hpart.map segmentMove)⟩
  rintro rfl
  have hdots : isDots ([] : Bytes) = false := by decide
  have hempty : run [] (raws₁.map segmentMove) = [] := by
    rw [← List.length_eq_zero_iff, run_length]
    exact low
  simp [run_append, hempty, segmentMove_nil, hdots, Move.apply] at hstanding

theorem leadsEmpty_iff {path : Bytes} : LeadsEmpty (path.splitOn slash) ↔ Surfaces path := by
  constructor
  · exact LeadsEmpty.bottom
  · rintro ⟨front, back, cut, more, low, stays⟩
    exact leadsEmpty_of_bottom cut more low stays

/-- A normalised path begins with a slash if the path does or one surfaces. -/
theorem normalizePath_head {path : Bytes} : (normalizePath path).head? = some slash ↔
    path.head? = some slash ∨ Surfaces path := by
  rw [head_slash_iff, normalizePath_standing, standing]
  by_cases habsolute : path.head? = some slash
  · rw [if_pos habsolute]
    simp only [habsolute, true_or, iff_true]
    obtain ⟨first, rest, hfirst⟩ := List.exists_cons_of_ne_nil
      (standingOf_ne_nil (List.splitOn_ne_nil slash (path.drop 1)))
    exact ⟨resolveEscapes first, rest.map resolveEscapes, by rw [hfirst]; rfl⟩
  · rw [if_neg habsolute, ← leadsEmpty_iff]
    simp only [habsolute, false_or]
    constructor
    · rintro ⟨piece, pieces, h⟩
      obtain ⟨first, rest, hstanding, hfirst, hrest⟩ := List.map_eq_cons_iff.mp h
      obtain ⟨second, more, rfl, -, -⟩ := List.map_eq_cons_iff.mp hrest
      rw [resolveEscapes_eq_nil.mp hfirst] at hstanding
      exact ⟨second, more, hstanding⟩
    · rintro ⟨piece, pieces, h⟩
      exact ⟨resolveEscapes piece, pieces.map resolveEscapes, by rw [h]; rfl⟩

theorem compile_rooted {path : Bytes} (h : path.head? = some slash) :
    ∃ segment pattern, compile (normalizePath path) = ⟨[], .none⟩ :: segment :: pattern := by
  obtain ⟨piece, pieces, hsplit⟩ :=
    head_slash_iff.mp (normalizePath_head.mpr (Or.inl h))
  exact ⟨compileSegment piece, pieces.map compileSegment, by rw [compile, hsplit]; rfl⟩

theorem matches_rooted {pattern : Pattern} {segment : Segment} {path : Bytes} {params : Params}
    (h : Pattern.matches (⟨[], .none⟩ :: segment :: pattern) path true = some params) :
    path.head? = some slash := by
  have hfits := matches_iff.mp h
  rw [head_slash_iff]
  obtain ⟨piece, pieces, hsplit⟩ := List.exists_cons_of_ne_nil (List.splitOn_ne_nil slash path)
  rw [hsplit] at hfits ⊢
  rcases fits_cons.mp hfits with ⟨front, entries, -, hrest⟩ | ⟨hlast, -⟩
  · have hpiece : [] = piece := by simpa [accepts] using front.accepted
    cases pieces with
    | nil => cases (fits_nil.mp hrest).1
    | cons second more => exact ⟨second, more, by rw [hpiece]⟩
  · cases hlast

/-- A router with these routes, in this order. -/
def registered {η : Type} (entries : List (Method × Bytes × η)) : Router η :=
  entries.foldl (fun router entry => router.add entry.1 entry.2.1 entry.2.2) {}

theorem registered_routes {η : Type} (entries : List (Method × Bytes × η)) :
    (registered entries).routes =
      entries.map fun entry => ⟨entry.1, compile (normalizePath entry.2.1), entry.2.2⟩ := by
  have hfold : ∀ router : Router η,
      (entries.foldl (fun router entry => router.add entry.1 entry.2.1 entry.2.2) router).routes =
        router.routes ++
          entries.map fun entry => ⟨entry.1, compile (normalizePath entry.2.1), entry.2.2⟩ := by
    induction entries with
    | nil => simp
    | cons entry entries ih =>
      intro router
      rw [List.foldl_cons, ih, List.map_cons, Router.add, List.append_assoc]
      rfl
  exact hfold {}

theorem pathOf_head {target : Bytes} (h : target.head? ≠ some slash) :
    (pathOf target).head? ≠ some slash := by
  unfold pathOf
  rw [List.head?_take]
  split
  · exact (Option.some_ne_none slash).symm
  · exact h

/-- A route that serves a target begins with a slash only if the normalised path does. -/
theorem unmatched_of_relative {η : Type} {entries : List (Method × Bytes × η)}
    (rooted : ∀ entry ∈ entries, entry.2.1.head? = some slash) (method : Method) {target : Bytes}
    (relative : (routablePath target).head? ≠ some slash) :
    ((registered entries).find method target).pathMatched = false := by
  rw [Router.find_pathMatched, registered_routes, List.any_eq_false]
  intro route hroute
  obtain ⟨entry, hentry, rfl⟩ := List.mem_map.mp hroute
  obtain ⟨segment, pattern, hcompile⟩ := compile_rooted (rooted entry hentry)
  rw [Route.serves, hcompile, Bool.not_eq_true, Option.isSome_eq_false_iff,
    Option.isNone_iff_eq_none]
  by_contra hmatch
  obtain ⟨params, hparams⟩ := Option.ne_none_iff_exists'.mp hmatch
  exact relative (matches_rooted hparams)

/-- A pattern of as many segments as a path has, empty where they are. -/
def patternFor (piece : Bytes) : Bytes := if piece = [] then [] else bytes "<x>"

theorem patternFor_plain (piece : Bytes) :
    slash ∉ patternFor piece ∧ isDots (patternFor piece) = false := by
  unfold patternFor
  split <;> decide

theorem patternFor_fits (pieces : List Bytes) : ∃ entries,
    Fits ((pieces.map patternFor).map fun raw => compileSegment (resolveEscapes raw)) pieces
      entries := by
  induction pieces with
  | nil => exact ⟨[], .nil⟩
  | cons piece pieces ih =>
    obtain ⟨entries, hfits⟩ := ih
    refine ⟨_, .piece ?_ hfits⟩
    by_cases hempty : piece = []
    · subst hempty
      have hsegment : compileSegment (resolveEscapes (patternFor [])) = ⟨[], .none⟩ := by decide
      change Takes (compileSegment (resolveEscapes (patternFor []))) []
      rw [hsegment]
      exact ⟨by decide, rfl, by decide⟩
    · have hsegment : compileSegment (resolveEscapes (patternFor piece)) = ⟨bytes "x", .text⟩ := by
        rw [patternFor, if_neg hempty]
        decide
      change Takes (compileSegment (resolveEscapes (patternFor piece))) piece
      rw [hsegment]
      exact ⟨by decide, rfl, fun _ => hempty⟩

/-- Some pattern with a leading slash matches a normalised path that has one. -/
theorem matched_of_rooted {η : Type} (handler : η) {target : Bytes}
    (rooted : (routablePath target).head? = some slash) : ∃ entries : List (Method × Bytes × η),
      (∀ entry ∈ entries, entry.2.1.head? = some slash) ∧
      ((registered entries).find .get target).pathMatched = true := by
  obtain ⟨piece, pieces, hsplit⟩ := head_slash_iff.mp rooted
  have hplain : ∀ raw ∈ (piece :: pieces).map patternFor, slash ∉ raw ∧ isDots raw = false := by
    intro raw hraw
    obtain ⟨piece', -, rfl⟩ := List.mem_map.mp hraw
    exact patternFor_plain piece'
  have hpattern := normalizePath_rooted (by simp) hplain
  obtain ⟨captures, hfits⟩ := patternFor_fits (piece :: pieces)
  refine ⟨[(.get, slash :: [slash].intercalate ((piece :: pieces).map patternFor), handler)],
    by simp, ?_⟩
  rw [Router.find_pathMatched, registered_routes, List.map_singleton, List.any_cons,
    List.any_nil, Bool.or_false, Route.serves, compile, hpattern]
  have hmatch : Pattern.matches (([] :: ((piece :: pieces).map patternFor).map resolveEscapes).map
      compileSegment) (routablePath target) true = some ⟨captures⟩ := by
    rw [matches_iff, hsplit, List.map_cons]
    have hfront : Takes (compileSegment []) [] := ⟨by decide, rfl, by decide⟩
    refine .piece hfront ?_
    rw [List.map_map]
    exact hfits
  rw [hmatch]
  rfl

/-- Normalising gives a path its leading slash, and routes with one to match it, exactly when
an empty segment of a relative path surfaces. -/
theorem slash_kept {η : Type} (handler : η) :
    (∀ path, ((normalizePath path).head? = some slash ↔ path.head? = some slash) ↔
      (path.head? = some slash ∨ ¬ Surfaces path)) ∧
    ∀ target, target.head? ≠ some slash →
      ((∀ entries : List (Method × Bytes × η),
          (∀ entry ∈ entries, entry.2.1.head? = some slash) → ∀ method,
          ((registered entries).find method target).pathMatched = false) ↔
        ¬ Surfaces (pathOf target)) := by
  constructor
  · intro path
    rw [normalizePath_head]
    by_cases habsolute : path.head? = some slash <;> simp [habsolute]
  · intro target relative
    have hhead : (routablePath target).head? = some slash ↔ Surfaces (pathOf target) := by
      rw [routablePath, normalizePath_head]
      simp [pathOf_head relative]
    constructor
    · intro unmatched surfaces
      obtain ⟨entries, rooted, hmatched⟩ := matched_of_rooted handler (hhead.mpr surfaces)
      rw [unmatched entries rooted .get] at hmatched
      cases hmatched
    · intro sunk entries rooted method
      exact unmatched_of_relative rooted method (mt hhead.mp sunk)

/-- A relative path to `b` in `a` reaches no route. -/
theorem slash_kept_relative :
    ((registered [(.get, bytes "/a/b", 7)]).find .get (bytes "a/b")).pathMatched = false := by
  obtain ⟨hpath, htarget⟩ := slash_kept 7
  have hsunk : ¬ Surfaces (pathOf (bytes "a/b")) :=
    ((hpath (bytes "a/b")).mp (by decide)).resolve_left (by decide)
  exact (htarget (bytes "a/b") (by decide)).mpr hsunk _ (by decide) .get

/-- `x/..//y` is accepted, and served as `/y`. -/
theorem slash_invented : ¬ (∀ path, (normalizePath path).head? = some slash ↔
      path.head? = some slash) ∧
    ¬ ∀ (entries : List (Method × Bytes × Nat)) (line : Bytes) (parsed : RequestLine),
      (∀ entry ∈ entries, entry.2.1.head? = some slash) → parseRequestLine line = .ok parsed →
      parsed.target.head? ≠ some slash →
      ((registered entries).find parsed.method parsed.target).pathMatched = false := by
  constructor
  · intro claim
    exact absurd (claim (bytes "x/..//y")) (by decide)
  · intro claim
    have hunmatched := claim [(.get, bytes "/y", 0)] (bytes "GET x/..//y HTTP/1.1")
      ⟨.get, bytes "x/..//y", .http11⟩ (by decide) (by decide +kernel) (by decide)
    exact absurd hunmatched (by decide)

end Carafe.Server
