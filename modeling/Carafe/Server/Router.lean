import Carafe.Http.Path

/-!
# The router

A pattern is compiled once; `matches` walks the path and the pattern together, one
piece for one segment. The second half says what a match is in terms of the pieces
of the path, and what of a target that the parser let through a capture can hold.
-/

namespace Carafe.Server
open Http Search Segments

def questionMark : UInt8 := '?'.toUInt8

def pathOf (target : Bytes) : Bytes :=
  target.take ((find questionMark 0 target).getD target.length)

def allDigits (text : Bytes) : Bool := text.all isDigit

def percentDecode : Bytes → Bytes
  | ch :: highCh :: lowCh :: tail =>
    if ch ≠ percent then ch :: percentDecode (highCh :: lowCh :: tail)
    else match asciiHexValue highCh, asciiHexValue lowCh with
      | some high, some low => escapedByte high low :: percentDecode tail
      | _, _ => ch :: percentDecode (highCh :: lowCh :: tail)
  | ch :: rest => ch :: percentDecode rest
  | [] => []

inductive Capture where
  | none
  | text
  | number
  | rest
  deriving DecidableEq, Repr

structure Segment where
  text : Bytes
  capture : Capture := .none
  deriving DecidableEq, Repr

abbrev Pattern := List Segment

def bindsAName : Capture → Bool
  | .none => false
  | .text | .number | .rest => true

def accepts (segment : Segment) (piece : Bytes) : Bool :=
  match segment.capture with
  | .none => segment.text = piece
  | .text => true
  | .number => allDigits piece
  | .rest => false

/-- The walk from a position of the path on, with the segments that are left. Without
`out` it answers yes or no alone. -/
def matchesFrom (out : Bool) (path : Bytes) : Pattern → Nat → List PathParam → Option Params
  | [], _, _ => none
  | segment :: pattern, start, captured =>
    let stop := find slash start path
    let piece := (path.drop start).take (stop.getD path.length - start)
    if bindsAName segment.capture ∧ piece = [] then none
    else if segment.capture = .rest then
      let rest := path.drop start
      let decoded := percentDecode rest
      -- A separator that decoding adds is one the walk never saw.
      if decoded.count slash ≠ rest.count slash then none
      else if pattern ≠ [] then none
      else some ⟨if out then captured ++ [⟨segment.text, decoded⟩] else captured⟩
    else if accepts segment piece = false then none
    else
      let captured := if bindsAName segment.capture ∧ out = true
        then captured ++ [⟨segment.text, percentDecode piece⟩] else captured
      match stop with
      | none => if pattern ≠ [] then none else some ⟨captured⟩
      | some stop => matchesFrom out path pattern (stop + 1) captured

def Pattern.matches (pattern : Pattern) (path : Bytes) (out : Bool) : Option Params :=
  matchesFrom out path pattern 0 []

def captureFor (converter : Bytes) : Capture :=
  if converter = bytes "str" then .text
  else if converter = bytes "int" then .number
  else if converter = bytes "path" then .rest
  else .none

def compileSegment (text : Bytes) : Segment :=
  if text.length < 3 ∨ text.head? ≠ some '<'.toUInt8 ∨ text.getLast? ≠ some '>'.toUInt8 then
    { text := text }
  else
    let inner := (text.drop 1).take (text.length - 2)
    match find colon 0 inner with
    | none => { text := inner, capture := .text }
    | some pos =>
      let capture := captureFor (inner.take pos)
      let name := inner.drop (pos + 1)
      if capture = .none ∨ name = [] then { text := text } else { text := name, capture := capture }

def compile (path : Bytes) : Pattern := (path.splitOn slash).map compileSegment

def routablePath (target : Bytes) : Bytes := normalizePath (pathOf target)

section Lookup
variable {η : Type}

structure Route (η : Type) where
  method : Method
  pattern : Pattern
  handler : η

structure Match (η : Type) where
  handler : Option η := none
  pathMatched : Bool := false
  params : Params := {}

structure Router (η : Type) where
  routes : List (Route η) := []

namespace Router

def add (router : Router η) (method : Method) (path : Bytes) (handler : η) : Router η where
  routes := router.routes ++ [⟨method, compile (normalizePath path), handler⟩]

/-- The scan in `find`, with the GET route that answers a HEAD if nothing else does. -/
def scan (method : Method) (path : Bytes) :
    List (Route η) → Option (η × Params) → Bool → Match η
  | [], some (handler, params), _ => ⟨some handler, true, params⟩
  | [], none, pathMatched => ⟨none, pathMatched, {}⟩
  | route :: routes, fallback, pathMatched =>
    match route.pattern.matches path true with
    | none => scan method path routes fallback pathMatched
    | some captured =>
      if route.method = method then ⟨some route.handler, true, captured⟩
      else if method = .head ∧ route.method = .get ∧ fallback.isNone then
        scan method path routes (some (route.handler, captured)) true
      else scan method path routes fallback true

def find (router : Router η) (method : Method) (target : Bytes) : Match η :=
  scan method (routablePath target) router.routes none false

def allow (path : Bytes) (allowed : List Method) (route : Route η) : List Method :=
  match route.pattern.matches path false with
  | none => allowed
  | some _ =>
    let allowed := if route.method ∈ allowed then allowed else allowed ++ [route.method]
    -- Beside the GET that implies it.
    if route.method = .get ∧ .head ∉ allowed then allowed ++ [.head] else allowed

def allowedMethods (router : Router η) (target : Bytes) : List Method :=
  router.routes.foldl (allow (routablePath target)) []

end Router

end Lookup

/-- One piece of a path in front of one segment that stands for one piece. -/
structure Takes (segment : Segment) (piece : Bytes) : Prop where
  single : segment.capture ≠ .rest
  accepted : accepts segment piece = true
  stands : bindsAName segment.capture = true → piece ≠ []

/-- What such a segment captures. -/
def bound (segment : Segment) (piece : Bytes) : List PathParam :=
  if bindsAName segment.capture then [⟨segment.text, percentDecode piece⟩] else []

/-- The last segment takes all the pieces that are left. -/
structure TakesRest (segment : Segment) (pieces : List Bytes) : Prop where
  rest : segment.capture = .rest
  stands : ∃ piece ∈ pieces.head?, piece ≠ []
  separators : (percentDecode ([slash].intercalate pieces)).count slash =
    ([slash].intercalate pieces).count slash

/-- A pattern and the pieces of a path fit, and these are the captures. -/
inductive Fits : Pattern → List Bytes → List PathParam → Prop where
  | nil : Fits [] [] []
  | piece {segment : Segment} {piece : Bytes} {pattern : Pattern} {pieces : List Bytes}
      {entries : List PathParam} (front : Takes segment piece)
      (tail : Fits pattern pieces entries) :
      Fits (segment :: pattern) (piece :: pieces) (bound segment piece ++ entries)
  | rest {segment : Segment} {pieces : List Bytes} (h : TakesRest segment pieces) :
      Fits [segment] pieces
        [⟨segment.text, percentDecode ([slash].intercalate pieces)⟩]

theorem fits_nil {pattern : Pattern} {entries : List PathParam} :
    Fits pattern [] entries ↔ pattern = [] ∧ entries = [] := by
  constructor
  · intro h
    generalize hpieces : ([] : List Bytes) = pieces at h
    cases h with
    | nil => exact ⟨rfl, rfl⟩
    | piece => cases hpieces
    | rest h =>
      subst hpieces
      simpa using h.stands
  · rintro ⟨rfl, rfl⟩
    exact .nil

theorem fits_cons {segment : Segment} {pattern : Pattern} {piece : Bytes} {more : List Bytes}
    {entries : List PathParam} : Fits (segment :: pattern) (piece :: more) entries ↔
      (Takes segment piece ∧ ∃ tail, entries = bound segment piece ++ tail ∧
        Fits pattern more tail) ∨
      (pattern = [] ∧ TakesRest segment (piece :: more) ∧
        entries = [⟨segment.text, percentDecode ([slash].intercalate (piece :: more))⟩]) := by
  constructor
  · intro h
    cases h with
    | piece front tail => exact Or.inl ⟨front, _, rfl, tail⟩
    | rest h => exact Or.inr ⟨rfl, h, rfl⟩
  · rintro (⟨front, tail, rfl, h⟩ | ⟨rfl, h, rfl⟩)
    · exact .piece front h
    · exact .rest h

/-- The first piece from a position on, and the pieces behind it. -/
theorem piece_front (path : Bytes) (start : Nat) : ∃ piece more,
    (path.drop start).splitOn slash = piece :: more ∧
    (path.drop start).take ((find slash start path).getD path.length - start) = piece ∧
    (find slash start path = none → more = []) ∧
    ∀ stop, find slash start path = some stop → more = (path.drop (stop + 1)).splitOn slash := by
  cases hfind : find slash start path with
  | none =>
    have fresh := find_eq_none_iff.mp hfind
    exact ⟨path.drop start, [], splitOn_piece fresh, List.take_of_length_le (by simp), by simp,
      by simp⟩
  | some n =>
    obtain ⟨piece, rest, hdrop, fresh, rfl⟩ := find_some hfind
    have hrest : path.drop (start + piece.length + 1) = rest := by
      rw [Nat.add_assoc, ← List.drop_drop, hdrop]
      simp
    refine ⟨piece, rest.splitOn slash, by rw [hdrop, splitOn_more fresh], ?_, by simp, ?_⟩
    · rw [Option.getD_some, hdrop, Nat.add_sub_cancel_left]
      simp
    · intro stop hstop
      rw [← Option.some.inj hstop, hrest]

theorem intercalate_splitOn (path : Bytes) : [slash].intercalate (path.splitOn slash) = path :=
  List.intercalate_splitOn slash

theorem matchesFrom_iff {path : Bytes} {pattern : Pattern} {start : Nat}
    {captured : List PathParam} {params : Params} :
    matchesFrom true path pattern start captured = some params ↔
      ∃ entries, params = ⟨captured ++ entries⟩ ∧
        Fits pattern ((path.drop start).splitOn slash) entries := by
  induction pattern generalizing start captured with
  | nil =>
    simp only [matchesFrom, reduceCtorEq, false_iff, not_exists, not_and]
    intro entries _ fits
    generalize hpieces : (path.drop start).splitOn slash = pieces at fits
    cases fits
    exact List.splitOn_ne_nil slash _ hpieces
  | cons segment pattern ih =>
    obtain ⟨piece, more, hpieces, htake, hlast, hmore⟩ := piece_front path start
    have hjoin : [slash].intercalate (piece :: more) = path.drop start := by
      rw [← hpieces, intercalate_splitOn]
    simp only [matchesFrom, htake, hpieces, fits_cons, hjoin]
    by_cases hstands : bindsAName segment.capture = true ∧ piece = []
    · obtain ⟨hbinds, rfl⟩ := hstands
      rw [if_pos ⟨hbinds, rfl⟩]
      simp only [reduceCtorEq, false_iff, not_exists, not_and]
      rintro entries - (⟨front, -⟩ | ⟨-, h, -⟩)
      · exact front.stands hbinds rfl
      · simpa using h.stands
    rw [if_neg hstands]
    by_cases hrest : segment.capture = .rest
    · have hbinds : bindsAName segment.capture = true := by rw [hrest]; rfl
      have hne : piece ≠ [] := fun h => hstands ⟨hbinds, h⟩
      have hsingle : ¬ Takes segment piece := fun h => h.single hrest
      have htakes : TakesRest segment (piece :: more) ↔
          (percentDecode (path.drop start)).count slash = (path.drop start).count slash := by
        rw [← hjoin]
        exact ⟨TakesRest.separators, fun h => ⟨hrest, by simpa using hne, h⟩⟩
      rw [if_pos hrest]
      simp only [hsingle, htakes, false_and, false_or]
      by_cases hcount : (percentDecode (path.drop start)).count slash =
          (path.drop start).count slash
      · by_cases hpattern : pattern = []
        · simp [hcount, hpattern, eq_comm]
        · simp [hcount, hpattern]
      · simp [hcount]
    · have htakesRest : ¬ TakesRest segment (piece :: more) := fun h => hrest h.rest
      rw [if_neg hrest]
      simp only [htakesRest, false_and, and_false, or_false]
      by_cases haccepts : accepts segment piece = true
      · have htakes : Takes segment piece := ⟨hrest, haccepts, fun hbinds h => hstands ⟨hbinds, h⟩⟩
        have hbound : (if bindsAName segment.capture = true ∧ True then
            captured ++ [⟨segment.text, percentDecode piece⟩] else captured) =
              captured ++ bound segment piece := by
          unfold bound
          by_cases hbinds : bindsAName segment.capture = true <;> simp [hbinds]
        rw [if_neg (by simp [haccepts]), hbound]
        simp only [htakes, true_and]
        cases hfind : find slash start path with
        | none =>
          rw [hlast hfind]
          simp only [fits_nil]
          by_cases hpattern : pattern = []
          · simp [hpattern, eq_comm]
          · simp [hpattern]
        | some stop =>
          simp only [ih, hmore stop hfind]
          constructor
          · rintro ⟨tail, rfl, fits⟩
            exact ⟨_, by rw [List.append_assoc], tail, rfl, fits⟩
          · rintro ⟨_, rfl, tail, rfl, fits⟩
            exact ⟨tail, by rw [List.append_assoc], fits⟩
      · have htakes : ¬ Takes segment piece := fun h => haccepts h.accepted
        simp [haccepts, htakes]

theorem matches_iff {pattern : Pattern} {path : Bytes} {params : Params} :
    pattern.matches path true = some params ↔ Fits pattern (path.splitOn slash) params.entries := by
  rw [Pattern.matches, matchesFrom_iff, List.drop_zero]
  constructor
  · rintro ⟨entries, rfl, fits⟩
    exact fits
  · exact fun fits => ⟨params.entries, rfl, fits⟩

/-- Asking for the captures does not change the answer. -/
theorem matchesFrom_out (path : Bytes) (pattern : Pattern) (start : Nat)
    (captured kept : List PathParam) : matchesFrom false path pattern start kept =
      (matchesFrom true path pattern start captured).map fun _ => ⟨kept⟩ := by
  induction pattern generalizing start captured with
  | nil => rfl
  | cons segment pattern ih =>
    simp only [matchesFrom]
    split
    · rfl
    split
    · split
      · rfl
      split <;> rfl
    split
    · rfl
    cases find slash start path with
    | none =>
      simp only
      split <;> simp
    | some stop => simpa using ih (stop + 1) _

theorem matches_out (pattern : Pattern) (path : Bytes) :
    (pattern.matches path false).isSome = (pattern.matches path true).isSome := by
  simp [Pattern.matches, matchesFrom_out path pattern 0 [] []]

/-- A segment for the rest is the last of a pattern that fits, and so is its capture. -/
theorem Fits.rest_last {pattern : Pattern} {pieces : List Bytes} {entries : List PathParam}
    (h : Fits pattern pieces entries) {i : Nat} {segment : Segment}
    (position : pattern[i]? = some segment) (isRest : segment.capture = .rest) :
    i + 1 = pattern.length ∧ TakesRest segment (pieces.drop i) ∧ entries.getLast? =
      some ⟨segment.text, percentDecode ([slash].intercalate (pieces.drop i))⟩ := by
  induction h generalizing i with
  | nil => cases position
  | piece front tail ih =>
    cases i with
    | zero =>
      rw [List.getElem?_cons_zero, Option.some.injEq] at position
      rw [position] at front
      exact False.elim (front.single isRest)
    | succ i =>
      obtain ⟨hlast, htakes, hentry⟩ := ih position
      refine ⟨by rw [List.length_cons, hlast], htakes, ?_⟩
      rw [List.getLast?_append, hentry]
      rfl
  | rest h =>
    cases i with
    | zero =>
      rw [List.getElem?_cons_zero, Option.some.injEq] at position
      subst position
      exact ⟨rfl, h, rfl⟩
    | succ i => cases position

theorem percentDecode_plain {ch : UInt8} (bare : ch ≠ percent) (rest : Bytes) :
    percentDecode (ch :: rest) = ch :: percentDecode rest := by
  match rest with
  | [] => rfl
  | [_] => rfl
  | _ :: _ :: _ => rw [percentDecode, if_pos bare]

theorem percentDecode_escape {highCh lowCh : UInt8} {high low : Nat}
    (isHigh : asciiHexValue highCh = some high) (isLow : asciiHexValue lowCh = some low)
    (rest : Bytes) : percentDecode (percent :: highCh :: lowCh :: rest) =
      escapedByte high low :: percentDecode rest := by
  simp [percentDecode, isHigh, isLow]

section Decode
variable {allowed : UInt8 → Prop} {text : Bytes} (h : Escaped allowed text)
include h

theorem percentDecode_slash (rest : Bytes) : percentDecode (text ++ slash :: rest) =
    percentDecode text ++ slash :: percentDecode rest := by
  induction h with
  | nil => exact percentDecode_plain slash_bare.1 rest
  | plain bare tail ih =>
    rw [List.cons_append, percentDecode_plain bare, percentDecode_plain bare, ih]
    rfl
  | escape isHigh isLow byte tail ih =>
    simp only [List.cons_append, percentDecode_escape isHigh isLow, ih]

theorem percentDecode_ne_nil (hne : text ≠ []) : percentDecode text ≠ [] := by
  cases h with
  | nil => exact False.elim (hne rfl)
  | plain bare => simp [percentDecode_plain bare]
  | escape isHigh isLow => simp [percentDecode_escape isHigh isLow]

end Decode

/-- An unreserved byte behind the first pass was never escaped. -/
theorem percentDecode_unreserved {text : Bytes}
    (h : Escaped (fun byte => asciiUnreserved byte = false) text)
    (unreserved : ∀ ch ∈ percentDecode text, asciiUnreserved ch = true) :
    percentDecode text = text := by
  induction h with
  | nil => rfl
  | plain bare tail ih =>
    rw [percentDecode_plain bare] at unreserved ⊢
    rw [ih fun ch hch => unreserved ch (List.mem_cons_of_mem _ hch)]
  | escape isHigh isLow reserved tail ih =>
    rw [percentDecode_escape isHigh isLow] at unreserved
    rw [unreserved _ List.mem_cons_self] at reserved
    cases reserved

/-- Decoding makes no dot segment of a segment that is none. -/
theorem walked_decode {segment : Bytes} (walked : Walked segment)
    (h : Escaped (fun byte => asciiUnreserved byte = false) segment) :
    Walked (percentDecode segment) := by
  have hdots : ∀ ch ∈ dotSegment ++ dotDotSegment, asciiUnreserved ch = true := by decide +kernel
  constructor
  · intro heq
    rw [percentDecode_unreserved h] at heq
    · exact walked.1 heq
    · intro ch hch
      exact hdots ch (List.mem_append_left _ (heq ▸ hch))
  · intro heq
    rw [percentDecode_unreserved h] at heq
    · exact walked.2 heq
    · intro ch hch
      exact hdots ch (List.mem_append_right _ (heq ▸ hch))

theorem percentDecode_intercalate {allowed : UInt8 → Prop} {pieces : List Bytes}
    (h : ∀ piece ∈ pieces, Escaped allowed piece) :
    percentDecode ([slash].intercalate pieces) =
      [slash].intercalate (pieces.map percentDecode) := by
  induction pieces with
  | nil => rfl
  | cons piece pieces ih =>
    by_cases hne : pieces = []
    · subst hne
      simp
    · have hpiece := h piece List.mem_cons_self
      rw [intercalate_cons hne, percentDecode_slash hpiece,
        ih fun piece hmem => h piece (List.mem_cons_of_mem _ hmem), List.map_cons,
        intercalate_cons (by simpa using hne)]

/-- What a capture has to be, to stay under the directory it is joined to, and the part of
the path it stands for. -/
structure Contained (part value : Bytes) : Prop where
  nonempty : value ≠ []
  relative : value.head? ≠ some slash
  noDots : ∀ segment ∈ value.splitOn slash, segment ≠ bytes "." ∧ segment ≠ bytes ".."
  separators : value.count slash = part.count slash

theorem TakesRest.contained {segment : Segment} {pieces : List Bytes}
    (h : TakesRest segment pieces) (bare : ∀ piece ∈ pieces, slash ∉ piece)
    (good : ∀ piece ∈ pieces, Walked piece ∧
      Escaped (fun byte => asciiUnreserved byte = false) piece) :
    Contained ([slash].intercalate pieces) (percentDecode ([slash].intercalate pieces)) := by
  obtain ⟨first, hfirst, hne⟩ := h.stands
  obtain ⟨more, rfl⟩ := List.head?_eq_some_iff.mp hfirst
  have hdecode := percentDecode_intercalate fun piece hmem => (good piece hmem).2
  have hcount := h.separators
  rw [hdecode] at hcount
  have hfresh := fresh_of_count (by simp) (by simp) bare hcount
  have hfront := percentDecode_ne_nil (good first List.mem_cons_self).2 hne
  have hfrontFresh : slash ∉ percentDecode first := hfresh _ (by simp)
  have hsplit : ([slash].intercalate ((first :: more).map percentDecode)).splitOn slash =
      (first :: more).map percentDecode := List.splitOn_intercalate slash hfresh (by simp)
  have hhead : ∃ ch rest, [slash].intercalate ((first :: more).map percentDecode) = ch :: rest ∧
      ch ∈ percentDecode first := by
    obtain ⟨ch, rest, hcons⟩ := List.exists_cons_of_ne_nil hfront
    by_cases hmore : more = []
    · exact ⟨ch, rest, by simp [hmore, hcons], by simp [hcons]⟩
    · exact ⟨ch, _, by rw [List.map_cons, intercalate_cons (by simpa using hmore), hcons]; rfl,
        by simp [hcons]⟩
  obtain ⟨ch, rest, hcons, hmem⟩ := hhead
  rw [hdecode]
  refine ⟨by rw [hcons]; exact List.cons_ne_nil ch rest, ?_, ?_, hcount⟩
  · rw [hcons, List.head?_cons]
    intro heq
    rw [Option.some.inj heq] at hmem
    exact hfrontFresh hmem
  · rw [hsplit]
    intro value hvalue
    obtain ⟨piece, hpiece, rfl⟩ := List.mem_map.mp hvalue
    exact walked_decode (good piece hpiece).1 (good piece hpiece).2

def Route.serves {η : Type} (route : Route η) (path : Bytes) : Bool :=
  (route.pattern.matches path true).isSome

/-- What a lookup reports for the handler and the captures it settled on. -/
def Match.of {η : Type} (pathMatched : Bool) : Option (η × Params) → Match η
  | some (handler, params) => ⟨some handler, true, params⟩
  | none => ⟨none, pathMatched, {}⟩

namespace Router
variable {η : Type}

/-- The handler and the captures of the first route of a method that serves a path. -/
def first (method : Method) (path : Bytes) (routes : List (Route η)) : Option (η × Params) :=
  routes.findSome? fun route =>
    if route.method = method then (route.pattern.matches path true).map (route.handler, ·) else none

/-- HEAD falls back on GET. -/
def answering (method : Method) (path : Bytes) (routes : List (Route η)) : Option (η × Params) :=
  (first method path routes).or (if method = .head then first .get path routes else none)

theorem first_cons (method : Method) (path : Bytes) (route : Route η) (routes : List (Route η)) :
    first method path (route :: routes) =
      (if route.method = method then (route.pattern.matches path true).map (route.handler, ·)
        else none).or (first method path routes) := by
  unfold first
  rw [List.findSome?_cons]
  generalize (if route.method = method then _ else none : Option (η × Params)) = own
  cases own <;> rfl

theorem scan_eq (method : Method) (path : Bytes) (routes : List (Route η))
    (fallback : Option (η × Params)) (pathMatched : Bool) :
    scan method path routes fallback pathMatched =
      Match.of (pathMatched || routes.any (·.serves path)) ((first method path routes).or
        (fallback.or (if method = .head then first .get path routes else none))) := by
  induction routes generalizing fallback pathMatched with
  | nil =>
    have hnone : ∀ method, first method path ([] : List (Route η)) = none := fun _ => rfl
    cases fallback <;> simp [scan, hnone, Match.of]
  | cons route routes ih =>
    have hserves : route.serves path = (route.pattern.matches path true).isSome := rfl
    simp only [scan, first_cons, List.any_cons, hserves]
    cases hmatch : route.pattern.matches path true with
    | none => simpa using ih fallback pathMatched
    | some captured =>
      by_cases hmethod : route.method = method
      · simp [hmethod, Match.of]
      · simp only [hmethod, if_false, Option.none_or, Option.isSome_some, Bool.true_or,
          Bool.or_true, Option.map_some]
        split
        · rename_i hfallback
          obtain ⟨hhead, hget, hnone⟩ := hfallback
          rw [Option.isNone_iff_eq_none] at hnone
          rw [ih, hnone]
          simp [hhead, hget]
        · rename_i hfallback
          rw [ih, Bool.true_or]
          cases fallback with
          | some found => simp
          | none =>
            by_cases hhead : method = .head
            · have hget : route.method ≠ .get := by simpa [hhead] using hfallback
              simp [hget]
            · simp [hhead]

/-- `find` settles on the first route of the method, and for a HEAD on the first GET else. -/
theorem find_eq (router : Router η) (method : Method) (target : Bytes) :
    router.find method target =
      Match.of (router.routes.any (·.serves (routablePath target)))
        (answering method (routablePath target) router.routes) := by
  rw [find, scan_eq]
  simp [answering]

theorem first_some {method : Method} {path : Bytes} {routes : List (Route η)} {handler : η}
    {params : Params} (h : first method path routes = some (handler, params)) :
    ∃ route ∈ routes, route.method = method ∧ route.handler = handler ∧
      route.pattern.matches path true = some params := by
  obtain ⟨route, hmem, hroute⟩ := List.exists_of_findSome?_eq_some h
  split at hroute
  · rename_i hmethod
    obtain ⟨captured, hmatch, heq⟩ := Option.map_eq_some_iff.mp hroute
    rw [Prod.mk.injEq] at heq
    exact ⟨route, hmem, hmethod, heq.1, heq.2 ▸ hmatch⟩
  · cases hroute

theorem first_isSome {method : Method} {path : Bytes} {routes : List (Route η)} :
    (first method path routes).isSome = true ↔
      ∃ route ∈ routes, route.serves path = true ∧ route.method = method := by
  unfold first
  rw [List.findSome?_isSome_iff]
  constructor
  · rintro ⟨route, hmem, hroute⟩
    split at hroute
    · rename_i hmethod
      exact ⟨route, hmem, by simpa [Route.serves] using hroute, hmethod⟩
    · cases hroute
  · rintro ⟨route, hmem, hserves, hmethod⟩
    exact ⟨route, hmem, by simpa [hmethod, Route.serves] using hserves⟩

/-- A route of this method serves a request for that one. -/
def Handles (served requested : Method) : Prop :=
  served = requested ∨ (served = .get ∧ requested = .head)

theorem answering_isSome {method : Method} {path : Bytes} {routes : List (Route η)} :
    (answering method path routes).isSome = true ↔
      ∃ route ∈ routes, route.serves path = true ∧ Handles route.method method := by
  unfold answering
  rw [Option.isSome_or, Bool.or_eq_true, first_isSome]
  by_cases hhead : method = .head
  · rw [if_pos hhead, first_isSome]
    constructor
    · rintro (⟨route, hmem, hserves, hmethod⟩ | ⟨route, hmem, hserves, hget⟩)
      · exact ⟨route, hmem, hserves, Or.inl hmethod⟩
      · exact ⟨route, hmem, hserves, Or.inr ⟨hget, hhead⟩⟩
    · rintro ⟨route, hmem, hserves, hmethod | ⟨hget, -⟩⟩
      · exact Or.inl ⟨route, hmem, hserves, hmethod⟩
      · exact Or.inr ⟨route, hmem, hserves, hget⟩
  · rw [if_neg hhead]
    simp [Handles, hhead]

theorem find_handler {router : Router η} {method : Method} {target : Bytes} :
    (router.find method target).handler.isSome =
      (answering method (routablePath target) router.routes).isSome := by
  rw [find_eq]
  cases answering method (routablePath target) router.routes <;> rfl

theorem find_pathMatched (router : Router η) (method : Method) (target : Bytes) :
    (router.find method target).pathMatched =
      router.routes.any (·.serves (routablePath target)) := by
  rw [find_eq]
  cases hanswering : answering method (routablePath target) router.routes with
  | none => rfl
  | some found =>
    obtain ⟨route, hmem, hserves, -⟩ := answering_isSome.mp (by rw [hanswering]; rfl)
    exact (List.any_eq_true.mpr ⟨route, hmem, hserves⟩).symm

theorem mem_allow {path : Bytes} {allowed : List Method} {route : Route η} {method : Method} :
    method ∈ allow path allowed route ↔
      method ∈ allowed ∨ (route.serves path = true ∧ Handles route.method method) := by
  have hout := matches_out route.pattern path
  unfold allow Route.serves
  rw [← hout]
  cases route.pattern.matches path false with
  | none => simp
  | some _ =>
    simp only [Option.isSome_some, true_and, Handles]
    grind

theorem allow_nodup {path : Bytes} {allowed : List Method} (route : Route η)
    (h : allowed.Nodup) : (allow path allowed route).Nodup := by
  unfold allow
  cases route.pattern.matches path false with
  | none => exact h
  | some _ => grind

theorem mem_foldl_allow {path : Bytes} {routes : List (Route η)} {allowed : List Method}
    {method : Method} : method ∈ routes.foldl (allow path) allowed ↔ method ∈ allowed ∨
      ∃ route ∈ routes, route.serves path = true ∧ Handles route.method method := by
  induction routes generalizing allowed with
  | nil => simp
  | cons route routes ih => simp [ih, mem_allow, or_assoc]

theorem foldl_allow_nodup {path : Bytes} {routes : List (Route η)} {allowed : List Method}
    (h : allowed.Nodup) : (routes.foldl (allow path) allowed).Nodup := by
  induction routes generalizing allowed with
  | nil => exact h
  | cons route routes ih => exact ih (allow_nodup route h)

/-- The methods of a path are those a lookup finds a handler for. -/
theorem mem_allowedMethods {router : Router η} {target : Bytes} {method : Method} :
    method ∈ router.allowedMethods target ↔
      (router.find method target).handler.isSome = true := by
  rw [allowedMethods, mem_foldl_allow, find_handler, answering_isSome]
  simp

theorem allowedMethods_nodup (router : Router η) (target : Bytes) :
    (router.allowedMethods target).Nodup :=
  foldl_allow_nodup List.nodup_nil

theorem allowedMethods_ne_nil {router : Router η} {target : Bytes} :
    router.allowedMethods target ≠ [] ↔
      ∃ route ∈ router.routes, route.serves (routablePath target) = true := by
  constructor
  · intro h
    obtain ⟨method, hmem⟩ := List.exists_mem_of_ne_nil _ h
    rw [mem_allowedMethods, find_handler, answering_isSome] at hmem
    obtain ⟨route, hroute, hserves, -⟩ := hmem
    exact ⟨route, hroute, hserves⟩
  · rintro ⟨route, hroute, hserves⟩
    have hmem : route.method ∈ router.allowedMethods target := by
      rw [mem_allowedMethods, find_handler, answering_isSome]
      exact ⟨route, hroute, hserves, Or.inl rfl⟩
    exact List.ne_nil_of_mem hmem

theorem pathOf_escaped {target : Bytes} (h : Escaped (fun _ => True) target) :
    Escaped (fun _ => True) (pathOf target) := by
  have bare : questionMark ≠ percent ∧ asciiHexValue questionMark = none := by decide
  unfold pathOf
  cases hfind : Search.find questionMark 0 target with
  | none => simpa using h
  | some n =>
    obtain ⟨front, rest, htarget, -, hn⟩ := find_some hfind
    rw [List.drop_zero] at htarget
    have hfront : target.take n = front := by simp [htarget, hn]
    rw [Option.getD_some, hfront]
    rw [htarget] at h
    exact (h.cut bare.1 bare.2).1

theorem answering_some {method : Method} {path : Bytes} {routes : List (Route η)} {handler : η}
    {params : Params} (h : answering method path routes = some (handler, params)) :
    ∃ route ∈ routes, route.handler = handler ∧
      route.pattern.matches path true = some params := by
  rcases Option.or_eq_some_iff.mp h with hown | ⟨-, hget⟩
  · obtain ⟨route, hmem, -, hhandler, hmatch⟩ := first_some hown
    exact ⟨route, hmem, hhandler, hmatch⟩
  · split at hget
    · obtain ⟨route, hmem, -, hhandler, hmatch⟩ := first_some hget
      exact ⟨route, hmem, hhandler, hmatch⟩
    · cases hget

/-- A handler comes with the captures of a route of its own. -/
theorem find_some_route {router : Router η} {method : Method} {target : Bytes} {handler : η}
    (found : (router.find method target).handler = some handler) :
    ∃ route ∈ router.routes, route.handler = handler ∧
      route.pattern.matches (routablePath target) true =
        some (router.find method target).params := by
  rw [find_eq] at found
  cases hanswering : answering method (routablePath target) router.routes with
  | none =>
    rw [hanswering] at found
    cases found
  | some answer =>
    rw [hanswering] at found
    obtain rfl := Option.some.inj found
    obtain ⟨route, hmem, hhandler, hmatch⟩ := answering_some hanswering
    refine ⟨route, hmem, hhandler, ?_⟩
    rw [hmatch, find_eq, hanswering]
    rfl

/-- A capture of the rest of the path stays under the directory it is joined to. -/
theorem rest_contained (router : Router η) (method : Method) {line : Bytes}
    {parsed : RequestLine} (h : parseRequestLine line = .ok parsed) {handler : η}
    (found : (router.find method parsed.target).handler = some handler) :
    ∃ route ∈ router.routes, route.handler = handler ∧
      route.pattern.matches (routablePath parsed.target) true =
        some (router.find method parsed.target).params ∧
      ∀ i segment, route.pattern[i]? = some segment → segment.capture = .rest →
        i + 1 = route.pattern.length ∧ ∃ value,
          (router.find method parsed.target).params.entries.getLast? =
            some ⟨segment.text, value⟩ ∧
          Contained ([slash].intercalate (((routablePath parsed.target).splitOn slash).drop i))
            value := by
  have hescaped := pathOf_escaped (Escaped.of_valid (parseRequestLine_sound h).2.escapes)
  obtain ⟨route, hmem, hhandler, hmatch⟩ := find_some_route found
  refine ⟨route, hmem, hhandler, hmatch, ?_⟩
  intro i segment position isRest
  obtain ⟨hlast, htakes, hentry⟩ := (matches_iff.mp hmatch).rest_last position isRest
  refine ⟨hlast, _, hentry, htakes.contained ?_ ?_⟩
  · exact fun piece hpiece => not_mem_piece (List.mem_of_mem_drop hpiece)
  · exact fun piece hpiece => normalizePath_segments hescaped (List.mem_of_mem_drop hpiece)

/-- A file asked for with detours and escapes. -/
theorem rest_contained_file : Contained (bytes "a%20b/c") (bytes "a b/c") := by
  let router : Router Nat := ({} : Router Nat).add .get (bytes "/files/<path:name>") 7
  let parsed : RequestLine := ⟨.head, bytes "/x/../files/./%61%20b/c?d", .http11⟩
  obtain ⟨route, hroute, -, -, h⟩ := @rest_contained Nat router .head parsed.text parsed
    (by decide +kernel) 7 (by decide)
  have hpattern : route.pattern[2]? = some ⟨bytes "name", .rest⟩ := by
    rw [List.mem_singleton.mp hroute]
    decide
  obtain ⟨-, value, hentry, hcontained⟩ := h 2 _ hpattern rfl
  have hlast : (router.find .head parsed.target).params.entries.getLast? =
      some ⟨bytes "name", bytes "a b/c"⟩ := by decide
  have hpart : [slash].intercalate (((routablePath parsed.target).splitOn slash).drop 2) =
      bytes "a%20b/c" := by decide
  rw [hlast] at hentry
  rw [hpart] at hcontained
  cases hentry
  exact hcontained

end Router

end Carafe.Server
