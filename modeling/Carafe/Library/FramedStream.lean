import Mathlib.Data.List.Infix

/-!
# Frames on a stream that may be cut

A reader takes one frame off the front of a stream and does not look at what stands
behind it. A writer that stops within a frame has then written the frames before it and
nothing else that could be read: a frame that was cut short is not mistaken for a whole
one.
-/

namespace FramedStream

universe u v
variable {α : Type u} {β : Type v}

/-- What was read, and what is left of the stream. -/
abbrev Reader (α : Type u) (β : Type v) := List α → Option (β × List α)

/-- What follows a frame makes no difference to it. -/
def Local (read : Reader α β) : Prop :=
  ∀ stream value rest, read stream = some (value, rest) →
    ∀ more, read (stream ++ more) = some (value, rest ++ more)

/-- The text of one value for a reader that ends where the text does. -/
structure Frame (α : Type u) (β : Type v) where
  read : Reader α β
  text : List α
  value : β
  reads : read text = some (value, [])
  isLocal : Local read

namespace Frame

theorem read_append (frame : Frame α β) (rest : List α) :
    frame.read (frame.text ++ rest) = some (frame.value, rest) := by
  simpa using frame.isLocal frame.text frame.value [] frame.reads rest

/-- A part of a frame is not read as anything, whatever it looks like. -/
theorem read_part (frame : Frame α β) {part left : List α} (cut : part ++ left = frame.text)
    (short : left ≠ []) : frame.read part = none := by
  cases h : frame.read part with
  | none => rfl
  | some found =>
    have hwhole := frame.isLocal part found.1 found.2 h left
    rw [cut, frame.reads] at hwhole
    have hrest : [] = found.2 ++ left := congrArg Prod.snd (Option.some.inj hwhole)
    exact absurd (List.append_eq_nil_iff.mp hrest.symm).2 short

end Frame

/-- As many frames as are whole, and what stands behind them. -/
def readFrames : List (Reader α β) → List α → List β × List α
  | [], stream => ([], stream)
  | read :: reads, stream =>
    match read stream with
    | none => ([], stream)
    | some (value, rest) => (value :: (readFrames reads rest).1, (readFrames reads rest).2)

/-- The frames ahead of a cut are read, and nothing else is. -/
theorem readFrames_cut (frames : List (Frame α β)) (behind : List (Reader α β)) {part : List α}
    (stuck : ∀ read ∈ behind.head?, read part = none) :
    readFrames (frames.map Frame.read ++ behind) ((frames.map Frame.text).flatten ++ part) =
      (frames.map Frame.value, part) := by
  induction frames with
  | nil =>
    cases behind with
    | nil => simp [readFrames]
    | cons read behind => simp [readFrames, stuck read rfl]
  | cons frame frames ih =>
    have hfirst := frame.read_append ((frames.map Frame.text).flatten ++ part)
    simp only [List.map_cons, List.cons_append, List.flatten_cons, List.append_assoc, readFrames,
      hfirst, ih]

/-- Readers behind those that have taken all they can change nothing, if they find nothing. -/
theorem readFrames_behind (reads behind : List (Reader α β)) {stream : List α}
    (stuck : (readFrames reads stream).1.length = reads.length →
      ∀ read ∈ behind.head?, read (readFrames reads stream).2 = none) :
    readFrames (reads ++ behind) stream = readFrames reads stream := by
  induction reads generalizing stream with
  | nil =>
    cases behind with
    | nil => rfl
    | cons read behind =>
      have hnone : read stream = none := stuck rfl read rfl
      simp [readFrames, hnone]
  | cons read reads ih =>
    cases hread : read stream with
    | none => simp [readFrames, hread]
    | some found =>
      obtain ⟨value, rest⟩ := found
      simp only [readFrames, hread, List.length_cons] at stuck
      have hrest := @ih rest fun hlen => stuck (congrArg (· + 1) hlen)
      simp only [List.cons_append, readFrames, hread, hrest]

end FramedStream
