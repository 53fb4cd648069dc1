import Carafe.Http.RoundTrip
import Carafe.Http.Runs

/-!
# How a stream is delivered

The answers to a stream cut into appends, and the answers to the same bytes in one
piece. The one place where the two can differ is a cut between the CR and the LF
behind a line of exactly the maximal length: by then the buffer holds one byte more
than a line may have, and no terminator.
-/

namespace Carafe.Http
open Search TokenStream

namespace RequestReader

/-- Calls until nothing more comes or the stream is lost; `fuel` bounds their number. -/
def drainFuel : Nat → RequestReader → RequestReader × List RequestResult
  | 0, reader => (reader, [])
  | fuel + 1, reader =>
    let answer := reader.nextRequest
    if answer.2 = {} then (answer.1, [])
    else if answer.2.streamContinues = false then (answer.1, [answer.2])
    else
      let rest := drainFuel fuel answer.1
      (rest.1, answer.2 :: rest.2)

/-- Every answer takes a byte at least, so the fuel lasts to the last one. -/
def drain (reader : RequestReader) : RequestReader × List RequestResult :=
  drainFuel (reader.unread.length + 1) reader

/-- Appends one after another, each followed by calls; a lost stream ends it. -/
def feed (reader : RequestReader) : List Bytes → List RequestResult
  | [] => []
  | piece :: pieces =>
    let answers := (reader.append piece).drain
    if answers.1.failure ≠ .none then answers.2 else answers.2 ++ feed answers.1 pieces

end RequestReader

namespace Assembly

/-- The answer to a line that is already too long. -/
def closing (s : Assembly) (unread : Bytes) : List RequestResult :=
  if s.failure = .none ∧ s.phase.isLine = true ∧
      (LineReader.lineOf unread).2.error = .lineTooLong then [s.refuseLine.2] else []

/-- The answers to `unread`, when nothing more comes. -/
def Means (s : Assembly) (unread : Bytes) (results : List RequestResult) : Prop :=
  ∃ ws t v, framing.Settles s unread ws t v ∧ results = ws ++ t.closing v

theorem Means.unique {s : Assembly} {unread : Bytes} {results results' : List RequestResult}
    (h : s.Means unread results) (h' : s.Means unread results') : results = results' := by
  obtain ⟨ws, t, v, settles, rfl⟩ := h
  obtain ⟨ws', t', v', settles', rfl⟩ := h'
  obtain ⟨rfl, rfl, rfl⟩ := settles.unique settles'
  rfl

theorem closing_failed {s : Assembly} (lost : s.failure ≠ .none) (unread : Bytes) :
    s.closing unread = [] := by
  simp [closing, lost]

/-- A failed reader takes nothing more. -/
theorem stuck_failed {s : Assembly} (lost : s.failure ≠ .none) (unread : Bytes) :
    framing.Stuck s unread :=
  fun _ token _ => lost token.1

theorem stalled_closing {s : Assembly} (live : s.failure = .none) (unread : Bytes) :
    s.closing unread = [] ∧ s.stalled unread = (s, {}) ∨
    s.closing unread = [s.refuseLine.2] ∧ s.stalled unread = s.refuseLine := by
  unfold closing stalled
  by_cases h : s.phase.isLine = true ∧ (LineReader.lineOf unread).2.error = .lineTooLong
  · exact Or.inr ⟨if_pos ⟨live, h⟩, if_pos h⟩
  · exact Or.inl ⟨if_neg (fun h' => h h'.2), if_neg h⟩

end Assembly

namespace RequestReader
open Assembly

section Fuel
variable {reader : RequestReader} (fuel : Nat)

theorem drainFuel_pending (h : reader.nextRequest.2 = {}) :
    drainFuel (fuel + 1) reader = (reader.nextRequest.1, []) := by
  simp [drainFuel, h]

theorem drainFuel_lost (hne : reader.nextRequest.2 ≠ {})
    (h : reader.nextRequest.2.streamContinues = false) :
    drainFuel (fuel + 1) reader = (reader.nextRequest.1, [reader.nextRequest.2]) := by
  simp [drainFuel, hne, h]

theorem drainFuel_more (hne : reader.nextRequest.2 ≠ {})
    (h : ¬ reader.nextRequest.2.streamContinues = false) :
    drainFuel (fuel + 1) reader =
      ((drainFuel fuel reader.nextRequest.1).1,
        reader.nextRequest.2 :: (drainFuel fuel reader.nextRequest.1).2) := by
  rw [drainFuel]
  dsimp only
  rw [if_neg hne, if_neg h]

end Fuel

/-- Draining reads as far as the bytes go. -/
theorem drainFuel_settles {p : Bytes} {reader : RequestReader} (h : Stands p reader.state)
    {fuel : Nat} (enough : reader.unread.length < fuel) :
    ∃ ws t v, framing.Settles reader.state reader.unread ws t v ∧
      (drainFuel fuel reader).2 = ws ++ t.closing v ∧
      ((drainFuel fuel reader).1.failure = .none ↔ t.failure = .none ∧ t.closing v = []) ∧
      ((drainFuel fuel reader).1.failure = .none →
        (drainFuel fuel reader).1.Holds t v ∧ ∃ d, Stands d t) := by
  induction fuel generalizing p reader with
  | zero => omega
  | succ fuel ih =>
    rcases nextRequest_answered h.sane h.live with hpoll | ⟨t, hpoll, hstalled⟩
    · obtain ⟨d, hverdict⟩ := h.polls hpoll
      obtain ⟨hne, hcontinues⟩ := hverdict.streamContinues
      obtain ⟨e, hcut, hreads, hsome⟩ := hpoll.suffix
      by_cases live : reader.nextRequest.1.state.failure = .none
      · have hshorter : reader.nextRequest.1.unread.length < fuel := by
          have hpos := List.length_pos_of_ne_nil (hsome rfl)
          have hlen := congrArg List.length hcut
          rw [List.length_append] at hlen
          omega
        obtain ⟨ws, t, v, settles, hresults, hlost, hlive⟩ := ih (hverdict.stands live) hshorter
        rw [drainFuel_more fuel hne (fun hlost => hcontinues.mp hlost live), hresults]
        exact ⟨reader.nextRequest.2 :: ws, t, v, hpoll.settles_emit settles, rfl, hlost, hlive⟩
      · rw [drainFuel_lost fuel hne (hcontinues.mpr live)]
        refine ⟨[reader.nextRequest.2], _, _, ⟨e, hcut, hreads, stuck_failed live _⟩, ?_,
          ⟨fun hlive => False.elim (live hlive), fun hlive => hlive.1⟩,
          fun hlive => False.elim (live hlive)⟩
        rw [closing_failed live, List.append_nil]
    · obtain ⟨e, hcut, hreads, hstuck⟩ := hpoll.settles
      obtain ⟨_, d, -, hstands⟩ := h.reads hreads rfl
      refine ⟨[], t, reader.nextRequest.1.unread, ⟨e, hcut, hreads, hstuck⟩, ?_⟩
      rcases stalled_closing hstands.live reader.nextRequest.1.unread with
        ⟨hclosing, hpending⟩ | ⟨hclosing, hrefused⟩
      · rw [hpending, Prod.mk.injEq] at hstalled
        have hlive : reader.nextRequest.1.state.failure = .none := by
          rw [← hstalled.1]
          exact hstands.live
        rw [drainFuel_pending fuel hstalled.2.symm, hclosing]
        exact ⟨rfl, ⟨fun _ => ⟨hstands.live, rfl⟩, fun _ => hlive⟩,
          fun _ => ⟨⟨hstalled.1.symm, rfl⟩, d, hstands⟩⟩
      · rw [hrefused] at hstalled
        obtain ⟨hlost, hne, -, hstop⟩ := refuseLine_lost t
        rw [hstalled] at hlost hne hstop
        rw [drainFuel_lost fuel hne hstop, hclosing, hstalled]
        exact ⟨rfl, ⟨fun hlive => False.elim (hlost hlive), fun h => by cases h.2⟩,
          fun hlive => False.elim (hlost hlive)⟩

theorem drain_settles {p : Bytes} {reader : RequestReader} (h : Stands p reader.state) :
    ∃ ws t v, framing.Settles reader.state reader.unread ws t v ∧
      reader.drain.2 = ws ++ t.closing v ∧
      (reader.drain.1.failure = .none ↔ t.failure = .none ∧ t.closing v = []) ∧
      (reader.drain.1.failure = .none → reader.drain.1.Holds t v ∧ ∃ d, Stands d t) :=
  drainFuel_settles h (Nat.lt_succ_self _)

end RequestReader

/-- More bytes do not shorten a line that is too long, unless they bring the LF behind
a line of exactly the maximal length. -/
theorem LineReader.Overlong.append {unread : Bytes} (long : Overlong unread) (more : Bytes) :
    Overlong (unread ++ more) ∨ ∃ line rest, unread = line ++ [13] ∧ more = 10 :: rest ∧
      ¬ crlf <:+: line ∧ line.length = maxLineLength := by
  rcases long with ⟨clear, hlong⟩ | ⟨line, rest, rfl, clear, hlong⟩
  swap
  · exact Or.inl (Or.inr ⟨line, rest ++ more, by simp, clear, hlong⟩)
  rcases lineOf_cases (unread ++ more) with ⟨line, rest, hcut, hclear, short, -⟩ | ⟨h, -⟩ | ⟨-, h, -⟩
  · right
    have hpre : line <+: unread := by
      refine List.prefix_of_prefix_length_le ⟨crlf ++ rest, ?_⟩ (List.prefix_append unread more)
        (by omega)
      rw [hcut, List.append_assoc]
    obtain ⟨tail, rfl⟩ := hpre
    have htail : tail ++ more = 13 :: 10 :: rest := by simpa [crlf] using hcut
    rw [List.length_append] at hlong
    cases tail with
    | nil => simp at hlong; omega
    | cons ch tail =>
      have hch : ch = 13 := (List.cons.inj htail).1
      have htail' : tail ++ more = 10 :: rest := (List.cons.inj htail).2
      subst hch
      cases tail with
      | nil => exact ⟨line, rest, rfl, htail', hclear, by simp at hlong; omega⟩
      | cons ch tail =>
        have hch : ch = 10 := (List.cons.inj htail').1
        subst hch
        exact False.elim (clear ⟨line, tail, by simp [crlf]⟩)
  · exact Or.inl h
  · rw [List.length_append] at h
    omega

/-- `front` ends in the CR of a line of exactly the maximal length that is waited for,
and not just because that line is no chunk size anyway. -/
def Halved (front : Bytes) : Prop :=
  ∃ before ws s line, front = before ++ line ++ [13] ∧ framing.Reads {} before ws s ∧
    s.failure = .none ∧ s.phase.isLine = true ∧ ¬ crlf <:+: line ∧
    line.length = maxLineLength ∧
    ¬ (s.phase = .chunkSize ∧ (parseChunkSize line).error = .malformed)

/-- No append ends in the midst of such a line's terminator. -/
def KeepsTerminators (seen : Bytes) (pieces : List Bytes) : Prop :=
  ∀ front back, pieces = front ++ back → back.flatten.head? = some 10 →
    ¬ Halved (seen ++ front.flatten)

theorem not_halved_nil : ¬ Halved [] := by
  rintro ⟨before, ws, s, line, hcut, -⟩
  simp at hcut

theorem not_halved_short {front : Bytes} (h : front.length ≤ maxLineLength) : ¬ Halved front := by
  rintro ⟨before, ws, s, line, rfl, -, -, -, -, hlen, -⟩
  simp [hlen] at h
  omega

theorem KeepsTerminators.pair {front : Bytes} (h : ¬ Halved front) (back : Bytes) :
    KeepsTerminators [] [front, back] := by
  intro first last hpieces hhead
  cases first with
  | nil => exact not_halved_nil
  | cons piece first =>
    obtain ⟨rfl, hrest⟩ := List.cons.inj hpieces
    cases first with
    | nil => simpa using h
    | cons piece' first =>
      obtain ⟨-, hnil⟩ := List.cons.inj hrest
      obtain ⟨-, rfl⟩ := List.append_eq_nil_iff.mp hnil.symm
      cases hhead

theorem KeepsTerminators.single (piece : Bytes) : KeepsTerminators [] [piece] := by
  intro first last hpieces hhead
  cases first with
  | nil => exact not_halved_nil
  | cons piece' first =>
    obtain ⟨-, hnil⟩ := List.cons.inj hpieces
    obtain ⟨-, rfl⟩ := List.append_eq_nil_iff.mp hnil.symm
    cases hhead

namespace Assembly

theorem malformed_size {s : Assembly} (h : s.phase = .chunkSize) {line : Bytes}
    (malformed : (parseChunkSize line).error = .malformed) :
    s.acceptLine line = handOver s.refuseLine := by
  rw [acceptLine_chunkSize h, handleChunkSize]
  simp only [malformed, refuseLine, h]
  rfl

theorem closing_long {s : Assembly} (live : s.failure = .none) (h : s.phase.isLine = true)
    {unread : Bytes} (long : LineReader.Overlong unread) : s.closing unread = [s.refuseLine.2] :=
  if_pos ⟨live, h, by rw [long.lineOf]⟩

theorem stuck_long {s : Assembly} (h : s.phase.isLine = true) {unread : Bytes}
    (long : LineReader.Overlong unread) : framing.Stuck s unread :=
  stuck_line h (by rw [long.lineOf])

/-- A line that is taken is never answered as a line that is too long, but for a size
line that is malformed in any case. -/
theorem accept_ne_refuse {s : Assembly} (h : s.phase.isLine = true) {line : Bytes}
    (nonempty : line ≠ []) (harmful : ¬ (s.phase = .chunkSize ∧
      (parseChunkSize line).error = .malformed)) : (s.acceptLine line).2 ≠ some s.refuseLine.2 := by
  have hother : ∀ {answer : Option RequestResult},
      answer.map RequestResult.error ≠ some s.refuseLine.2.error → answer ≠ some s.refuseLine.2 := by
    rintro answer hne rfl
    exact hne rfl
  apply hother
  by_cases hsize : s.phase = .chunkSize
  · have herror : (parseChunkSize line).error ≠ .malformed := fun heq => harmful ⟨hsize, heq⟩
    rw [acceptLine_chunkSize hsize, handleChunkSize]
    split
    · simpa [handOver, Assembly.fail, refuseLine, hsize] using herror
    split
    · simp
    split
    · simp [handOver, Assembly.fail, refuseLine, hsize]
    · simp
  · rw [acceptLine_charged hsize]
    split
    · cases hphase : s.phase <;>
        simp [handOver, Assembly.fail, refuseLine, hphase, Phase.isLine] at h hsize ⊢
    cases hphase : s.phase with
    | requestLine =>
      dsimp only
      unfold handleRequestLine
      cases parseRequestLine line with
      | error err => cases err <;> simp [handOver, Assembly.fail, refuseLine, hphase]
      | ok value => simp
    | headers =>
      dsimp only
      unfold handleFieldLine
      rw [if_neg nonempty]
      dsimp only
      split
      · simp [handOver, Assembly.fail, refuseLine, hphase]
      · cases parseHeaderField line <;> simp [handOver, Assembly.fail, refuseLine, hphase]
    | trailers =>
      dsimp only
      unfold handleTrailerLine
      rw [if_neg nonempty]
      dsimp only
      split
      · simp [handOver, Assembly.fail, refuseLine, hphase]
      split
      · simp [handOver, Assembly.fail, refuseLine, hphase]
      · simp
    | body | discard | chunkData | chunkSize => simp [hphase, Phase.isLine] at h hsize

/-- Where the bytes so far end in a line that is too long, more of them change nothing. -/
theorem Means.overlong {s t : Assembly} {seen before unread v more : Bytes}
    {ws₀ ws : List RequestResult} (hseen : seen = before ++ unread)
    (before_reads : framing.Reads {} before ws₀ s) (settles : framing.Settles s unread ws t v)
    (live : t.failure = .none) (h : t.phase.isLine = true) (long : LineReader.Overlong v)
    (keeps : more.head? = some 10 → ¬ Halved seen) :
    s.Means (unread ++ more) (ws ++ [t.refuseLine.2]) := by
  rcases long.append more with long' | ⟨line, rest, rfl, rfl, clear, hlen⟩
  · have hrest : framing.Settles t (v ++ more) [] t (v ++ more) :=
      ⟨[], rfl, .done t, stuck_long h long'⟩
    refine ⟨ws, t, v ++ more, ?_, by rw [closing_long live h long']⟩
    simpa using settles.append hrest
  · have harmless : t.phase = .chunkSize ∧ (parseChunkSize line).error = .malformed := by
      by_contra hne
      obtain ⟨e, rfl, hreads, -⟩ := settles
      refine keeps rfl ⟨before ++ e, ws₀ ++ ws, t, line, ?_, before_reads.trans hreads, live, h,
        clear, hlen, hne⟩
      rw [hseen]
      simp
    have token := token_line live h clear (Nat.le_of_eq hlen)
    have hnext : framing.next t (line ++ crlf) = settled (handOver t.refuseLine) := by
      change settled (t.consume (line ++ crlf)) = _
      rw [consume_line h, malformed_size harmless.1 harmless.2]
    have hfail : t.refuseLine.1.settle.failure ≠ .none := (refuseLine_lost t).1
    have hstep : framing.Reads t (line ++ crlf) [t.refuseLine.2] t.refuseLine.1.settle :=
      Machine.Reads.single token hnext
    have hrest : framing.Settles t (line ++ [13] ++ 10 :: rest) [t.refuseLine.2]
        t.refuseLine.1.settle rest :=
      ⟨line ++ crlf, by simp [crlf], hstep, stuck_failed hfail rest⟩
    refine ⟨ws ++ [t.refuseLine.2], _, rest, settles.append hrest, ?_⟩
    rw [closing_failed hfail, List.append_nil]

end Assembly

namespace RequestReader
open Assembly

/-- Feeding a stream in pieces answers it as it stands. -/
theorem feed_means {reader : RequestReader} {seen before v d : Bytes} {ws₀ : List RequestResult}
    {s : Assembly} (holds : reader.Holds s v) (stands : Stands d s) (hseen : seen = before ++ v)
    (reads : framing.Reads {} before ws₀ s) (stuck : framing.Stuck s v) (open_ : s.closing v = [])
    (pieces : List Bytes) (keeps : KeepsTerminators seen pieces) :
    s.Means (v ++ pieces.flatten) (reader.feed pieces) := by
  induction pieces generalizing reader seen before v d ws₀ s with
  | nil =>
    refine ⟨[], s, v, ⟨[], by simp, .done s, stuck⟩, ?_⟩
    rw [open_]
    rfl
  | cons piece pieces ih =>
    obtain ⟨rfl, rfl⟩ := holds
    have stands' : Stands d (reader.append piece).state := stands
    obtain ⟨ws, t, v', settles, hresults, hlost, hlive⟩ := drain_settles stands'
    rw [append_state, append_unread] at settles
    have hseen' : seen ++ piece = before ++ (reader.unread ++ piece) := by
      rw [hseen, List.append_assoc]
    have keeps' : KeepsTerminators (seen ++ piece) pieces := by
      intro front back hpieces hhead halved
      refine keeps (piece :: front) back (by rw [hpieces]; rfl) hhead ?_
      rwa [List.flatten_cons, ← List.append_assoc]
    rw [List.flatten_cons, ← List.append_assoc, feed]
    by_cases live : (reader.append piece).drain.1.failure = .none
    · obtain ⟨holds', d', stands''⟩ := hlive live
      obtain ⟨hliveT, hclosing⟩ := hlost.mp live
      obtain ⟨e, hcut, hreads, stuck'⟩ := settles
      have hseen'' : seen ++ piece = (before ++ e) ++ v' := by rw [hseen', hcut, List.append_assoc]
      obtain ⟨ws', t', r, settles', hfeed⟩ := ih holds' stands'' hseen'' (reads.trans hreads) stuck'
        hclosing keeps'
      rw [if_neg (not_not.mpr live), hresults, hclosing, List.append_nil, hfeed]
      refine ⟨ws ++ ws', t', r, ?_, by simp⟩
      exact Machine.Settles.append ⟨e, hcut, hreads, stuck'⟩ settles'
    · rw [if_pos live, hresults]
      by_cases hliveT : t.failure = .none
      · have hlong : t.phase.isLine = true ∧ (LineReader.lineOf v').2.error = .lineTooLong := by
          by_contra hshort
          exact live (hlost.mpr ⟨hliveT, if_neg (fun h => hshort h.2)⟩)
        have long := LineReader.lineOf_overlong hlong.2
        rw [closing_long hliveT hlong.1 long]
        refine Means.overlong hseen' reads settles hliveT hlong.1 long fun hhead halved => ?_
        refine keeps [piece] pieces rfl hhead ?_
        simpa using halved
      · have hrest : framing.Settles t (v' ++ pieces.flatten) [] t (v' ++ pieces.flatten) :=
          ⟨[], rfl, .done t, stuck_failed hliveT _⟩
        refine ⟨ws, t, v' ++ pieces.flatten, ?_, ?_⟩
        · simpa using settles.append hrest
        · rw [closing_failed hliveT, closing_failed hliveT]

/-- However the stream is cut, short of halving a terminator, it is answered alike. -/
theorem feed_uncut {pieces : List Bytes} (keeps : KeepsTerminators [] pieces) :
    ({} : Assembly).Means pieces.flatten (({} : RequestReader).feed pieces) := by
  have hstuck : framing.Stuck {} [] := fun c token hpre =>
    framing.nonempty _ _ token (List.prefix_nil.mp hpre)
  exact feed_means Holds.fresh (.partly .start) rfl (.done _) hstuck (by decide) pieces keeps

/-- A cut that halves a terminator loses the stream at that line. -/
theorem feed_halved {before line : Bytes} {ws : List RequestResult} {s : Assembly}
    (reads : framing.Reads {} before ws s) (live : s.failure = .none)
    (h : s.phase.isLine = true) (clear : ¬ crlf <:+: line) (hlen : line.length = maxLineLength)
    (pieces : List Bytes) :
    ({} : RequestReader).feed ((before ++ line ++ [13]) :: pieces) = ws ++ [s.refuseLine.2] := by
  have hclear : ¬ crlf <:+: line ++ [13] := clear_concat (by decide) clear
  have long : LineReader.Overlong (line ++ [13]) := Or.inl ⟨hclear, by simp [hlen]⟩
  have settles : framing.Settles {} (before ++ line ++ [13]) ws s (line ++ [13]) :=
    ⟨before, by simp, reads, stuck_long h long⟩
  have stands : Stands [] (({} : RequestReader).append (before ++ line ++ [13])).state :=
    .partly .start
  obtain ⟨ws', t, v, settles', hresults, hlost, -⟩ := drain_settles stands
  rw [append_unread, fresh_unread, List.nil_append, append_state, fresh_state] at settles'
  obtain ⟨rfl, rfl, rfl⟩ := settles.unique settles'
  have hclosing := closing_long live h long
  have lost : ¬ (({} : RequestReader).append (before ++ line ++ [13])).drain.1.failure = .none := by
    rw [hlost, hclosing]
    simp
  rw [feed, if_pos lost, hresults, hclosing]

/-- The same bytes with the LF in time are answered otherwise. -/
theorem feed_whole {before line : Bytes} {ws : List RequestResult} {s : Assembly}
    (reads : framing.Reads {} before ws s) (live : s.failure = .none)
    (h : s.phase.isLine = true) (clear : ¬ crlf <:+: line) (hlen : line.length = maxLineLength) :
    ({} : RequestReader).feed [before ++ line ++ crlf] = ws ++ (s.acceptLine line).2.toList := by
  have token := token_line live h clear (Nat.le_of_eq hlen)
  have hnext : framing.next s (line ++ crlf) = settled (s.acceptLine line) := by
    change settled (s.consume (line ++ crlf)) = _
    rw [consume_line h]
  have settles : framing.Settles {} [before ++ line ++ crlf].flatten
      (ws ++ (s.acceptLine line).2.toList) (s.acceptLine line).1.settle [] := by
    refine ⟨before ++ (line ++ crlf), by simp, reads.trans (Machine.Reads.single token hnext), ?_⟩
    exact fun c token hpre => framing.nonempty _ _ token (List.prefix_nil.mp hpre)
  refine (feed_uncut (.single _)).unique ⟨_, _, _, settles, ?_⟩
  have hshort : (LineReader.lineOf []).2.error ≠ .lineTooLong := by decide
  rw [closing, if_neg (fun h => hshort h.2.2), List.append_nil]

/-- A request line of exactly the maximal length. -/
def longestLine : RequestLine where
  method := .get
  target := bytes "/" ++ List.replicate 8178 'a'.toUInt8
  version := .http11

theorem longestLine_length : longestLine.text.length = maxLineLength := by decide +kernel

def hostLine : FieldLine where
  name := bytes "Host"
  before := bytes " "
  value := bytes "a"
  after := []
  nameNonempty := by decide
  nameToken := by decide
  beforeOws := by decide +kernel
  afterOws := by decide +kernel
  valueChars := by decide
  valueFirst := by decide +kernel
  valueLast := by decide +kernel

def longestRequest : WireRequest where
  line := longestLine
  fields := [hostLine]
  body := .none
  target := ⟨by decide, by decide +kernel, by decide +kernel, by decide +kernel⟩
  lineShort := Nat.le_of_eq longestLine_length
  fieldsShort := by decide
  fieldCount := by decide
  headSize := by decide +kernel
  bodySize := by decide
  hostRule := by decide
  framed := ⟨by decide, by decide⟩

/-- The request is answered in one piece and refused in two. -/
theorem feed_depends_on_cuts : ¬ ∀ pieces pieces' : List Bytes,
    pieces.flatten = pieces'.flatten →
      ({} : RequestReader).feed pieces = ({} : RequestReader).feed pieces' := by
  intro h
  have halved : ({} : RequestReader).feed [[] ++ longestLine.text ++ [13],
      [10] ++ fieldLines [hostLine] ++ crlf] = [] ++ [({} : Assembly).refuseLine.2] :=
    feed_halved (.done _) rfl rfl (RequestLine.text_plain longestRequest.target)
      longestLine_length _
  have settles : framing.Settles {} [longestRequest.encode].flatten
      [delivery longestRequest.request] {} [] := by
    refine ⟨longestRequest.encode, by simp, longestRequest.reads, ?_⟩
    exact fun c token hpre => framing.nonempty _ _ token (List.prefix_nil.mp hpre)
  have whole := (feed_uncut (.single longestRequest.encode)).unique
    ⟨_, _, _, settles, rfl⟩
  have same : [[] ++ longestLine.text ++ [13], [10] ++ fieldLines [hostLine] ++ crlf].flatten =
      [longestRequest.encode].flatten := by
    simp [WireRequest.encode, longestRequest, WireBody.text, crlf]
  rw [h _ _ same, whole] at halved
  exact absurd (congrArg (List.map RequestResult.error) halved) (by decide)

/-- Cutting behind `front` changes nothing, whatever follows, exactly if it halves no
terminator; and two cuts that halve none are answered alike. -/
theorem feed_cuts (pieces pieces' : List Bytes) (front : Bytes) :
    (pieces.flatten = pieces'.flatten →
      KeepsTerminators [] pieces → KeepsTerminators [] pieces' →
      ({} : RequestReader).feed pieces = ({} : RequestReader).feed pieces') ∧
    ((∀ back : Bytes,
      ({} : RequestReader).feed [front, back] = ({} : RequestReader).feed [front ++ back]) ↔
        ¬ Halved front) := by
  refine ⟨?_, ?_, ?_⟩
  · intro same keeps keeps'
    have hmeans := feed_uncut keeps
    rw [same] at hmeans
    exact hmeans.unique (feed_uncut keeps')
  · rintro alike ⟨before, ws, s, line, rfl, reads, live, h, clear, hlen, harmful⟩
    have hcut := alike [10]
    have hwhole := feed_whole reads live h clear hlen
    have hjoin : before ++ line ++ [13] ++ [10] = before ++ line ++ crlf := by simp [crlf]
    rw [feed_halved reads live h clear hlen, hjoin, hwhole, List.append_cancel_left_eq] at hcut
    have nonempty : line ≠ [] := by
      rintro rfl
      simp [maxLineLength] at hlen
    refine accept_ne_refuse h nonempty harmful ?_
    cases hanswer : (s.acceptLine line).2 with
    | none => simp [hanswer] at hcut
    | some result =>
      rw [hanswer] at hcut
      exact congrArg some (List.cons.inj hcut).1.symm
  · intro whole back
    have hmeans := feed_uncut (.pair whole back)
    have hsame : [front, back].flatten = [front ++ back].flatten := by simp
    rw [hsame] at hmeans
    exact hmeans.unique (feed_uncut (.single _))

/-- A cut in the midst of a shorter line's terminator does no harm. -/
theorem feed_cuts_short :
    ({} : RequestReader).feed [bytes "GET / HTTP/1.0\r", bytes "\n\r\n"] =
      ({} : RequestReader).feed [bytes "GET / HTTP/1.0\r" ++ bytes "\n\r\n"] :=
  (feed_cuts [] [] (bytes "GET / HTTP/1.0\r")).2.mpr (not_halved_short (by decide)) _

end RequestReader

end Carafe.Http
