import Carafe.Http.Delivery
import Carafe.Http.Extents

/-!
# Whole requests are never lost

A reader that is given the front of whole requests, piece by piece, does not lose the
stream, unless a piece ends in the midst of the terminator of a line of exactly the
maximal length.
-/

namespace Carafe.Http
open Search TokenStream

/-- Nothing is read behind a failure. -/
theorem reads_lost {s t : Assembly} {e : Bytes} {ws : List RequestResult}
    (h : framing.Reads s e ws t) (lost : s.failure ≠ .none) : t = s := by
  cases h with
  | done => rfl
  | step token => exact absurd token.1 lost

/-- What is read of whole requests is read on to their end. -/
theorem Extents.goes_on {stream e more : Bytes} {results ws : List RequestResult} {s : Assembly}
    (whole : Extents stream results) (cut : stream = e ++ more)
    (reads : framing.Reads {} e ws s) : ∃ ys, framing.Reads s more ys {} := by
  have hwhole := whole.reads
  rw [cut] at hwhole
  obtain ⟨ys, -, hrest⟩ := reads.suffix hwhole
  exact ⟨ys, hrest⟩

/-- In front of the end of whole requests no state has failed. -/
theorem Extents.live {stream e : Bytes} {results ws : List RequestResult} {s : Assembly}
    (whole : Extents stream results) (more : Bytes) (cut : stream = e ++ more)
    (reads : framing.Reads {} e ws s) : s.failure = .none := by
  obtain ⟨ys, hrest⟩ := whole.goes_on cut reads
  by_contra lost
  rw [← reads_lost hrest lost] at lost
  exact lost rfl

/-- A line that is too long on the way through whole requests is one that is cut within
its terminator. -/
theorem Extents.halved {bytes v more : Bytes} {results ws : List RequestResult} {s : Assembly}
    (whole : Extents (bytes ++ (v ++ more)) results) (reads : framing.Reads {} bytes ws s)
    (line : s.phase.isLine = true) (long : LineReader.Overlong v) : Halved (bytes ++ v) := by
  have live := whole.live _ rfl reads
  obtain ⟨ys, hrest⟩ := whole.goes_on rfl reads
  have hne : v ++ more ≠ [] := by
    intro hnil
    exact long.nonempty (List.append_eq_nil_iff.mp hnil).1
  obtain ⟨c, f, t, out, xs, hcut, -, token, next, -⟩ := hrest.cons_inv hne
  rcases long.append more with long' | ⟨front, rest, rfl, rfl, clear, hlen⟩
  · exact absurd ⟨f, hcut.symm⟩ (Assembly.stuck_long line long' c token)
  · refine ⟨bytes, ws, s, front, (List.append_assoc _ _ _).symm, reads, live, line, clear, hlen, ?_⟩
    rintro ⟨hsize, malformed⟩
    have hline : s.Token (front ++ crlf) := by
      refine ⟨live, ?_⟩
      rw [hsize]
      exact ⟨front, rfl, clear, Nat.le_of_eq hlen⟩
    have hlost : (framing.next s (front ++ crlf)).1.failure ≠ .none := by
      have hconsume : s.consume (front ++ crlf) = s.acceptLine front := by
        simp [Assembly.consume, hsize, crlf, crlfSize]
      change (s.consume (front ++ crlf)).1.settle.failure ≠ .none
      rw [hconsume, Assembly.malformed_size hsize malformed, Assembly.settle_failure]
      exact s.refuseLine_lost.1
    refine hlost (whole.live rest ?_ (reads.trans (.single hline rfl)))
    simp [crlf]

/-- A call takes a live reader no further than whole requests go. -/
theorem Ran.call_live {stream more : Bytes} {answers results : List RequestResult}
    {reader : RequestReader} (h : Ran stream answers reader) (live : reader.failure = .none)
    (whole : Extents (stream ++ more) results) (kept : ¬ Halved stream) :
    reader.nextRequest.1.failure = .none := by
  by_contra lost
  obtain ⟨bytes, hcut, hreads⟩ := h.reads live
  obtain ⟨p, stands⟩ := h.stands live
  change reader.nextRequest.1.state.failure ≠ .none at lost
  have hanswered := RequestReader.nextRequest_answered stands.sane live
  generalize reader.nextRequest.1.state = t at lost hanswered
  generalize reader.nextRequest.1.unread = v at hanswered
  generalize reader.nextRequest.2 = result at hanswered
  generalize reader.unread = unread at hanswered hcut
  rcases hanswered with hpoll | ⟨s, hpoll, hstalled⟩
  · cases hpoll with
    | @emit s _ e c _ _ cut silent token next =>
      refine lost (whole.live (v ++ more) ?_
        ((hreads.trans silent).trans (.single token next)))
      simp [hcut, cut]
  · cases hpoll with
    | @wait _ e _ cut silent stuck =>
      have hlive := whole.live (v ++ more) (by simp [hcut, cut]) (hreads.trans silent)
      have hlong : s.phase.isLine = true ∧ (LineReader.lineOf v).2.error = .lineTooLong := by
        by_contra hnot
        rw [Assembly.stalled, if_neg hnot] at hstalled
        exact lost (by rw [← (Prod.mk.inj hstalled).1]; exact hlive)
      rw [hcut, cut, ← List.append_assoc, List.append_assoc] at whole
      rw [hcut, cut, ← List.append_assoc] at kept
      exact kept (whole.halved (hreads.trans silent) hlong.1 (LineReader.lineOf_overlong hlong.2))

end Carafe.Http
