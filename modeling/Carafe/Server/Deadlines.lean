import Carafe.Server.Journal

/-!
# The deadline of a request

What has arrived behind the last whole request is the request being received, and the
read that waits for the rest of it should be bounded from its first byte on. The flag
and the deadline are set by reads and cleared by handovers alone, so they follow that
request only as long as no handover leaves bytes behind and no refused body ends.
-/

namespace Carafe.Server
open Http Net

/-- The flag and the receive timeout are those of the request being received. -/
structure Following (deadlines : Deadlines) (conn : Connection) (pending : List Stamped) :
    Prop where
  flag : conn.requestInProgress = true ↔ pending ≠ []
  limit : ∀ now, conn.readLimit now = match pending.head? with
    | some first => millisecondsUntil (first.2 + deadlines.request.span) now
    | none => some deadlines.idle

/-- The request being received is what has arrived behind the requests that were handed
over, or refused and drained. -/
def Follows (deadlines : Deadlines) (journal : Journal) (conn : Connection) : Prop :=
  ∃ done pending finished, journal.arrived = done ++ pending ∧
    Extents (done.map Prod.fst) finished ∧ Unfinished (pending.map Prod.fst) ∧
    (journal.results = finished ∨ ∃ version, journal.results = finished ++ [refusal version]) ∧
    Following deadlines conn pending

/-- The requests behind a waiting connection and the one being received. -/
theorem Waits.pending {deadlines : Deadlines} {journal : Journal} {waiting : Connection}
    (h : Waits deadlines journal waiting) : ∃ done pending finished,
      journal.bytes = done ++ pending ∧ Extents done finished ∧ Unfinished pending ∧
      (journal.results = finished ∨ ∃ version, journal.results = finished ++ [refusal version]) := by
  have position := h.position
  generalize journal.bytes = bytes at position
  generalize journal.results = results at position
  generalize waiting.reader.state = s at position
  generalize waiting.reader.unread = unread at position
  cases position with
  | between before partly unfinished => exact ⟨_, _, _, rfl, before, unfinished, Or.inl rfl⟩
  | dropping before complete states large bounded more unfinished =>
    exact ⟨_, _, _, rfl, before, unfinished, Or.inr ⟨_, rfl⟩⟩

theorem Clocked.following {deadlines : Deadlines} {journal : Journal} {conn : Connection}
    (h : Clocked deadlines journal conn) (seen : journal.seen ≤ journal.arrived.length) :
    Following deadlines conn (journal.arrived.drop journal.seen) := by
  have hmore : journal.arrived.drop journal.seen ≠ [] ↔
      journal.seen < journal.arrived.length := by
    rw [ne_eq, List.drop_eq_nil_iff]
    omega
  refine ⟨h.flag.trans hmore.symm, ?_⟩
  intro now
  unfold Connection.readLimit
  cases hfirst : (journal.arrived.drop journal.seen).head? with
  | none =>
    have hnil := List.head?_eq_none_iff.mp hfirst
    have hflag : ¬ conn.requestInProgress = true := fun hflag => hmore.mpr (h.flag.mp hflag) hnil
    simp [hflag, h.limits]
  | some first =>
    have hflag : conn.requestInProgress = true := by
      refine h.flag.mpr (hmore.mp ?_)
      rintro hnil
      rw [hnil] at hfirst
      cases hfirst
    simp [hflag, h.deadline first hfirst]

/-- In every run, at every read: where the last handover left no byte behind and no refused
body has ended since, the flag and the deadline are those of the request being received. -/
theorem Waits.follows {deadlines : Deadlines} {journal : Journal} {waiting : Connection}
    (h : Waits deadlines journal waiting) (clean : journal.handed = journal.seen)
    (undrained : Unfinished (journal.bytes.drop journal.handed)) :
    Follows deadlines journal waiting := by
  obtain ⟨conn, run, parse⟩ := h
  obtain ⟨done, pending, finished, hcut, whole, unfinished, hresults⟩ :=
    Waits.pending ⟨conn, run, parse⟩
  obtain ⟨-, seen, results, handed⟩ := run.handed
  have hsame : journal.bytes.take journal.handed ++ journal.bytes.drop journal.handed =
      done ++ pending := by
    rw [List.take_append_drop, hcut]
  obtain ⟨hdone, -, hpending⟩ := handed.unique whole undrained unfinished hsame
  refine ⟨journal.arrived.take journal.handed, journal.arrived.drop journal.handed, finished,
    (List.take_append_drop _ _).symm, ?_, ?_, hresults, ?_⟩
  · rw [List.map_take]
    change Extents (journal.bytes.take journal.handed) finished
    rwa [hdone]
  · rw [List.map_drop]
    exact undrained
  · rw [clean]
    exact (run.clocked.waiting parse).following seen

/-- The first byte of a request, read alone. -/
theorem Waits.follows_half : ∃ journal waiting, journal.bytes = bytes "G" ∧
    Follows {} journal waiting := by
  let round : Round := ⟨0, 0, .bytes (bytes "G") (by decide) (by decide), 5⟩
  have start : Run {} {} { deadlines := {} } := .fresh
  have run := start.pass round (by decide +kernel) (by decide +kernel)
  exact ⟨_, _, by decide, Waits.follows ⟨_, run, Prod.ext rfl (by decide +kernel)⟩ rfl
    (Unfinished.short (by decide))⟩

/-- The first byte of a second request, read together with the first one, has no deadline. -/
theorem Waits.deadline_missed : ¬ ∀ deadlines journal waiting round,
    Waits deadlines journal waiting → waiting.applyReadDeadline round = 0 →
      Follows deadlines journal waiting := by
  let round : Round :=
    ⟨0, 0, .bytes (bytes "GET / HTTP/1.1\r\nHost: a\r\n\r\nG") (by decide) (by decide), 5⟩
  have start : Run {} {} { deadlines := {} } := .fresh
  have run := (start.pass round (by decide +kernel) (by decide +kernel)).hand (by decide +kernel)
  intro h
  obtain ⟨done, pending, finished, hcut, hdone, unfinished, -, following⟩ :=
    h _ _ _ round ⟨_, run, Prod.ext rfl (by decide +kernel)⟩ (by decide +kernel)
  have hpending := run.pending_eq (Unfinished.short (by decide +kernel)) hcut hdone unfinished
  have hmore : pending ≠ [] := by
    rw [hpending]
    decide +kernel
  exact absurd (following.flag.mpr hmore) (by decide +kernel)

end Carafe.Server
