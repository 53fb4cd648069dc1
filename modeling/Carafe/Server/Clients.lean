import Carafe.Server.Interleaving
import Carafe.Server.Wire

/-!
# What the clients get

Each connection has a client and a socket of its own. Whatever the threads do, the bytes
that go to it are what `serve_connection` sends or a part of the refusal, so a client reads
the responses to the first of its requests, or the refusal, and nothing else.
-/

namespace Carafe.Server
open Http Net History FramedStream TokenFlow

/-- The refusal as a client takes it that is owed the response to a request. -/
def refusalFor (wire : WireRequest) : Reply :=
  answer (statusResponse 503) true (wire.request.method ≠ .head)

theorem refusal_sendable (wire : WireRequest) : (refusalFor wire).Sendable := by
  cases hbody : decide (wire.request.method ≠ .head) with
  | true | false =>
    unfold refusalFor
    rw [hbody]
    decide +kernel

/-- A response to HEAD has no body, and the refusal has; it is no response itself. -/
theorem refusal_split (wire : WireRequest) : ∃ behind,
    refusalBytes = (refusalFor wire).bytes ++ behind ∧ ¬ crlf <:+: behind := by
  cases hbody : decide (wire.request.method ≠ .head) with
  | true =>
    refine ⟨[], ?_, by decide⟩
    unfold refusalFor
    rw [hbody]
    rfl
  | false =>
    refine ⟨(statusResponse 503).body, ?_, by decide⟩
    unfold refusalFor
    rw [hbody]
    rfl

theorem readResponse_clear {stream : Bytes} (clear : ¬ crlf <:+: stream) (withBody : Bool) :
    readResponse withBody stream = none := by
  cases hcut : cutLine stream with
  | none => simp [readResponse, hcut]
  | some found =>
    obtain ⟨hsplit, -⟩ := cutLine_split hcut
    exact absurd ⟨found.1, found.2, hsplit.symm⟩ clear

/-- A client that sends whole requests, and what its socket takes of the responses. -/
structure Peer (deadlines : Deadlines) where
  wires : List WireRequest
  rounds : List Round
  last : Round
  sends : Nat → Sending
  sent : Sent deadlines (wires.flatMap WireRequest.encode) rounds last

namespace Peer
variable {deadlines : Deadlines} (peer : Peer deadlines) (pipeline : Pipeline)

/-- What `serve_connection` answers it. -/
def answers : List Answer :=
  serveOver pipeline peer.sends 0 { deadlines := deadlines } (peer.rounds ++ [peer.last])

/-- Its responses as it takes them off the stream, one for each request. -/
def reads (stream : Bytes) : List Received :=
  (readFrames (peer.wires.map fun wire => readResponse (wire.request.method ≠ .head)) stream).1

/-- A client that is served reads the responses that were written to the end. -/
theorem reads_answers
    (sendable : ∀ wire ∈ peer.wires, ∀ field ∈ (pipeline.respond wire.request).2.headers.fields,
      field.Sendable) :
    peer.reads (wire (peer.answers pipeline)) =
      ((repliesTo pipeline peer.wires).take (delivered (peer.answers pipeline))).map
        Reply.received ∧
    ((∀ answer ∈ peer.answers pipeline, answer.outcome = some 0) →
      delivered (peer.answers pipeline) = (repliesTo pipeline peer.wires).length) := by
  obtain ⟨whole, cut, unsent, hanswers, -, hwhole, hfailed, hreplies, hall, hread⟩ :=
    serveOver_answers pipeline peer.sends peer.wires peer.sent sendable
  obtain ⟨later, hlater⟩ :=
    untilClosing_front (peer.wires.map fun wire => handledReply pipeline wire.request)
  have hreaders : (peer.wires.map fun wire => readResponse (wire.request.method ≠ .head)) =
      (repliesTo pipeline peer.wires).map (fun reply => readResponse reply.withBody) ++
        later.map fun reply => readResponse reply.withBody := by
    rw [← List.map_append, repliesTo, hlater, List.map_map]
    rfl
  have hlength : (repliesTo pipeline peer.wires).length =
      whole.length + cut.length + unsent.length := by
    rw [hreplies, List.length_append, List.length_map, List.length_append]
  change peer.answers pipeline = whole ++ cut at hanswers
  rw [hanswers, delivered_cut hwhole hfailed]
  refine ⟨?_, fun hsent => ?_⟩
  · unfold reads
    rw [hreaders, readFrames_behind, ← readReplies, hread]
    intro hfull read hmem
    rw [← readReplies, hread] at hfull ⊢
    simp only [List.length_map, List.length_take] at hfull
    obtain rfl : cut = [] := List.length_eq_zero_iff.mp (by omega)
    rw [List.head?_map] at hmem
    obtain ⟨reply, -, rfl⟩ := Option.map_eq_some_iff.mp hmem
    exact readResponse_clear (by simp [wire, crlf]) _
  · obtain rfl : cut = [] := by
      rw [List.eq_nil_iff_forall_not_mem]
      intro answer hmem
      exact hfailed answer hmem (hsent answer (List.mem_append_right _ hmem))
    rw [hlength, hall rfl]
    rfl

/-- One that is turned away reads the refusal, if all of it was taken. -/
theorem reads_turnedAway {wire : WireRequest} {wires : List WireRequest}
    (asks : peer.wires = wire :: wires) (taken : Nat) :
    peer.reads (refusalBytes.take taken) =
      if (refusalFor wire).bytes.length ≤ taken then [(refusalFor wire).received] else [] := by
  obtain ⟨behind, hsplit, clear⟩ := refusal_split wire
  let frame := (refusalFor wire).frame (refusal_sendable wire)
  unfold reads
  rw [asks]
  split
  · rename_i hlong
    have hread := readFrames_cut [frame] (wires.map fun wire =>
      readResponse (wire.request.method ≠ .head)) fun read hmem => by
        rw [List.head?_map] at hmem
        obtain ⟨next, -, rfl⟩ := Option.map_eq_some_iff.mp hmem
        refine @readResponse_clear (behind.take (taken - frame.text.length)) ?_ _
        exact fun within => clear (List.IsInfix.trans within (List.take_prefix _ _).isInfix)
    have htake : refusalBytes.take taken =
        ([frame].map Frame.text).flatten ++ behind.take (taken - frame.text.length) := by
      rw [hsplit, List.take_append, List.map_singleton, List.flatten_singleton]
      exact congrArg (· ++ _) (List.take_of_length_le hlong)
    rw [htake]
    exact congrArg Prod.fst hread
  · rename_i hshort
    have hlt := Nat.lt_of_not_le hshort
    have hread := readFrames_cut [] ((wire :: wires).map fun wire =>
      readResponse (wire.request.method ≠ .head)) fun read hmem => by
        obtain rfl : frame.read = read := Option.some.inj hmem
        exact frame.read_part (List.take_append_drop taken frame.text)
          fun hnil => hshort (List.drop_eq_nil_iff.mp hnil)
    have htake : refusalBytes.take taken = frame.text.take taken := by
      rw [hsplit]
      exact List.take_append_of_le_length (Nat.le_of_lt hlt)
    rw [htake]
    exact congrArg Prod.fst hread

/-- One that is turned away reads the refusal as its only response if all of that came, and
nothing otherwise. -/
theorem reads_refusal (taken : Nat) : peer.reads (refusalBytes.take taken) =
    ((peer.wires.take 1).filter fun wire =>
      (refusalFor wire).bytes.length ≤ (refusalBytes.take taken).length).map
        fun wire => (refusalFor wire).received := by
  cases hwires : peer.wires with
  | nil =>
    unfold reads
    rw [hwires]
    rfl
  | cons wire wires =>
    obtain ⟨behind, hsplit, -⟩ := refusal_split wire
    have hlength := congrArg List.length hsplit
    rw [List.length_append] at hlength
    have hfits : (refusalFor wire).bytes.length ≤ refusalBytes.length := by omega
    rw [peer.reads_turnedAway hwires]
    by_cases hlong : (refusalFor wire).bytes.length ≤ taken
    · simp [hlong, hfits]
    · simp [hlong]

/-- But for an answer to HEAD, `write_now` succeeds exactly where the client reads it. -/
theorem reads_writeNow {wire : WireRequest} {wires : List WireRequest}
    (asks : peer.wires = wire :: wires) (bodied : wire.request.method ≠ .head)
    (answers : List (SendResult refusalBytes.length)) :
    peer.reads (refusalBytes.take (writeNow refusalBytes answers).1) =
      if (writeNow refusalBytes answers).2 = some 0 then [(refusalFor wire).received] else [] := by
  have hbytes : (refusalFor wire).bytes = refusalBytes := by
    rw [refusalFor, decide_eq_true bodied]
    rfl
  rw [peer.reads_turnedAway asks, hbytes]
  refine if_congr ?_ rfl rfl
  rw [writeNow_taken (by decide +kernel) answers, List.drop_eq_nil_iff]

end Peer

namespace Event
variable {κ : Type} [DecidableEq κ] (conn : κ)

/-- The bytes that have gone to a connection; those of `serve_connection` count when it returns. -/
def sentTo (served : Bytes) : Event κ → Bytes
  | wrote client written => if client = some conn then written else []
  | ended client => if client = some conn then served else []
  | _ => []

def sends : Event κ → Bool
  | wrote client _ | ended client => client = some conn
  | _ => false

end Event

theorem flatMap_once {α β : Type} {p : α → Bool} {f : α → List β} {l : List α}
    (once : l.countP p ≤ 1) (silent : ∀ x ∈ l, p x = false → f x = []) {x : α} (mem : x ∈ l)
    (here : p x = true) : l.flatMap f = f x := by
  obtain ⟨front, back, rfl⟩ := List.mem_iff_append.mp mem
  rw [List.countP_append, List.countP_cons_of_pos here] at once
  have hsilent : ∀ part : List α, part ⊆ front ++ x :: back → part.countP p = 0 →
      part.flatMap f = [] := by
    intro part hpart hnone
    refine List.flatMap_eq_nil_iff.mpr fun y hy => silent y (hpart hy) ?_
    simpa using List.countP_eq_zero.mp hnone y hy
  have hfront := hsilent front (List.subset_append_left _ _) (by omega)
  have hback := hsilent back (fun y hy => by simp [hy]) (by omega)
  rw [List.flatMap_append, List.flatMap_cons, hfront, hback, List.nil_append, List.append_nil]

theorem PoolRun.wrote_refusal {κ : Type} {limits : PoolLimits} {past : List (Event κ)}
    {state : State κ} (h : PoolRun limits past state) {client : Socket κ} {written : Bytes}
    (mem : .wrote client written ∈ past) : ∃ taken, written = refusalBytes.take taken := by
  obtain ⟨before, after, reached, next, rfl, hrun, hstep⟩ := h.around mem
  cases hstep with
  | answered taken | turnedAway taken => exact ⟨taken, rfl⟩

section Sent
variable {κ : Type} [DecidableEq κ] {limits : PoolLimits} {past : List (Event κ)}
  {state : State κ} (conn : κ)

/-- A connection is closed behind the one or the other. -/
theorem PoolRun.sends_once (h : PoolRun limits past state) :
    past.countP (Event.sends conn) ≤ 1 := by
  refine Nat.le_trans (Nat.le_add_right _ _)
    (h.leave_once conn (p := Event.sends conn) (q := fun _ => false) (fun stage => stage ≠ .closing)
      ?_ ?_)
  · intro event
    cases event <;> simp [comesIn, Event.move, Move.enters, within, Event.calls]
  · intro event
    cases event <;> simp [goesOut, Event.move, Move.leaves, within, Event.sends]

theorem PoolRun.started_of_ended (h : PoolRun limits past state)
    (mem : .ended (some conn) ∈ past) : .started (some conn) ∈ past := by
  have hborder := h.border (fun stage => stage = .serving) (some conn)
  have hout : 0 < past.countP fun event =>
      goesOut (fun stage => decide (stage = .serving)) (some conn) event.move :=
    List.countP_pos_iff.mpr ⟨_, mem, by simp [goesOut, Event.move, Move.leaves, within]⟩
  obtain ⟨event, hmem, hin⟩ := List.countP_pos_iff.mp (hborder ▸ Nat.add_pos_right _ hout)
  cases event with
  | started client =>
    obtain rfl : client = some conn := by
      simpa [comesIn, Event.move, Move.enters, within] using hin
    exact hmem
  | _ => simp [comesIn, Event.move, Move.enters, within] at hin

/-- Nothing but what `serve_connection` sent goes to a connection that it has returned from,
and nothing but a part of the refusal to one that it never saw. -/
theorem PoolRun.sent (h : PoolRun limits past state) (served : Bytes) :
    (.ended (some conn) ∈ past → past.flatMap (Event.sentTo conn served) = served) ∧
    (.started (some conn) ∉ past →
      ∃ taken, past.flatMap (Event.sentTo conn served) = refusalBytes.take taken) := by
  have hsilent : ∀ event ∈ past, event.sends conn = false → event.sentTo conn served = [] := by
    intro event _ hnone
    cases event with
    | wrote client written | ended client => exact if_neg (by simpa [Event.sends] using hnone)
    | _ => rfl
  constructor
  · intro hended
    have hsent := flatMap_once (h.sends_once conn) hsilent hended (by simp [Event.sends])
    exact hsent.trans (if_pos rfl)
  · intro unstarted
    by_cases hwrote : ∃ written, .wrote (some conn) written ∈ past
    · obtain ⟨written, hwrote⟩ := hwrote
      obtain ⟨taken, rfl⟩ := h.wrote_refusal hwrote
      have hsent := flatMap_once (h.sends_once conn) hsilent hwrote (by simp [Event.sends])
      exact ⟨taken, hsent.trans (if_pos rfl)⟩
    · refine ⟨0, List.flatMap_eq_nil_iff.mpr fun event hmem => hsilent event hmem ?_⟩
      cases event with
      | wrote client written =>
        have hother : client ≠ some conn := by
          rintro rfl
          exact hwrote ⟨written, hmem⟩
        simpa [Event.sends] using hother
      | ended client =>
        have hother : client ≠ some conn := by
          rintro rfl
          exact unstarted (h.started_of_ended conn hmem)
        simpa [Event.sends] using hother
      | _ => rfl

end Sent

section Threads
variable {κ : Type} [DecidableEq κ] {limits : PoolLimits} {deadlines : Deadlines}
  {past : List (Act κ)} {process : Process κ}

/-- The bytes that have gone to a connection, where each of them has a client of its own. -/
def sentTo (pipeline : Pipeline) (peers : κ → Peer deadlines) (past : List (Act κ)) (conn : κ) :
    Bytes :=
  (past.filterMap Act.shown).flatMap (Event.sentTo conn (wire ((peers conn).answers pipeline)))

/-- From the threads to the clients. One that was served reads the responses to the first of
its requests, as many as were written to the end; one that was not reads the refusal, if all
of that went to it, or nothing. -/
theorem ProcessRun.clients_read (h : ProcessRun limits past process) (pipeline : Pipeline)
    (peers : κ → Peer deadlines) (conn : κ)
    (sendable : ∀ wire ∈ (peers conn).wires,
      ∀ field ∈ (pipeline.respond wire.request).2.headers.fields, field.Sendable) :
    (.pool (.ended (some conn)) ∈ past →
      (peers conn).reads (sentTo pipeline peers past conn) =
        ((repliesTo pipeline (peers conn).wires).take
          (delivered ((peers conn).answers pipeline))).map Reply.received ∧
      ((∀ answer ∈ (peers conn).answers pipeline, answer.outcome = some 0) →
        delivered ((peers conn).answers pipeline) =
          (repliesTo pipeline (peers conn).wires).length)) ∧
    (.pool (.started (some conn)) ∉ past →
      (peers conn).reads (sentTo pipeline peers past conn) =
        (((peers conn).wires.take 1).filter fun wire => (refusalFor wire).bytes.length ≤
          (sentTo pipeline peers past conn).length).map fun wire => (refusalFor wire).received) := by
  obtain ⟨hended, hunstarted⟩ := h.pool.sent conn (wire ((peers conn).answers pipeline))
  constructor
  · intro ended
    rw [sentTo, hended (List.mem_filterMap.mpr ⟨_, ended, rfl⟩)]
    exact (peers conn).reads_answers pipeline sendable
  · intro unstarted
    obtain ⟨taken, hsent⟩ := hunstarted fun hmem => by
      obtain ⟨act, hact, hshown⟩ := List.mem_filterMap.mp hmem
      cases act with
      | pool event =>
        cases hshown
        exact unstarted hact
      | _ => cases hshown
    rw [sentTo, hsent]
    exact (peers conn).reads_refusal taken

/-- A client that asks twice, and is gone within the second response. -/
def pairPeer : Peer {} where
  wires := [plainGet, plainGet]
  rounds := pairRounds
  last := ⟨0, 0, .ended, 0⟩
  sends := pairSends
  sent := pairRounds_sent

/-- The only worker has served one connection; another one is in the queue, and the third has
been turned away. -/
theorem ProcessRun.clients_read_pair : ∃ past, ∃ process : Process Nat,
    ProcessRun ⟨1, 1, 5000⟩ past process ∧ .pool (.ended (some 0)) ∈ past ∧
      pairPeer.reads (sentTo {} (fun _ => pairPeer) past 0) =
        ((repliesTo {} pairPeer.wires).take 1).map Reply.received ∧
      pairPeer.reads (sentTo {} (fun _ => pairPeer) past 2) = [(refusalFor plainGet).received] := by
  have hstart : ProcessRun ⟨1, 1, 5000⟩ ([] : List (Act Nat)) _ :=
    .start (.constructing 1 5 (by decide))
  have hspawned := hstart.step (@Process.Step.spawned _ _ _ _ [] [] rfl nofun rfl)
  have hconstructed := hspawned.step (.constructed rfl nofun)
  have hqueued := ProcessRun.queues hconstructed rfl rfl rfl (by decide) nofun 0 (by simp)
  have hserved := @ProcessRun.serves _ _ _ _ [] [] _ _ hqueued rfl rfl rfl rfl (by decide)
  have hfull := ProcessRun.queues hserved rfl rfl rfl (by decide) (by simp) 1 (by simp)
  have haccepted := hfull.step (.accepts (.accepted (2 : Nat) (by simp)))
  have hlocked := haccepted.step (.accepts (.locked rfl))
  have hrefused := hlocked.step (.accepts (.full (by simp)))
  have hreleased := hrefused.step (.accepts .letGo)
  have hwritten := hreleased.step (.accepts (.answered 500))
  have hended := hwritten.step (@Process.Step.works _ _ _ _ _ _ [] [] _ _ rfl .ended)
  have hread := ProcessRun.clients_read hended {} fun _ => pairPeer
  have hone : delivered (pairPeer.answers {}) = 1 := by decide +kernel
  have hfirst := ((hread 0 (by decide +kernel)).1 (by simp)).1
  rw [hone] at hfirst
  refine ⟨_, _, hended, by simp, hfirst, ((hread 2 (by decide +kernel)).2 (by simp)).trans ?_⟩
  refine congrArg (List.map _) (List.filter_eq_self.mpr fun wire hmem => ?_)
  obtain rfl : wire = plainGet := by simpa [pairPeer] using hmem
  decide +kernel

end Threads

end Carafe.Server
