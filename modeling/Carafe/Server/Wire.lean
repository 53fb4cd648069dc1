import Carafe.Library.FramedStream
import Carafe.Net.Interrupts
import Carafe.Server.Exchange
import Carafe.Server.Persistence
import Carafe.Server.Pool

/-!
# Responses that are cut short

Each response goes out in a loop of its own, which may end with a part of it sent. The
server then stops, so that nothing follows the part, and a client that takes responses
off the stream gets those that were written to the end and no other.
-/

namespace Carafe.Server
open Http Net Search FramedStream Retries

theorem cutLine_split {stream line rest : Bytes} (h : cutLine stream = some (line, rest)) :
    stream = line ++ crlf ++ rest ∧ ¬ crlf <:+: line := by
  obtain ⟨n, hn, heq⟩ := Option.map_eq_some_iff.mp h
  obtain ⟨line', rest', rfl, rfl, hclear⟩ := findPattern_split hn
  obtain ⟨rfl, rfl⟩ := Prod.mk.inj heq
  constructor
  · simp [crlf]
  · simpa [crlf] using hclear

theorem cutLine_local : Local cutLine := by
  intro stream line rest h more
  obtain ⟨rfl, hclear⟩ := cutLine_split h
  rw [List.append_assoc]
  exact cutLine_line hclear (rest ++ more)

theorem readFields_local : Local readFields := by
  intro stream
  induction hlen : stream.length using Nat.strongRecOn generalizing stream with
  | ind n ih =>
    intro fields rest h more
    rw [readFields] at h
    split at h
    · cases h
    · rename_i rest' hcut
      cases h
      obtain ⟨rfl, -⟩ := cutLine_split hcut
      simpa using readFields_blank (rest ++ more)
    · rename_i line rest' hne hcut
      obtain ⟨field, hfield, h⟩ := Option.bind_eq_some_iff.mp h
      obtain ⟨⟨fields', rest''⟩, hrest, h⟩ := Option.map_eq_some_iff.mp h
      cases h
      have hshorter := cutLine_shorter hcut
      have hmore := ih rest'.length (by omega) rest' rfl fields' rest'' hrest more
      obtain ⟨rfl, hclear⟩ := cutLine_split hcut
      have hfirst := readFields_field hclear (fun hnil => hne hnil) (rest' ++ more)
      rw [hfield, hmore] at hfirst
      simpa using hfirst

theorem readResponse_local (withBody : Bool) : Local (readResponse withBody) := by
  intro stream received rest h more
  obtain ⟨⟨line, rest₁⟩, hline, h⟩ := Option.bind_eq_some_iff.mp h
  obtain ⟨status, hstatus, h⟩ := Option.bind_eq_some_iff.mp h
  obtain ⟨⟨fields, rest₂⟩, hfields, h⟩ := Option.bind_eq_some_iff.mp h
  obtain ⟨length, hlength, h⟩ := Option.bind_eq_some_iff.mp h
  have hmore := cutLine_local stream line rest₁ hline more
  have hfieldsMore := readFields_local rest₁ fields rest₂ hfields more
  simp only [readResponse, hmore, Option.bind_some, hstatus, hfieldsMore, hlength]
  split at h
  · rename_i hbare
    cases h
    simp [hbare]
  · rename_i hbody
    split at h
    · rename_i hfits
      cases h
      have hlong : length ≤ (rest₂ ++ more).length := by
        rw [List.length_append]
        omega
      simp only [if_neg hbody, if_pos hlong, List.take_append_of_le_length hfits,
        List.drop_append_of_le_length hfits]
    · cases h

/-- The fields of a response can be sent. -/
def Reply.Sendable (reply : Reply) : Prop := ∀ field ∈ reply.response.headers.fields, field.Sendable

instance (reply : Reply) : Decidable reply.Sendable :=
  inferInstanceAs (Decidable (∀ field ∈ reply.response.headers.fields, field.Sendable))

def Reply.received (reply : Reply) : Received := reply.response.received reply.withBody

def Reply.frame (reply : Reply) (sendable : reply.Sendable) : Frame UInt8 Received where
  read := readResponse reply.withBody
  text := reply.bytes
  value := reply.received
  reads := by
    have hread := Response.readResponse_serialize (fun field hfield =>
      (sendable field (List.mem_of_mem_filter hfield)).spelled) reply.withBody []
    rwa [List.append_nil] at hread
  isLocal := readResponse_local reply.withBody

/-- Responses as they come off the stream, with what the client knows about their bodies. -/
def readReplies (replies : List Reply) (stream : Bytes) : List Received × Bytes :=
  readFrames (replies.map fun reply => readResponse reply.withBody) stream

/-- Whole responses, and then a part of the next one or nothing behind the last. -/
theorem readReplies_cut {replies : List Reply} (sendable : ∀ reply ∈ replies, reply.Sendable)
    (later : List Reply) {part : Bytes}
    (cut : ∀ next ∈ later.head?, next.Sendable ∧ ∃ left ≠ [], part ++ left = next.bytes) :
    readReplies (replies ++ later) ((replies.map Reply.bytes).flatten ++ part) =
      (replies.map Reply.received, part) := by
  have hstuck : ∀ read ∈ (later.map fun reply => readResponse reply.withBody).head?,
      read part = none := by
    intro read hmem
    cases later with
    | nil => cases hmem
    | cons next later =>
      obtain ⟨hsendable, left, hleft, hpart⟩ := cut next rfl
      rw [← Option.mem_some_iff.mp hmem]
      exact (next.frame hsendable).read_part hpart hleft
  have hread := readFrames_cut
    (replies.attach.map fun reply => reply.1.frame (sendable reply.1 reply.2)) _ hstuck
  simpa [readReplies, Reply.frame, Function.comp_def] using hread

/-- The clock ahead of a `write`, and what the system answers in its rounds. -/
structure Sending where
  start : TimePoint
  rounds : List WriteRound

def Connection.write (conn : Connection) (bytes : Bytes) (sending : Sending) :
    List Attempt × Option Errno :=
  Net.write bytes conn.deadlines.request sending.start sending.rounds

/-- A response, the calls of `send` that were made for it, and what `write` returned. -/
structure Answer where
  turn : Turn
  attempts : List Attempt
  outcome : Option Errno

/-- `serve` with the writes made, one script for each response. -/
def serveOver (pipeline : Pipeline) (sends : Nat → Sending) (written : Nat) (conn : Connection)
    (rounds : List Round) : List Answer :=
  match hnext : conn.nextRequest rounds with
  | (_, none, _) => []
  | (next, some result, rest) =>
    match hreply : replyTo pipeline next result with
    | none => []
    | some reply =>
      let out := next.write reply.bytes (sends written)
      if hopen : reply.closing = false ∧ out.2 = some 0 then
        have := pass_work hnext hreply hopen.1
        ⟨⟨next, result, reply⟩, out.1, out.2⟩ ::
          serveOver pipeline sends (written + 1) next rest
      else [⟨⟨next, result, reply⟩, out.1, out.2⟩]
termination_by conn.pendingWork rounds

section Unfolded
variable {pipeline : Pipeline} {sends : Nat → Sending} {written : Nat} {conn next : Connection}
  {rounds rest : List Round}

theorem ended_unanswered {result : ConnectionResult}
    (hreply : replyTo pipeline next result = none) :
    ∀ ended ∈ some result, replyTo pipeline next ended = none := by
  rintro _ ⟨⟩
  exact hreply

theorem serveOver_unanswered {result : Option ConnectionResult}
    (hnext : conn.nextRequest rounds = (next, result, rest))
    (hreply : ∀ ended ∈ result, replyTo pipeline next ended = none) :
    serveOver pipeline sends written conn rounds = [] := by
  rw [serveOver]
  split
  · rfl
  · rename_i next' ended rest' h
    cases hnext.symm.trans h
    split
    · rfl
    · rename_i reply hsome
      rw [hreply ended rfl] at hsome
      cases hsome

theorem serveOver_answered {result : ConnectionResult} {reply : Reply}
    (hnext : conn.nextRequest rounds = (next, some result, rest))
    (hreply : replyTo pipeline next result = some reply) :
    serveOver pipeline sends written conn rounds =
      ⟨⟨next, result, reply⟩, (next.write reply.bytes (sends written)).1,
          (next.write reply.bytes (sends written)).2⟩ ::
        if reply.closing = false ∧ (next.write reply.bytes (sends written)).2 = some 0 then
          serveOver pipeline sends (written + 1) next rest else [] := by
  rw [serveOver]
  split
  · rename_i h
    cases hnext.symm.trans h
  · rename_i next' ended rest' h
    cases hnext.symm.trans h
    split
    · rename_i hnone
      cases hreply.symm.trans hnone
    · rename_i reply' hsome
      cases hreply.symm.trans hsome
      dsimp only
      by_cases hopen : reply.closing = false ∧ (next.write reply.bytes (sends written)).2 = some 0
      · rw [dif_pos hopen, if_pos hopen]
      · rw [dif_neg hopen, if_neg hopen]

end Unfolded

/-- What the client gets. -/
def wire (answers : List Answer) : Bytes := answers.flatMap fun answer => accepted answer.attempts

section Sends
variable {pipeline : Pipeline} {sends : Nat → Sending} {written : Nat} {conn : Connection}
  {rounds : List Round}

theorem Connection.write_conserves (conn : Connection) (bytes : Bytes) (sending : Sending) :
    ∃ left, accepted (conn.write bytes sending).1 ++ left = bytes ∧
      ((conn.write bytes sending).2 = some 0 ↔ left = []) :=
  writeFrom_conserves _ bytes sending.rounds

/-- What was taken of a response is a front of it, and all of it if `write` says so. -/
theorem serveOver_conserves {answer : Answer}
    (h : answer ∈ serveOver pipeline sends written conn rounds) :
    ∃ left, accepted answer.attempts ++ left = answer.turn.reply.bytes ∧
      (answer.outcome = some 0 ↔ left = []) := by
  fun_induction serveOver pipeline sends written conn rounds with
  | case1 | case2 => cases h
  | case3 written conn rounds next result rest hnext reply hreply out hopen _ ih =>
    rcases List.mem_cons.mp h with rfl | h
    · exact next.write_conserves reply.bytes (sends written)
    · exact ih h
  | case4 written conn rounds next result rest hnext reply hreply out hopen =>
    rw [List.mem_singleton.mp h]
    exact next.write_conserves reply.bytes (sends written)

/-- All but the last were written to the end. -/
theorem serveOver_cut : ∃ whole cut, serveOver pipeline sends written conn rounds = whole ++ cut ∧
    cut.length ≤ 1 ∧ (∀ answer ∈ whole, answer.outcome = some 0) ∧
      ∀ answer ∈ cut, answer.outcome ≠ some 0 := by
  fun_induction serveOver pipeline sends written conn rounds with
  | case1 | case2 => exact ⟨[], [], rfl, Nat.zero_le 1, by simp, by simp⟩
  | case3 written conn rounds next result rest hnext reply hreply out hopen _ ih =>
    obtain ⟨whole, cut, heq, hcut, hwhole, hfailed⟩ := ih
    refine ⟨_ :: whole, cut, by rw [heq, List.cons_append], hcut, ?_, hfailed⟩
    intro answer hmem
    rcases List.mem_cons.mp hmem with rfl | hmem
    · exact hopen.2
    · exact hwhole answer hmem
  | case4 written conn rounds next result rest hnext reply hreply out hopen =>
    by_cases hout : out.2 = some 0
    · exact ⟨[_], [], rfl, Nat.zero_le 1, by simpa using hout, by simp⟩
    · exact ⟨[], [_], rfl, Nat.le_refl 1, by simp, by simpa using hout⟩

/-- The responses are those of `serve` with the same outcomes. -/
theorem serveOver_serve {writes : Nat → Bool}
    (same : ∀ i answer, (serveOver pipeline sends written conn rounds)[i]? = some answer →
      (writes (written + i) = true ↔ answer.outcome = some 0)) :
    (serveOver pipeline sends written conn rounds).map Answer.turn =
      serve pipeline writes written conn rounds := by
  fun_induction serveOver pipeline sends written conn rounds with
  | case1 written conn rounds next rest hnext =>
    rw [serve_unanswered hnext (by simp)]
    rfl
  | case2 written conn rounds next result rest hnext hreply =>
    rw [serve_unanswered hnext (ended_unanswered hreply)]
    rfl
  | case3 written conn rounds next result rest hnext reply hreply out hopen _ ih =>
    have hfirst : writes written = true := (same 0 _ rfl).mpr hopen.2
    rw [serve_answered hnext hreply, if_pos ⟨hopen.1, hfirst⟩, List.map_cons]
    refine congrArg (_ :: ·) (ih fun i answer hanswer => ?_)
    have hlater := same (i + 1) answer hanswer
    rwa [show written + (i + 1) = written + 1 + i by omega] at hlater
  | case4 written conn rounds next result rest hnext reply hreply out hopen =>
    have hfirst : writes written = true ↔ out.2 = some 0 := same 0 _ rfl
    rw [serve_answered hnext hreply, if_neg (fun h => hopen ⟨h.1, hfirst.mp h.2⟩)]
    rfl

/-- With the outcomes of its writes `serve` goes as far as without failures, or less far. -/
theorem serve_front (pipeline : Pipeline) (writes : Nat → Bool) (written : Nat)
    (conn : Connection) (rounds : List Round) : ∃ later,
      serve pipeline (fun _ => true) written conn rounds =
        serve pipeline writes written conn rounds ++ later ∧
      ((∀ i < (serve pipeline writes written conn rounds).length, writes (written + i) = true) →
        later = []) := by
  fun_induction serve pipeline writes written conn rounds with
  | case1 written conn rounds next rest hnext =>
    exact ⟨[], by rw [serve_unanswered hnext (by simp)]; rfl, fun _ => rfl⟩
  | case2 written conn rounds next result rest hnext hreply =>
    exact ⟨[], by rw [serve_unanswered hnext (ended_unanswered hreply)]; rfl, fun _ => rfl⟩
  | case3 written conn rounds next result rest hnext reply hreply hopen _ ih =>
    obtain ⟨later, hlater, hall⟩ := ih
    refine ⟨later, ?_, fun h => hall fun i hi => ?_⟩
    · rw [serve_answered hnext hreply, if_pos ⟨hopen.1, rfl⟩, hlater, List.cons_append]
    · have hnextWrite := h (i + 1) (Nat.succ_lt_succ hi)
      rwa [show written + (i + 1) = written + 1 + i by omega] at hnextWrite
  | case4 written conn rounds next result rest hnext reply hreply hopen =>
    refine ⟨_, serve_answered hnext hreply, fun h => ?_⟩
    have hfirst : writes written = true := h 0 Nat.zero_lt_one
    exact if_neg fun hclosing => hopen ⟨hclosing.1, hfirst⟩

/-- How many responses were written to the end. -/
def delivered (answers : List Answer) : Nat :=
  answers.countP fun answer => answer.outcome = some 0

theorem delivered_cut {whole cut : List Answer} (sent : ∀ answer ∈ whole, answer.outcome = some 0)
    (failed : ∀ answer ∈ cut, answer.outcome ≠ some 0) :
    delivered (whole ++ cut) = whole.length := by
  have hwhole : delivered whole = whole.length :=
    List.countP_eq_length.mpr fun answer hmem => decide_eq_true (sent answer hmem)
  have hcut : delivered cut = 0 :=
    List.countP_eq_zero.mpr fun answer hmem => by simpa using failed answer hmem
  rw [delivered, List.countP_append]
  exact congrArg₂ (· + ·) hwhole hcut

/-- Of a response that was not written to the end a proper part is sent. -/
theorem wire_cut {cut : List Answer} (one : cut.length ≤ 1)
    (conserves : ∀ answer ∈ cut, ∃ left,
      accepted answer.attempts ++ left = answer.turn.reply.bytes ∧
        (answer.outcome = some 0 ↔ left = []))
    (failed : ∀ answer ∈ cut, answer.outcome ≠ some 0) {reply : Reply}
    (next : (cut.map fun answer => answer.turn.reply).head? = some reply) :
    ∃ left ≠ [], wire cut ++ left = reply.bytes := by
  cases cut with
  | nil => cases next
  | cons answer cut =>
    obtain rfl : cut = [] := List.length_eq_zero_iff.mp (by simpa using one)
    obtain ⟨left, hleft, hsent⟩ := conserves answer List.mem_cons_self
    obtain rfl : answer.turn.reply = reply := by simpa using next
    refine ⟨left, fun hnil => failed answer List.mem_cons_self (hsent.mpr hnil), ?_⟩
    simpa [wire] using hleft

/-- A part of a response is the last that is sent, and is not read. -/
theorem readReplies_wire {whole cut : List Answer} {later : List Reply} (one : cut.length ≤ 1)
    (conserves : ∀ answer ∈ whole ++ cut, ∃ left,
      accepted answer.attempts ++ left = answer.turn.reply.bytes ∧
        (answer.outcome = some 0 ↔ left = []))
    (sent : ∀ answer ∈ whole, answer.outcome = some 0)
    (failed : ∀ answer ∈ cut, answer.outcome ≠ some 0) (complete : cut = [] → later = [])
    (sendable : ∀ answer ∈ whole ++ cut, answer.turn.reply.Sendable) :
    readReplies ((whole ++ cut).map (fun answer => answer.turn.reply) ++ later)
        (wire (whole ++ cut)) =
      (whole.map (fun answer => answer.turn.reply.received), wire cut) := by
  have htext : ∀ answer ∈ whole, accepted answer.attempts = answer.turn.reply.bytes := by
    intro answer hmem
    obtain ⟨left, hleft, hsent⟩ := conserves answer (List.mem_append_left _ hmem)
    rw [← hleft, hsent.mp (sent answer hmem), List.append_nil]
  have hwire : wire (whole ++ cut) =
      ((whole.map fun answer => answer.turn.reply).map Reply.bytes).flatten ++ wire cut := by
    rw [wire, List.flatMap_append, List.flatMap_def, List.map_congr_left htext, List.map_map]
    rfl
  have hcut : ∀ next ∈ (cut.map (fun answer => answer.turn.reply) ++ later).head?,
      next.Sendable ∧ ∃ left ≠ [], wire cut ++ left = next.bytes := by
    intro next hnext
    have hhead : (cut.map fun answer => answer.turn.reply).head? = some next := by
      cases cut with
      | nil => simp [complete rfl] at hnext
      | cons answer cut => exact hnext
    obtain ⟨answer, hmem, rfl⟩ := List.mem_map.mp (List.mem_of_mem_head? hhead)
    refine ⟨sendable answer (List.mem_append_right _ hmem), ?_⟩
    exact wire_cut one (fun answer hmem => conserves answer (List.mem_append_right _ hmem)) failed
      hhead
  have hwhole : ∀ reply ∈ whole.map (fun answer => answer.turn.reply), reply.Sendable := by
    intro reply hmem
    obtain ⟨answer, hanswer, rfl⟩ := List.mem_map.mp hmem
    exact sendable answer (List.mem_append_left _ hanswer)
  have hread := readReplies_cut hwhole _ hcut
  rw [List.map_append, List.append_assoc, hwire, hread, List.map_map]
  rfl

/-- What `serve` answers without failures, from where the writes have come. -/
theorem serveOver_front (pipeline : Pipeline) (sends : Nat → Sending) (conn : Connection)
    (rounds : List Round) : ∃ later, serve pipeline (fun _ => true) 0 conn rounds =
        (serveOver pipeline sends 0 conn rounds).map Answer.turn ++ later ∧
      ((∀ answer ∈ serveOver pipeline sends 0 conn rounds, answer.outcome = some 0) →
        later = []) := by
  let writes : Nat → Bool := fun i =>
    ((serveOver pipeline sends 0 conn rounds)[i]?).all fun answer => answer.outcome = some 0
  have hturns := @serveOver_serve pipeline sends 0 conn rounds writes fun i answer hanswer => by
    simp [writes, hanswer]
  obtain ⟨later, hlater, hall⟩ := serve_front pipeline writes 0 conn rounds
  refine ⟨later, by rw [hlater, hturns], fun hsent => hall fun i hi => ?_⟩
  rw [← hturns, List.length_map] at hi
  simpa [writes, List.getElem?_eq_getElem hi] using hsent _ (List.getElem_mem hi)

theorem serveOver_answers {deadlines : Deadlines} (pipeline : Pipeline) (sends : Nat → Sending)
    (wires : List WireRequest) {last : Round}
    (sent : Sent deadlines (wires.flatMap WireRequest.encode) rounds last)
    (sendable : ∀ wire ∈ wires, ∀ field ∈ (pipeline.respond wire.request).2.headers.fields,
      field.Sendable) :
    ∃ whole cut later, serveOver pipeline sends 0 { deadlines := deadlines } (rounds ++ [last]) =
        whole ++ cut ∧
      cut.length ≤ 1 ∧ (∀ answer ∈ whole, answer.outcome = some 0) ∧
      (∀ answer ∈ cut, answer.outcome ≠ some 0) ∧
      repliesTo pipeline wires = (whole ++ cut).map (fun answer => answer.turn.reply) ++ later ∧
      (cut = [] → later = []) ∧
      readReplies (repliesTo pipeline wires) (wire (whole ++ cut)) =
        (((repliesTo pipeline wires).take whole.length).map Reply.received, wire cut) := by
  obtain ⟨whole, cut, hanswers, hone, hwhole, hfailed⟩ :=
    @serveOver_cut pipeline sends 0 { deadlines := deadlines } (rounds ++ [last])
  obtain ⟨later, hserve, hall⟩ :=
    serveOver_front pipeline sends { deadlines := deadlines } (rounds ++ [last])
  have hreplies := sent.replies pipeline wires
  have hconserves := @serveOver_conserves pipeline sends 0 { deadlines := deadlines }
    (rounds ++ [last])
  rw [hanswers] at hserve hall hconserves
  rw [hserve, List.map_append, List.map_map] at hreplies
  have hlater : cut = [] → later.map Turn.reply = [] := by
    rintro rfl
    rw [hall (by simpa using hwhole)]
    rfl
  have hsendable := repliesTo_sendable sendable
  rw [← hreplies] at hsendable ⊢
  have hread := @readReplies_wire whole cut (later.map Turn.reply) hone
    (fun answer hmem => hconserves hmem) hwhole hfailed hlater
    fun answer hmem => hsendable _ (List.mem_append_left _ (List.mem_map_of_mem hmem))
  refine ⟨whole, cut, later.map Turn.reply, hanswers, hone, hwhole, hfailed, rfl, hlater, ?_⟩
  refine hread.trans ?_
  simp [Function.comp_def]

/-- A client of a connection whose responses can be sent gets them one by one: exactly those
that were written to the end, and of the next one at most a proper part, which it cannot take
for a response. -/
theorem serveOver_read {deadlines : Deadlines} (pipeline : Pipeline) (sends : Nat → Sending)
    (wires : List WireRequest) {last : Round}
    (sent : Sent deadlines (wires.flatMap WireRequest.encode) rounds last)
    (sendable : ∀ wire ∈ wires, ∀ field ∈ (pipeline.respond wire.request).2.headers.fields,
      field.Sendable) :
    ∃ whole cut, serveOver pipeline sends 0 { deadlines := deadlines } (rounds ++ [last]) =
        whole ++ cut ∧
      cut.length ≤ 1 ∧ (∀ answer ∈ whole, answer.outcome = some 0) ∧
      (∀ answer ∈ cut, answer.outcome ≠ some 0) ∧
      whole.length + cut.length ≤ (repliesTo pipeline wires).length ∧
      (cut = [] → whole.length = (repliesTo pipeline wires).length) ∧
      (cut ≠ [] → ∃ next ∈ (repliesTo pipeline wires)[whole.length]?, ∃ left ≠ [],
        wire cut ++ left = next.bytes) ∧
      readReplies (repliesTo pipeline wires) (wire (whole ++ cut)) =
        (((repliesTo pipeline wires).take whole.length).map Reply.received, wire cut) := by
  obtain ⟨whole, cut, later, hanswers, hone, hwhole, hfailed, hreplies, hlater, hread⟩ :=
    serveOver_answers pipeline sends wires sent sendable
  refine ⟨whole, cut, hanswers, hone, hwhole, hfailed, ?_, fun hcut => ?_, fun hcut => ?_, hread⟩
  · simp only [hreplies, List.length_append, List.length_map]
    omega
  · simp [hreplies, hlater hcut, hcut]
  · obtain ⟨answer, rest, rfl⟩ := List.exists_cons_of_ne_nil hcut
    refine ⟨answer.turn.reply, by simp [hreplies], ?_⟩
    refine wire_cut hone (fun answer hmem => ?_) hfailed rfl
    exact serveOver_conserves (hanswers ▸ List.mem_append_right _ hmem)

/-- All bytes are taken at once. -/
def allBytes : Sending where
  start := 0
  rounds := [⟨0, 0, fun size =>
    if some : 0 < size then .sent size some (Nat.le_refl size) else .failed eintr (by decide)⟩]

/-- Five bytes are taken, and then the peer is gone. -/
def fiveBytes : Sending where
  start := 0
  rounds := [
    ⟨0, 0, fun size =>
      if fits : 5 ≤ size then .sent 5 (by decide) fits else .failed eintr (by decide)⟩,
    ⟨0, 0, fun _ => .failed 32 (by decide)⟩]

/-- The request twice, and the peer is gone within the second response. -/
def pairRounds : List Round := plainRounds ++ plainRounds

def pairSends (written : Nat) : Sending := if written = 0 then allBytes else fiveBytes

theorem pairRounds_sent : Sent {} ([plainGet, plainGet].flatMap WireRequest.encode) pairRounds
    ⟨0, 0, .ended, 0⟩ := by
  have hrounds : ∀ round ∈ pairRounds, round ∈ plainRounds := by
    intro round hmem
    simpa [pairRounds] using hmem
  constructor
  · decide +kernel
  · exact fun round hmem => plainRounds_sent.reads round (hrounds round hmem)
  · rfl
  · refine .of_begun 0 (by decide) fun round hmem => ?_
    simp only [pairRounds, plainRounds, List.cons_append, List.nil_append, List.mem_cons,
      List.not_mem_nil, or_false] at hmem
    rcases hmem with rfl | rfl | rfl | rfl | rfl <;> exact ⟨rfl, by decide, by decide⟩
  · intro front back cut
    exact kept_of_short cut (by decide)

/-- The client reads the first of two responses. -/
theorem serveOver_read_pair : ∃ whole cut,
    serveOver {} pairSends 0 { deadlines := {} } (pairRounds ++ [⟨0, 0, .ended, 0⟩]) =
        whole ++ cut ∧ whole.length = 1 ∧
      (cut ≠ [] → ∃ next ∈ (repliesTo {} [plainGet, plainGet])[whole.length]?, ∃ left ≠ [],
        wire cut ++ left = next.bytes) ∧
      readReplies (repliesTo {} [plainGet, plainGet]) (wire (whole ++ cut)) =
        (((repliesTo {} [plainGet, plainGet]).take whole.length).map Reply.received, wire cut) := by
  obtain ⟨whole, cut, hanswers, -, hwhole, hfailed, -, -, hcut, hread⟩ :=
    serveOver_read {} pairSends [plainGet, plainGet] pairRounds_sent (by decide +kernel)
  have hone : delivered (serveOver {} pairSends 0 { deadlines := {} }
      (pairRounds ++ [⟨0, 0, .ended, 0⟩])) = 1 := by decide +kernel
  rw [hanswers, delivered_cut hwhole hfailed] at hone
  exact ⟨whole, cut, hanswers, hone, hcut, hread⟩

end Sends

/-- A round of `next_request` with what each `recv` answers. -/
structure Recvs where
  before : TimePoint
  timeoutSet : Errno := 0
  answers : List (ReadResult maxBufferLength)
  after : TimePoint

def Recvs.round (recvs : Recvs) : Option Round :=
  (Net.read recvs.answers).map fun result =>
    ⟨recvs.before, recvs.timeoutSet, result, recvs.after⟩

/-- The rounds up to a read that does not return. -/
def roundsOf : List Recvs → List Round
  | [] => []
  | recvs :: rest =>
    match recvs.round with
    | none => []
    | some round => round :: roundsOf rest

/-- The same round with fewer interruptions. -/
structure Recvs.Quieter (recvs other : Recvs) : Prop where
  before : recvs.before = other.before
  timeoutSet : recvs.timeoutSet = other.timeoutSet
  answers : Thinned (fun answer => answer.outcome = false) recvs.answers other.answers
  after : recvs.after = other.after

theorem roundsOf_quieter {recvs others : List Recvs}
    (quieter : List.Forall₂ Recvs.Quieter recvs others) : roundsOf recvs = roundsOf others := by
  induction quieter with
  | nil => rfl
  | @cons first other recvs others same _ ih =>
    have hround : first.round = other.round := by
      rw [Recvs.round, Recvs.round, calls_thinned.1 same.answers, same.before, same.timeoutSet,
        same.after]
    rw [roundsOf, roundsOf, hround, ih]

/-- The same response, written as far and with the same outcome. -/
structure Answer.Same (answer other : Answer) : Prop where
  turn : answer.turn = other.turn
  outcome : answer.outcome = other.outcome
  taken : accepted answer.attempts = accepted other.attempts

/-- The same script of sends with fewer rounds that were interrupted in time. -/
structure Sending.Quieter (limit : Milliseconds) (sending other : Sending) : Prop where
  start : sending.start = other.start
  rounds : Thinned (Interrupted (sending.start + limit.span)) sending.rounds other.rounds

theorem Connection.write_quieter (conn : Connection) (bytes : Bytes) {sending other : Sending}
    (quieter : Sending.Quieter conn.deadlines.request sending other) :
    (conn.write bytes sending).2 = (conn.write bytes other).2 ∧
      accepted (conn.write bytes sending).1 = accepted (conn.write bytes other).1 := by
  have h := writeFrom_thinned quieter.rounds bytes
  unfold Connection.write Net.write
  rw [← quieter.start]
  exact h

theorem Connection.nextRequest_deadlines {conn next : Connection} {rounds rest : List Round}
    {out : Option ConnectionResult} (h : conn.nextRequest rounds = (next, out, rest)) :
    next.deadlines = conn.deadlines := by
  induction rounds generalizing conn with
  | nil =>
    unfold Connection.nextRequest at h
    rcases hparse : conn.parse with ⟨conn', parsed⟩
    rw [hparse] at h
    cases parsed with
    | none =>
      obtain ⟨rfl, -⟩ := Prod.mk.inj h
      rw [(Connection.parse_none hparse).2.2.2]
    | some parsed =>
      obtain ⟨rfl, -⟩ := Prod.mk.inj h
      rw [(Connection.parse_some hparse).2.2]
  | cons round rounds ih =>
    unfold Connection.nextRequest at h
    rcases hparse : conn.parse with ⟨conn', parsed⟩
    rw [hparse] at h
    cases parsed with
    | some parsed =>
      obtain ⟨rfl, -⟩ := Prod.mk.inj h
      rw [(Connection.parse_some hparse).2.2]
    | none =>
      have hwaiting : conn'.deadlines = conn.deadlines := by
        rw [(Connection.parse_none hparse).2.2.2]
      rcases hreceive : conn'.receive round with ⟨conn'', result⟩
      simp only [hreceive] at h
      cases result with
      | some result =>
        obtain ⟨rfl, -⟩ := Prod.mk.inj h
        rw [(Connection.receive_some hreceive).1, hwaiting]
      | none =>
        obtain ⟨chunk, arrived, fits, -, rfl⟩ := Connection.receive_none hreceive
        rw [ih h, Connection.received_deadlines, hwaiting]

theorem serveOver_quieter {pipeline : Pipeline} {sends others : Nat → Sending} {written : Nat}
    {conn : Connection} {rounds : List Round}
    (quieter : ∀ n, Sending.Quieter conn.deadlines.request (sends n) (others n)) :
    List.Forall₂ Answer.Same (serveOver pipeline sends written conn rounds)
      (serveOver pipeline others written conn rounds) := by
  fun_induction serveOver pipeline sends written conn rounds with
  | case1 written conn rounds next rest hnext =>
    rw [serveOver_unanswered hnext (by simp)]
    exact .nil
  | case2 written conn rounds next result rest hnext hreply =>
    rw [serveOver_unanswered hnext (ended_unanswered hreply)]
    exact .nil
  | case3 written conn rounds next result rest hnext reply hreply out hopen _ ih =>
    have hlimits := Connection.nextRequest_deadlines hnext
    obtain ⟨houtcome, htaken⟩ := next.write_quieter reply.bytes (hlimits ▸ quieter written)
    have hopen' := hopen
    rw [houtcome] at hopen'
    rw [serveOver_answered hnext hreply, if_pos hopen']
    exact .cons ⟨rfl, houtcome, htaken⟩ (ih (hlimits ▸ quieter))
  | case4 written conn rounds next result rest hnext reply hreply out hopen =>
    have hlimits := Connection.nextRequest_deadlines hnext
    obtain ⟨houtcome, htaken⟩ := next.write_quieter reply.bytes (hlimits ▸ quieter written)
    have hopen' := hopen
    rw [houtcome] at hopen'
    rw [serveOver_answered hnext hreply, if_neg hopen']
    exact .cons ⟨rfl, houtcome, htaken⟩ .nil

/-- Signals are invisible: with any of the interruptions left out, of the reads and of the
writes, the same responses are sent and as much of them. -/
theorem interruptions_invisible (pipeline : Pipeline) (conn : Connection)
    {recvs recvs' : List Recvs} {sends sends' : Nat → Sending}
    (reads : List.Forall₂ Recvs.Quieter recvs recvs')
    (writes : ∀ n, Sending.Quieter conn.deadlines.request (sends n) (sends' n)) :
    List.Forall₂ Answer.Same (serveOver pipeline sends 0 conn (roundsOf recvs))
      (serveOver pipeline sends' 0 conn (roundsOf recvs')) := by
  rw [roundsOf_quieter reads]
  exact serveOver_quieter writes

/-- A signal ahead of the read and one ahead of the send. -/
theorem interruptions_invisible_once : List.Forall₂ Answer.Same
    (serveOver {} (fun _ => ⟨0, [⟨0, 0, fun _ => .failed eintr (by decide)⟩]⟩) 0 { deadlines := {} }
      (roundsOf [⟨0, 0, [.failed eintr (by decide),
        .bytes (bytes "GET / HTTP/1.1\r\nHost: a\r\n\r\n") (by decide) (by decide)], 0⟩]))
    (serveOver {} (fun _ => ⟨0, []⟩) 0 { deadlines := {} }
      (roundsOf [⟨0, 0,
        [.bytes (bytes "GET / HTTP/1.1\r\nHost: a\r\n\r\n") (by decide) (by decide)], 0⟩])) :=
  interruptions_invisible {} _
    (.cons ⟨rfl, rfl, .leave (by decide) (.keep _ .nil), rfl⟩ .nil)
    fun _ => ⟨rfl, .leave ⟨by decide, rfl, fun _ => ⟨by decide, rfl⟩⟩ .nil⟩

end Carafe.Server
