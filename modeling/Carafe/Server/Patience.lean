import Carafe.Server.Serving
import Carafe.Server.Timeouts

/-!
# How long a client is waited for

The reads of a connection with the receive timeouts they run under. One that keeps its
timeout takes from a budget: the idle limit and the limit for a request. A request that
is handed over fills it up again, and nothing else does, whatever the bytes of a request
dribble in as.
-/

namespace Carafe.Server
open Http Net

/-- A read that is made, and the receive timeout it runs under. -/
structure TimedRead where
  limit : Milliseconds
  round : Round

namespace Connection

/-- The reads of one call of `next_request`. -/
def reads (conn : Connection) : List Round → List TimedRead
  | [] => []
  | round :: rounds => match conn.parse with
    | (_, some _) => []
    | (conn, none) => match conn.readLimit round.before with
      | none => []
      | some limit =>
        if round.timeoutSet ≠ 0 then []
        else ⟨limit, round⟩ :: match conn.receive round with
          | (_, some _) => []
          | (conn, none) => reads conn rounds

end Connection

/-- The reads of `serve`. -/
def serveReads (pipeline : Pipeline) (writes : Nat → Bool) (written : Nat) (conn : Connection)
    (rounds : List Round) : List TimedRead :=
  serveLog Connection.reads pipeline writes written conn rounds

/-- No read outlasts its timeout, on a clock that does not go back. -/
def OnTime : TimePoint → List TimedRead → Prop
  | _, [] => True
  | now, call :: reads =>
    now ≤ call.round.before ∧ call.round.before ≤ call.round.after ∧
      call.round.after ≤ call.round.before + call.limit.span ∧ OnTime call.round.after reads

instance OnTime.decidable : (now : TimePoint) → (reads : List TimedRead) → Decidable (OnTime now reads)
  | _, [] => isTrue trivial
  | _, call :: reads =>
    have := OnTime.decidable call.round.after reads
    inferInstanceAs (Decidable (_ ∧ _ ∧ _ ∧ _))

def TimedRead.span (call : TimedRead) : Int := call.round.after - call.round.before

/-- How long the worker was blocked in them. -/
def blocked (reads : List TimedRead) : Int := (reads.map TimedRead.span).sum

/-- What a client may take for each request. -/
def Deadlines.patience (deadlines : Deadlines) : Int := deadlines.idle.span + deadlines.request.span

/-- What it has left of that. -/
def Connection.patience (conn : Connection) (now : TimePoint) : Int :=
  if conn.requestInProgress then max 0 (conn.requestDeadline - now) else conn.deadlines.patience

theorem blocked_cons (call : TimedRead) (reads : List TimedRead) :
    blocked (call :: reads) = call.span + blocked reads := by
  simp [blocked]

theorem blocked_append (first second : List TimedRead) :
    blocked (first ++ second) = blocked first + blocked second := by
  simp [blocked]

section Budget
variable {conn : Connection}

/-- Both limits are positive. -/
theorem spans_pos {deadlines : Deadlines} (valid : validDeadlines deadlines = true) :
    0 < deadlines.idle.span ∧ 0 < deadlines.request.span := by
  simp only [validDeadlines, decide_eq_true_eq] at valid
  exact ⟨span_pos valid.1, span_pos valid.2⟩

theorem patience_pos {deadlines : Deadlines} (valid : validDeadlines deadlines = true) :
    0 ≤ deadlines.patience := by
  obtain ⟨hidle, hrequest⟩ := spans_pos valid
  unfold Deadlines.patience
  omega

theorem patience_nonneg (valid : validDeadlines conn.deadlines = true) (now : TimePoint) :
    0 ≤ conn.patience now := by
  obtain ⟨hidle, hrequest⟩ := spans_pos valid
  unfold Connection.patience Deadlines.patience
  split
  · exact Int.le_max_left _ _
  · omega

/-- A read takes no longer than the client has left. -/
theorem span_le_patience (valid : validDeadlines conn.deadlines = true) {now : TimePoint}
    {call : TimedRead} (limit : conn.readLimit call.round.before = some call.limit)
    (begun : now ≤ call.round.before)
    (kept : call.round.after ≤ call.round.before + call.limit.span) :
    call.span ≤ conn.patience now := by
  obtain ⟨-, hrequest⟩ := spans_pos valid
  have hplain : ∀ now before after limit deadline : Int, now ≤ before → after ≤ before + limit →
      limit ≤ deadline - before → after - before ≤ max 0 (deadline - now) := by
    omega
  unfold Connection.readLimit at limit
  unfold Connection.patience TimedRead.span
  split at limit
  · rename_i running
    rw [if_pos running]
    have hleft := (millisecondsUntil_left limit).2
    rw [timeval_span] at hleft
    exact hplain _ _ _ _ _ begun kept hleft
  · rename_i idle
    rw [if_neg idle, Deadlines.patience, Option.some.inj limit]
    have hshort : ∀ before after limit more : Int, after ≤ before + limit → 0 < more →
        after - before ≤ limit + more := by
      omega
    exact hshort _ _ _ _ kept hrequest

/-- Bytes that arrive are paid for by the time they took. -/
theorem received_patience (valid : validDeadlines conn.deadlines = true) {now : TimePoint}
    {call : TimedRead} (limit : conn.readLimit call.round.before = some call.limit)
    (begun : now ≤ call.round.before)
    (kept : call.round.after ≤ call.round.before + call.limit.span) (chunk : Bytes) :
    (conn.received chunk call.round.after).patience call.round.after + call.span ≤
      conn.patience now := by
  obtain ⟨-, hrequest⟩ := spans_pos valid
  unfold Connection.readLimit at limit
  unfold TimedRead.span
  by_cases running : conn.requestInProgress = true
  · rw [if_pos running] at limit
    have hleft := (millisecondsUntil_left limit).2
    rw [timeval_span] at hleft
    have hplain : ∀ now before after limit deadline : Int, now ≤ before →
        after ≤ before + limit → limit ≤ deadline - before →
          max 0 (deadline - after) + (after - before) ≤ max 0 (deadline - now) := by
      omega
    simp only [Connection.patience, Connection.received, running, if_true]
    exact hplain _ _ _ _ _ begun kept hleft
  · rw [if_neg running] at limit
    rw [← Option.some.inj limit] at kept
    have hplain : ∀ before after idle request : Int, after ≤ before + idle → 0 < request →
        max 0 (after + request - after) + (after - before) ≤ idle + request := by
      omega
    simp only [Connection.patience, Connection.received, running, if_true, if_false,
      Deadlines.patience, Bool.false_eq_true]
    exact hplain _ _ _ _ kept hrequest

/-- A request that is handed over is a fresh start, and no other answer is. -/
theorem parse_patience (valid : validDeadlines conn.deadlines = true) {next : Connection}
    {parsed : RequestResult} (parse : conn.parse = (next, some parsed)) (now : TimePoint) :
    next.patience now ≤ conn.patience now +
      if parsed.request.isSome then conn.deadlines.patience else 0 := by
  obtain ⟨-, -, heq⟩ := Connection.parse_some parse
  have hnonneg := patience_nonneg valid now
  rw [heq]
  by_cases handed : parsed.request.isSome = true
  · simp only [Connection.patience, handed, if_true, Bool.false_eq_true, if_false] at hnonneg ⊢
    omega
  · simp only [Connection.patience, handed, if_false, Bool.false_eq_true]
    omega

end Budget

namespace Connection
variable {conn waiting next : Connection} {round : Round} {rounds rest : List Round}

theorem reads_parsed {parsed : RequestResult} (parse : conn.parse = (next, some parsed)) :
    conn.reads rounds = [] := by
  cases rounds with
  | nil => rfl
  | cons round rounds => simp [reads, parse]

theorem reads_received (parse : conn.parse = (waiting, none))
    (receive : waiting.receive round = (next, none)) : ∃ limit,
      waiting.readLimit round.before = some limit ∧
        conn.reads (round :: rounds) = ⟨limit, round⟩ :: next.reads rounds := by
  have happly : waiting.applyReadDeadline round = 0 := by
    by_contra hset
    rw [Connection.receive, if_pos hset] at receive
    cases receive
  unfold applyReadDeadline at happly
  cases hlimit : waiting.readLimit round.before with
  | none =>
    rw [hlimit] at happly
    cases happly
  | some limit =>
    rw [hlimit] at happly
    refine ⟨limit, rfl, ?_⟩
    simp [reads, parse, hlimit, happly, receive]

/-- A read that ends the call is the last one, if it was made at all. -/
theorem reads_stopped {result : ConnectionResult} (parse : conn.parse = (waiting, none))
    (receive : waiting.receive round = (next, some result)) :
    conn.reads (round :: rounds) = [] ∨ ∃ limit,
      waiting.readLimit round.before = some limit ∧
        conn.reads (round :: rounds) = [⟨limit, round⟩] := by
  cases hlimit : waiting.readLimit round.before with
  | none => exact .inl (by simp [reads, parse, hlimit])
  | some limit =>
    by_cases hset : round.timeoutSet = 0
    · exact .inr ⟨limit, rfl, by simp [reads, parse, hlimit, hset, receive]⟩
    · exact .inl (by simp [reads, parse, hlimit, hset])

/-- The reads of a call are within the budget; where it ends with an answer of the reader,
what is left of it goes on. -/
structure Paid (conn next : Connection) (out : Option ConnectionResult)
    (reads more : List TimedRead) (now : TimePoint) : Prop where
  within : blocked reads ≤ conn.patience now
  same : next.deadlines = conn.deadlines
  goesOn : (∃ parsed later, out = some (resultOf parsed) ∧ OnTime later more ∧
      blocked reads + next.patience later ≤ conn.patience now +
        if parsed.request.isSome then conn.deadlines.patience else 0) ∨
    ∀ result ∈ out, result.error = .none ∧ result.request = none

/-- A call that is answered at once has made no read. -/
theorem parsed_paid {parsed : RequestResult} (valid : validDeadlines conn.deadlines = true)
    (parse : conn.parse = (next, some parsed)) {more : List TimedRead} {now : TimePoint}
    (onTime : OnTime now (conn.reads rounds ++ more)) :
    Paid conn next (some (resultOf parsed)) (conn.reads rounds) more now := by
  have hreads : conn.reads rounds = [] := reads_parsed parse
  have hnil : blocked [] = 0 := rfl
  rw [hreads, List.nil_append] at onTime
  rw [hreads]
  refine ⟨patience_nonneg valid now, ?_, .inl ⟨parsed, now, rfl, onTime, ?_⟩⟩
  · rw [(parse_some parse).2.2]
  · rw [hnil, Int.zero_add]
    exact parse_patience valid parse now

theorem parse_waits (parse : conn.parse = (waiting, none)) :
    waiting.deadlines = conn.deadlines ∧ ∀ now, waiting.patience now = conn.patience now := by
  rw [(parse_none parse).2.2.2]
  exact ⟨rfl, fun _ => rfl⟩

/-- The last read of a call that the socket ends. -/
theorem stopped_paid {result : ConnectionResult} (valid : validDeadlines conn.deadlines = true)
    (parse : conn.parse = (waiting, none)) (receive : waiting.receive round = (next, some result))
    {more : List TimedRead} {now : TimePoint}
    (onTime : OnTime now (conn.reads (round :: rounds) ++ more)) :
    Paid conn next (some result) (conn.reads (round :: rounds)) more now := by
  obtain ⟨hdeadlines, hpatience⟩ := parse_waits parse
  obtain ⟨rfl, noError, noRequest⟩ := receive_some receive
  refine ⟨?_, hdeadlines, .inr ?_⟩
  · rcases @reads_stopped _ _ _ _ rounds _ parse receive with hnone | ⟨limit, hlimit, hone⟩
    · rw [hnone]
      exact patience_nonneg valid now
    · rw [hone] at onTime ⊢
      obtain ⟨begun, -, kept, -⟩ := onTime
      have hspan := span_le_patience (by rwa [hdeadlines]) hlimit begun kept
      rw [hpatience] at hspan
      simpa [blocked] using hspan
  · intro result' hresult
    obtain rfl := Option.some.inj hresult
    exact ⟨noError, noRequest⟩

/-- A read ahead of them, paid for by the bytes it brought. -/
theorem Paid.read {out : Option ConnectionResult} {reads more : List TimedRead} {now : TimePoint}
    {call : TimedRead} (h : Paid waiting next out reads more call.round.after)
    (limits : waiting.deadlines = conn.deadlines)
    (paid : waiting.patience call.round.after + call.span ≤ conn.patience now) :
    Paid conn next out (call :: reads) more now := by
  obtain ⟨within, same, goesOn⟩ := h
  rw [limits] at goesOn
  refine ⟨?_, same.trans limits, ?_⟩
  · rw [blocked_cons]
    omega
  · rcases goesOn with ⟨parsed, later, hresult, hmore, hleft⟩ | hstopped
    · refine .inl ⟨parsed, later, hresult, hmore, ?_⟩
      rw [blocked_cons]
      omega
    · exact .inr hstopped

theorem reads_paid {out : Option ConnectionResult} (valid : validDeadlines conn.deadlines = true)
    (hnext : conn.nextRequest rounds = (next, out, rest)) {more : List TimedRead}
    {now : TimePoint} (onTime : OnTime now (conn.reads rounds ++ more)) :
    Paid conn next out (conn.reads rounds) more now := by
  induction rounds generalizing conn now with
  | nil =>
    unfold nextRequest at hnext
    rcases hparse : conn.parse with ⟨conn', parsed⟩
    rw [hparse] at hnext
    cases parsed with
    | none =>
      simp only [Prod.mk.injEq] at hnext
      obtain ⟨rfl, rfl, rfl⟩ := hnext
      exact ⟨patience_nonneg valid now, (parse_waits hparse).1, .inr (by simp)⟩
    | some parsed =>
      simp only [Prod.mk.injEq] at hnext
      obtain ⟨rfl, rfl, rfl⟩ := hnext
      exact parsed_paid valid hparse onTime
  | cons round rounds ih =>
    unfold nextRequest at hnext
    rcases hparse : conn.parse with ⟨waiting, parsed⟩
    rw [hparse] at hnext
    cases parsed with
    | some parsed =>
      simp only [Prod.mk.injEq] at hnext
      obtain ⟨rfl, rfl, rfl⟩ := hnext
      exact parsed_paid valid hparse onTime
    | none =>
      obtain ⟨hdeadlines, hpatience⟩ := parse_waits hparse
      rcases hreceive : waiting.receive round with ⟨conn'', result⟩
      simp only [hreceive] at hnext
      cases result with
      | some result =>
        simp only [Prod.mk.injEq] at hnext
        obtain ⟨rfl, rfl, rfl⟩ := hnext
        exact stopped_paid valid hparse hreceive onTime
      | none =>
        obtain ⟨limit, hlimit, hreads⟩ := @reads_received _ _ _ _ rounds hparse hreceive
        obtain ⟨chunk, -, -, -, hreceived⟩ := receive_none hreceive
        rw [hreads] at onTime ⊢
        obtain ⟨begun, -, kept, onTime⟩ := onTime
        have hpaid := @received_patience _ (by rwa [hdeadlines]) _ ⟨limit, round⟩ hlimit begun kept
          chunk
        rw [← hreceived, hpatience] at hpaid
        have hlimits : conn''.deadlines = conn.deadlines := by
          rw [hreceived, received_deadlines, hdeadlines]
        exact (ih (by rwa [hlimits]) hnext onTime).read hlimits hpaid

end Connection

section Serve
variable {pipeline : Pipeline} {writes : Nat → Bool} {written : Nat} {conn next : Connection}
  {rounds rest : List Round}

/-- The requests that were handed over, among the turns. -/
def handovers (turns : List Turn) : Nat := turns.countP fun turn => turn.result.request.isSome

theorem handovers_cons (turn : Turn) (turns : List Turn) :
    handovers (turn :: turns) =
      handovers turns + if turn.result.request.isSome = true then 1 else 0 :=
  List.countP_cons

theorem serve_paid (valid : validDeadlines conn.deadlines = true) {now : TimePoint}
    (onTime : OnTime now (serveReads pipeline writes written conn rounds)) :
    blocked (serveReads pipeline writes written conn rounds) ≤ conn.patience now +
      handovers (serve pipeline writes written conn rounds) * conn.deadlines.patience := by
  unfold serveReads at onTime ⊢
  fun_induction serve pipeline writes written conn rounds generalizing now with
  | case1 written conn rounds next rest hnext =>
    rw [serveLog_over hnext (by simp)] at onTime ⊢
    have hpaid := (@Connection.reads_paid _ _ _ _ _ valid hnext [] _ (by simpa using onTime)).within
    simpa [handovers] using hpaid
  | case2 written conn rounds next result rest hnext hreply =>
    rw [serveLog_over hnext (by simp [hreply])] at onTime ⊢
    have hpaid := (@Connection.reads_paid _ _ _ _ _ valid hnext [] _ (by simpa using onTime)).within
    simpa [handovers] using hpaid
  | case3 written conn rounds next result rest hnext reply hreply hopen _ ih =>
    rw [serveLog_on hnext hreply hopen] at onTime ⊢
    obtain ⟨-, hsame, ⟨parsed, later, hout, hmore, hleft⟩ | hstopped⟩ :=
      Connection.reads_paid valid hnext onTime
    · cases hout
      have hrest := ih (by rwa [hsame]) hmore
      rw [hsame] at hrest
      rw [blocked_append, handovers_cons]
      change _ + blocked (serveLog Connection.reads pipeline writes (written + 1) next rest) ≤ _
      by_cases handed : parsed.request.isSome = true
      · simp only [Connection.resultOf, handed, if_true] at hleft ⊢
        rw [Int.natCast_add, Int.add_mul, Int.natCast_one, Int.one_mul]
        omega
      · simp only [Connection.resultOf, handed, if_false, Bool.false_eq_true, Nat.add_zero] at hleft ⊢
        omega
    · obtain ⟨noError, noRequest⟩ := hstopped result rfl
      obtain ⟨-, -, -, rfl⟩ := replyTo_stopped noError noRequest hreply
      cases hopen.1
  | case4 written conn rounds next result rest hnext reply hreply hopen =>
    rw [serveLog_last hnext hreply hopen] at onTime ⊢
    have hpaid := (@Connection.reads_paid _ _ _ _ _ valid hnext [] _ (by simpa using onTime)).within
    have hmore : 0 ≤ (handovers [(⟨next, result, reply⟩ : Turn)] : Int) * conn.deadlines.patience :=
      Int.mul_nonneg (Int.natCast_nonneg _) (patience_pos valid)
    omega

/-- However a client spreads its bytes, reading from it blocks the worker no longer than the
idle limit and the limit for a request together for each request that was handed over, and
once more: where every read keeps the timeout it was given. -/
theorem serve_patient (pipeline : Pipeline) (writes : Nat → Bool) {deadlines : Deadlines}
    (valid : validDeadlines deadlines = true) (rounds : List Round) {now : TimePoint}
    (onTime : OnTime now (serveReads pipeline writes 0 { deadlines := deadlines } rounds)) :
    blocked (serveReads pipeline writes 0 { deadlines := deadlines } rounds) ≤
      (handovers (serve pipeline writes 0 { deadlines := deadlines } rounds) + 1) *
        (deadlines.idle.span + deadlines.request.span) := by
  have hpaid := serve_paid valid onTime
  have hfull : ({ deadlines := deadlines } : Connection).patience now = deadlines.patience := rfl
  rw [hfull, Int.add_comm] at hpaid
  rw [Int.add_mul, Int.one_mul]
  exact hpaid

/-- Two requests, each of them in two reads with pauses. -/
theorem serve_patient_slow : ∃ rounds, rounds.length = 4 ∧
    blocked (serveReads {} (fun _ => true) 0 { deadlines := {} } rounds) ≤
      (handovers (serve {} (fun _ => true) 0 { deadlines := {} } rounds) + 1) *
        (Milliseconds.span 30000 + Milliseconds.span 30000) :=
  ⟨[⟨5, 0, .bytes (bytes "GET / HT") (by decide) (by decide), 29000000005⟩,
    ⟨29000000005, 0, .bytes (bytes "TP/1.1\r\nHost: a\r\n\r\n") (by decide) (by decide),
      58000000005⟩,
    ⟨58000000005, 0, .bytes (bytes "GET / HT") (by decide) (by decide), 59000000005⟩,
    ⟨59000000005, 0, .failed eagain (by decide), 88000000005⟩], rfl,
    @serve_patient {} (fun _ => true) {} (by decide) _ 5 (by decide +kernel)⟩

end Serve

end Carafe.Server
