import Carafe.Http.Isolation

/-!
# The method of the request at hand

The reader keeps the method of a request line once the line has parsed, through
every refusal and failure of that request. So what it keeps is the method that
stands on the wire at the front of the request being read, or of the refused one.
-/

namespace Carafe.Http
open TokenStream

/-- The method of the request at hand, once its request line has parsed. -/
def Assembly.asked (a : Assembly) : Option Method :=
  if a.request.target = [] then none else some a.request.method

/-- A request line with this method stands at the front. -/
def Asks (rest : Bytes) (method : Method) : Prop :=
  ∃ line tail value, rest = line ++ crlf ++ tail ∧ ¬ crlf <:+: line ∧
    parseRequestLine line = .ok value ∧ value.method = method

theorem Asks.append {rest : Bytes} {method : Method} (h : Asks rest method) (more : Bytes) :
    Asks (rest ++ more) method := by
  obtain ⟨line, tail, value, rfl, clear, parse, hmethod⟩ := h
  exact ⟨line, tail ++ more, value, by simp, clear, parse, hmethod⟩

theorem Head.asks (head : Head) : Asks head.text head.line.method :=
  ⟨head.line.text, fieldLines head.fields, head.line, rfl, RequestLine.text_plain head.target,
    parseRequestLine_text head.target, rfl⟩

theorem WireRequest.asks (wire : WireRequest) : Asks wire.encode wire.request.method :=
  ⟨wire.line.text, fieldLines wire.fields ++ crlf ++ wire.body.text, wire.line,
    by simp [WireRequest.encode], RequestLine.text_plain wire.target,
    parseRequestLine_text wire.target, rfl⟩

namespace Assembly

/-- The request line stays as it is, or there is none any more. -/
def Keeps (a b : Assembly) : Prop :=
  (b.request.method = a.request.method ∧ b.request.target = a.request.target) ∨ b.request = {}

theorem Keeps.asked {a b : Assembly} (h : a.Keeps b) {method : Method}
    (asked : b.asked = some method) : a.asked = some method := by
  rcases h with ⟨hmethod, htarget⟩ | hfresh
  · rwa [Assembly.asked, hmethod, htarget] at asked
  · simp [Assembly.asked, hfresh] at asked

/-- Only a request line that parses sets another one. -/
theorem Lined.keeps_cases {a : Assembly} {answer : Assembly × Option RequestResult}
    (h : a.Lined answer) :
    a.Keeps answer.1 ∨ (a.phase = .requestLine ∧ answer.1.failure = a.failure) := by
  cases h with
  | started _ _ phase => exact Or.inr ⟨phase, rfl⟩
  | finished => exact Or.inl (Or.inr rfl)
  | failed | field | chunked | refused | body | lastChunk | chunk | trailer =>
    exact Or.inl (Or.inl ⟨rfl, rfl⟩)

theorem consume_keeps {a : Assembly} (h : a.phase ≠ .requestLine) (c : Bytes) :
    a.Keeps (a.consume c).1 := by
  unfold consume
  cases hphase : a.phase with
  | requestLine => exact False.elim (h hphase)
  | headers | chunkSize | trailers =>
    have hline : a.phase.isLine = true := by rw [hphase]; rfl
    exact (acceptLine_lined hline _).keeps_cases.resolve_right fun started => h started.1
  | body => simp [onBody, handOver, Keeps, finishRequest, armNextRequest]
  | chunkData =>
    simp only [onChunk, acceptChunk]
    split <;> simp [Keeps, handOver, fail]
  | discard =>
    simp only [onDiscard]
    split <;> simp [Keeps, armNextRequest]

theorem refuseLine_keeps (a : Assembly) : a.Keeps a.refuseLine.1 := by
  obtain ⟨error, -, heq⟩ := a.refuseLine_fails
  rw [heq]
  exact Or.inl ⟨rfl, rfl⟩

/-- No token that loses the stream changes the request line. -/
theorem consume_lost {a : Assembly} {c : Bytes} (token : a.Token c)
    (lost : (a.consume c).1.failure ≠ .none) : a.Keeps (a.consume c).1 := by
  by_cases hphase : a.phase = .requestLine
  · have hline : a.phase.isLine = true := by rw [hphase]; rfl
    obtain ⟨line, rfl, -, -, heq⟩ := token.line hline
    rw [heq] at lost ⊢
    refine (acceptLine_lined hline line).keeps_cases.resolve_right ?_
    rintro ⟨-, same⟩
    exact lost (same.trans token.1)
  · exact consume_keeps hphase c

end Assembly

/-- Any reader that has the request line of the head at hand. -/
theorem Head.asks_of {head : Head} {a : Assembly} {method : Method}
    (same : a.request.method = head.line.method) (asked : a.asked = some method) :
    Asks head.text method := by
  unfold Assembly.asked at asked
  split at asked
  · cases asked
  · rw [← Option.some.inj asked, same]
    exact head.asks

theorem Partly.asks {p : Bytes} {a : Assembly} (h : Partly p a) {method : Method}
    (asked : a.asked = some method) : Asks p method := by
  cases h with
  | start => cases asked
  | head => exact Head.asks_of rfl asked
  | body => exact (Head.asks_of rfl asked).append _
  | between => exact ((Head.asks_of rfl asked).append _).append _
  | inChunk => exact (((Head.asks_of rfl asked).append _).append _).append _
  | trailing => exact ((((Head.asks_of rfl asked).append _).append _).append _).append _

end Carafe.Http
