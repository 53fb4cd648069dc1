import Carafe.Http.Grammar
import Mathlib.Data.List.Forall2

/-!
# Responses that can be read back

Whatever a handler puts into a response, a client can take it off the stream again as
long as the field names are tokens and the values are clean: the bodies may hold blank
lines or whole responses, and a content-length of the handler's own makes no difference.
-/

namespace Carafe.Http

/-- A lowercase token, and a value without control bytes or blanks around it. -/
structure HeaderField.Sendable (field : HeaderField) : Prop where
  nonempty : field.name ≠ []
  token : ∀ ch ∈ field.name, isTchar ch = true
  lowered : field.name.map asciiLower = field.name
  clean : ∀ ch ∈ field.value, ch = '\t'.toUInt8 ∨ Printable ch
  first : ∀ ch ∈ field.value.head?, ¬ Blank ch
  last : ∀ ch ∈ field.value.getLast?, ¬ Blank ch

theorem HeaderField.sendable_iff {field : HeaderField} : field.Sendable ↔
    field.name ≠ [] ∧ field.name.all isTchar = true ∧ field.name.map asciiLower = field.name ∧
      field.value.all (fun ch => ch = '\t'.toUInt8 ∨ Printable ch) = true ∧
      field.value.head?.all (¬ Blank ·) = true ∧ field.value.getLast?.all (¬ Blank ·) = true := by
  simp only [List.all_eq_true, Option.all_eq_true, decide_eq_true_eq]
  constructor
  · rintro ⟨nonempty, token, lowered, clean, first, last⟩
    exact ⟨nonempty, token, lowered, clean, first, last⟩
  · rintro ⟨nonempty, token, lowered, clean, first, last⟩
    exact ⟨nonempty, token, lowered, clean, first, last⟩

instance (field : HeaderField) : Decidable field.Sendable :=
  decidable_of_iff' _ HeaderField.sendable_iff

theorem HeaderField.Sendable.spelled {field : HeaderField} (h : field.Sendable) :
    field.Spelled := by
  refine parseHeaderField_spelling.mpr ⟨field.name, [sp], [], ⟨by simp [bytes, colon, sp],
    h.nonempty, h.token, ?_, h.first, h.last, ?_⟩, h.lowered.symm⟩
  · intro ch hch
    exact Or.inl (List.mem_singleton.mp hch)
  · intro ch hch
    rw [← legal_iff]
    simp only [List.append_nil, List.mem_append, List.mem_singleton] at hch
    rcases hch with rfl | hvalue
    · decide
    · simpa [isValidValueChar, Printable] using h.clean ch hvalue

/-- Every field of every response can be sent. -/
def AllSendable (sent : List (Response × Bool)) : Prop :=
  ∀ one ∈ sent, ∀ field ∈ one.1.headers.fields, field.Sendable

/-- The bytes on the connection, each response with its body or without. -/
def serializeAll (sent : List (Response × Bool)) : Bytes :=
  sent.flatMap fun one => one.1.serialize one.2

/-- What is left of a response at the client. -/
structure ReadBack (response : Response) (withBody : Bool) (received : Received) : Prop where
  status : received.status = response.status
  fields : received.fields.filter (fun field => field.name ≠ contentLength) =
    response.headers.fields.filter (fun field => field.name ≠ contentLength)
  oneLength : ∃ field, received.fields.filter (fun field => field.name = contentLength) = [field] ∧
    decimalNumber field.value = some response.body.length
  body : received.body = if withBody then response.body else []

theorem Response.received_readBack (response : Response) (withBody : Bool) :
    ReadBack response withBody (response.received withBody) where
  status := rfl
  fields := by
    simp [Response.received, Response.sentFields, Response.callerFields, List.filter_append]
  oneLength := by
    refine ⟨⟨contentLength, decimal response.body.length⟩, ?_, decimalNumber_decimal _⟩
    simp [Response.received, Response.sentFields, Response.callerFields, List.filter_append]
  body := rfl

theorem AllSendable.read {sent : List (Response × Bool)} (sendable : AllSendable sent) :
    readResponses (sent.map Prod.snd) (serializeAll sent) =
      some (sent.map fun one => one.1.received one.2) :=
  readResponses_serialize.mpr fun one hone _ hfield =>
    (sendable one hone _ (List.mem_of_mem_filter hfield)).spelled

/-- A client that knows which responses have a body gets all of them back, and no other
responses look the same on the connection. -/
theorem serializeAll_reads_back {sent : List (Response × Bool)} (sendable : AllSendable sent) :
    (∃ all, readResponses (sent.map Prod.snd) (serializeAll sent) = some all ∧
      List.Forall₂ (fun one received => ReadBack one.1 one.2 received) sent all) ∧
    (∀ other, AllSendable other → other.map Prod.snd = sent.map Prod.snd →
      serializeAll other = serializeAll sent →
        (other.map fun one => one.1.received one.2) = sent.map fun one => one.1.received one.2) ∧
    ∀ one ∈ sent, one.1.serialize true = one.1.serialize false ++ one.1.body ∧
      readResponse false (one.1.serialize true) = some (one.1.received false, one.1.body) := by
  refine ⟨⟨_, sendable.read, ?_⟩, ?_, ?_⟩
  · rw [List.forall₂_map_right_iff, List.forall₂_same]
    exact fun one _ => one.1.received_readBack one.2
  · intro other hother hflags hbytes
    have h := hother.read
    rw [hflags, hbytes, sendable.read] at h
    exact (Option.some.inj h).symm
  · intro one hone
    have hhead : one.1.serialize true = one.1.serialize false ++ one.1.body := by
      simp [Response.serialize]
    refine ⟨hhead, ?_⟩
    rw [hhead]
    refine Response.readResponse_serialize ?_ false one.1.body
    exact fun field hfield => (sendable one hone field (List.mem_of_mem_filter hfield)).spelled

/-- A repeated field, a content-length that is wrong, and a body that looks like a response. -/
def misleading : Response where
  headers := Headers.ofFields [⟨bytes "Set-Cookie", bytes "a=1"⟩, ⟨bytes "set-cookie", bytes "b=2"⟩,
    ⟨bytes "content-length", bytes "999"⟩]
  body := bytes "HTTP/1.1 200 OK\r\n\r\n"

theorem serializeAll_reads_back_misleading : ∃ all,
    readResponses [true, false] (serializeAll [(misleading, true), (statusResponse 404, false)]) =
      some all ∧ List.Forall₂ (fun one received => ReadBack one.1 one.2 received)
        [(misleading, true), (statusResponse 404, false)] all := by
  have sendable : AllSendable [(misleading, true), (statusResponse 404, false)] := by
    have hall : ∀ response ∈ [misleading, statusResponse 404],
        ∀ field ∈ response.headers.fields, field.Sendable := by
      decide +kernel
    simpa [AllSendable] using hall
  exact (serializeAll_reads_back sendable).1

end Carafe.Http
