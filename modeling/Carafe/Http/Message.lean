import Carafe.Http.Ascii

/-!
# Requests, responses and their header fields

A header list carries the invariant `Headers::add` enforces: every name in it is
already lowercase, so that a lookup has only one side left to fold.
-/

namespace Carafe.Http

/-- What ends a line on the wire. A bare LF ends nothing. -/
def crlf : Bytes := [13, 10]

inductive Method where
  | get
  | head
  | post
  | put
  | delete
  | connect
  | options
  | trace
  | patch
  deriving DecidableEq, Repr

inductive Version where
  | http10
  | http11
  deriving DecidableEq, Repr

def methodName : Method → Bytes
  | .get => bytes "GET"
  | .head => bytes "HEAD"
  | .post => bytes "POST"
  | .put => bytes "PUT"
  | .delete => bytes "DELETE"
  | .connect => bytes "CONNECT"
  | .options => bytes "OPTIONS"
  | .trace => bytes "TRACE"
  | .patch => bytes "PATCH"

structure HeaderField where
  name : Bytes
  value : Bytes
  deriving DecidableEq, Repr

/-- Fields in the order they arrived, every name lowercase. -/
@[ext] structure Headers where
  fields : List HeaderField
  lowered : ∀ field ∈ fields, field.name.map asciiLower = field.name
  deriving DecidableEq

namespace Headers

def empty : Headers := ⟨[], by simp⟩

instance : Inhabited Headers := ⟨empty⟩

def add (headers : Headers) (field : HeaderField) : Headers where
  fields := headers.fields ++ [{ field with name := field.name.map asciiLower }]
  lowered := by
    intro entry hentry
    rcases List.mem_append.mp hentry with old | new
    · exact headers.lowered entry old
    · rw [List.mem_singleton.mp new]
      exact map_asciiLower_idem field.name

def count (headers : Headers) (name : Bytes) : Nat :=
  headers.fields.countP (fun field => asciiEqualsLowered field.name name)

def get (headers : Headers) (name : Bytes) : Option Bytes :=
  (headers.fields.find? (fun field => asciiEqualsLowered field.name name)).map HeaderField.value

def contains (headers : Headers) (name : Bytes) : Bool :=
  (headers.get name).isSome

/-- The list that results from adding the fields one after another. -/
def ofFields (fields : List HeaderField) : Headers := fields.foldl add empty

@[simp] theorem empty_fields : empty.fields = [] := rfl

@[simp] theorem add_fields (headers : Headers) (field : HeaderField) :
    (headers.add field).fields =
      headers.fields ++ [{ field with name := field.name.map asciiLower }] := rfl

theorem foldl_add_fields (fields : List HeaderField) (headers : Headers) :
    (fields.foldl add headers).fields = headers.fields ++
      fields.map (fun field => { field with name := field.name.map asciiLower }) := by
  induction fields generalizing headers with
  | nil => simp
  | cons field fields ih => simp [ih]

@[simp] theorem ofFields_fields (fields : List HeaderField) :
    (ofFields fields).fields =
      fields.map (fun field => { field with name := field.name.map asciiLower }) := by
  simp [ofFields, foldl_add_fields]

theorem ofFields_concat (fields : List HeaderField) (field : HeaderField) :
    ofFields (fields ++ [field]) = (ofFields fields).add field := by
  simp [ofFields]

/-- Asking for a lowercase name compares names as they are stored. -/
theorem equalsLowered_iff {name : Bytes} (h : name.map asciiLower = name) (field : HeaderField) :
    asciiEqualsLowered field.name name = true ↔ field.name = name := by
  rw [asciiEqualsLowered_iff, h, eq_comm]

theorem count_eq {name : Bytes} (h : name.map asciiLower = name) (headers : Headers) :
    headers.count name = headers.fields.countP (fun field => field.name = name) := by
  unfold count
  apply List.countP_congr
  intro field _
  simp [equalsLowered_iff h field]

theorem get_eq {name : Bytes} (h : name.map asciiLower = name) (headers : Headers) :
    headers.get name =
      (headers.fields.find? (fun field => field.name = name)).map HeaderField.value := by
  unfold get
  congr 2
  funext field
  rw [Bool.eq_iff_iff, equalsLowered_iff h field, decide_eq_true_iff]

theorem contains_iff {name : Bytes} (h : name.map asciiLower = name) (headers : Headers) :
    headers.contains name = true ↔ ∃ field ∈ headers.fields, field.name = name := by
  simp [contains, get_eq h]

theorem contains_iff_count {name : Bytes} (h : name.map asciiLower = name) (headers : Headers) :
    headers.contains name = true ↔ 0 < headers.count name := by
  simp [contains_iff h, count_eq h, List.countP_pos_iff]

end Headers

structure PathParam where
  name : Bytes
  value : Bytes
  deriving DecidableEq, Repr

/-- Captures of a route, in pattern order. -/
structure Params where
  entries : List PathParam := []
  deriving DecidableEq, Repr

/-- The first entry with this name: a pattern may bind one name twice. -/
def Params.get (params : Params) (name : Bytes) : Option Bytes :=
  (params.entries.find? fun entry => entry.name = name).map PathParam.value

structure Request where
  method : Method := .get
  target : Bytes := []
  version : Version := .http10
  headers : Headers := .empty
  body : Bytes := []
  params : Params := {}
  deriving DecidableEq

structure RequestLine where
  method : Method := .get
  target : Bytes := []
  version : Version := .http10
  deriving DecidableEq

def decimal (n : Nat) : Bytes := (Nat.toDigits 10 n).map Char.toUInt8

/-- `std::to_string` of an `int`. -/
def decimalInt (n : Int) : Bytes :=
  if n < 0 then '-'.toUInt8 :: decimal n.natAbs else decimal n.natAbs

structure Response where
  status : Int := 200
  headers : Headers := .empty
  body : Bytes := []
  deriving DecidableEq

def statusMessage (status : Int) : Bytes :=
  if status = 200 then bytes "OK"
  else if status = 400 then bytes "Bad Request"
  else if status = 401 then bytes "Unauthorized"
  else if status = 404 then bytes "Not Found"
  else if status = 405 then bytes "Method Not Allowed"
  else if status = 408 then bytes "Request Timeout"
  else if status = 413 then bytes "Content Too Large"
  else if status = 414 then bytes "URI Too Long"
  else if status = 431 then bytes "Request Header Fields Too Large"
  else if status = 500 then bytes "Internal Server Error"
  else if status = 501 then bytes "Not Implemented"
  else if status = 503 then bytes "Service Unavailable"
  else if status = 505 then bytes "HTTP Version Not Supported"
  else []

def textResponse (status : Int) (body : Bytes) : Response where
  status := status
  headers := Headers.empty.add ⟨bytes "content-type", bytes "text/plain; charset=utf-8"⟩
  body := body

def statusResponse (status : Int) : Response :=
  textResponse status (decimalInt status ++ bytes " " ++ statusMessage status ++ bytes "\n")

/-- One field line of a response, its terminator included. -/
def HeaderField.line (field : HeaderField) : Bytes :=
  field.name ++ bytes ": " ++ field.value ++ crlf

namespace Response

def statusLine (response : Response) : Bytes :=
  bytes "HTTP/1.1 " ++ decimalInt response.status ++ bytes " " ++
    statusMessage response.status ++ crlf

/-- The caller's content-length, if any, is dropped and the computed one written last. -/
def serializeHead (response : Response) : Bytes :=
  response.statusLine ++
    ((response.headers.fields.filter (fun field => field.name ≠ bytes "content-length")).map
      HeaderField.line).flatten ++
    bytes "content-length: " ++ decimal response.body.length ++ crlf ++ crlf

def serialize (response : Response) (withBody : Bool := true) : Bytes :=
  response.serializeHead ++ (if withBody then response.body else [])

end Response

end Carafe.Http
