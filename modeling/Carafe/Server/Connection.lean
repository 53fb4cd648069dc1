import Carafe.Http.Isolation
import Carafe.Net.Socket

/-!
# The connection

A socket and the reader for the bytes coming off it. The loop of `next_request` has
two halves, asking the reader and reading from the socket; what the socket, its
receive timeout and the clock do in one round of it is given by a `Round`.
-/

namespace Carafe.Server
open Http Net

def maxBufferLength : Nat := 4096

structure Deadlines where
  idle : Milliseconds := 30000
  request : Milliseconds := 30000

structure ConnectionResult where
  error : RequestError := .none
  osError : Errno := 0
  request : Option Request := none
  streamContinues : Bool := true
  version : Version := .http10

/-- The environment in one round: the clock ahead of the read, what setting the receive
timeout reports, what the read returns, and the clock behind it. -/
structure Round where
  before : TimePoint
  timeoutSet : Errno := 0
  read : ReadResult maxBufferLength
  after : TimePoint

structure Connection where
  reader : RequestReader := {}
  requestInProgress : Bool := false
  deadlines : Deadlines
  requestDeadline : TimePoint := 0

namespace Connection

/-- The receive timeout for the next read. -/
def readLimit (conn : Connection) (now : TimePoint) : Option Milliseconds :=
  if conn.requestInProgress then millisecondsUntil conn.requestDeadline now
  else some conn.deadlines.idle

def applyReadDeadline (conn : Connection) (round : Round) : Errno :=
  match conn.readLimit round.before with
  | none => etimedout
  | some _ => round.timeoutSet

/-- The first half: a request or a failure, unless the reader has nothing yet. -/
def parse (conn : Connection) : Connection × Option RequestResult :=
  let answer := conn.reader.nextRequest
  let parsed := answer.2
  if parsed.error ≠ .none ∨ parsed.request.isSome then
    ({ conn with
        reader := answer.1
        requestInProgress := if parsed.request.isSome then false else conn.requestInProgress },
      some parsed)
  else ({ conn with reader := answer.1 }, none)

/-- Bytes that were read go to the reader; the first of a request start its clock. -/
def received (conn : Connection) (chunk : Bytes) (now : TimePoint) : Connection :=
  let conn := { conn with reader := conn.reader.append chunk }
  if conn.requestInProgress then conn
  else
    { conn with
      requestInProgress := true
      requestDeadline := now + conn.deadlines.request.span }

/-- The second half: the read, and the result that ends the call if it brought no bytes. -/
def receive (conn : Connection) (round : Round) : Connection × Option ConnectionResult :=
  if conn.applyReadDeadline round ≠ 0 then
    (conn, some { osError := conn.applyReadDeadline round, streamContinues := false })
  else match round.read with
    | .failed osError _ => (conn, some { osError := osError, streamContinues := false })
    -- A close part-way through a head is a finished connection.
    | .ended => (conn, some {})
    | .bytes chunk _ _ => (conn.received chunk round.after, none)

def resultOf (parsed : RequestResult) : ConnectionResult where
  error := parsed.error
  request := parsed.request
  streamContinues := parsed.streamContinues
  version := parsed.version

/-- With the rounds that are left. There is no result while a read has not returned. -/
def nextRequest (conn : Connection) (rounds : List Round) :
    Connection × Option ConnectionResult × List Round :=
  match conn.parse with
  | (conn, some parsed) => (conn, some (resultOf parsed), rounds)
  | (conn, none) => match rounds with
    | [] => (conn, none, [])
    | round :: rounds => match conn.receive round with
      | (conn, some result) => (conn, some result, rounds)
      | (conn, none) => nextRequest conn rounds

end Connection

end Carafe.Server
