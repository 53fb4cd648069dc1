import Carafe.Http.Ascii

/-!
# Sockets

What a connection is told by its socket and by the clock. Time points are
nanoseconds of the steady clock, limits are milliseconds, and an errno is `0` where
nothing went wrong.
-/

namespace Carafe.Net
open Http

abbrev TimePoint := Int
abbrev Milliseconds := Int
abbrev Errno := Int

def eagain : Errno := 11
def ewouldblock : Errno := 11
def etimedout : Errno := 110

/-- A limit in milliseconds on the clock. -/
def Milliseconds.span (limit : Milliseconds) : Int := limit * 1000000

/-- What is left until a deadline; less than a millisecond is nothing. -/
def millisecondsUntil (deadline now : TimePoint) : Option Milliseconds :=
  let left := deadline - now
  if left < Milliseconds.span 1 then none else some (left / Milliseconds.span 1)

/-- A read of at most `size` bytes: it blocks until there are some, the stream has ended
or an error other than an interruption came up. -/
inductive ReadResult (size : Nat) where
  | bytes (chunk : Bytes) (arrived : chunk ≠ []) (fits : chunk.length ≤ size)
  | ended
  | failed (osError : Errno) (error : osError ≠ 0)

end Carafe.Net
