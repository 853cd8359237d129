import Eureka.Library.Transition

/-!
# The connection pool

`ConnPool` of `conn-pool/conn_pool/pool.h`.  Every access to the pool is in a
section under its mutex, and a step of the model is one such section, so that a
run is an interleaving of the calls of any threads.  The pool lives throughout.

`Get` has three sections: it retires timed out connections, it takes an idle
connection or reserves room for a new one, and it gives the room back if `NewConn`
has thrown a `std::exception`.  Calls at the same point do not differ, so they
are only counted.  Times are nanoseconds, and the readings of the clock lie less than
`2 ^ 63` of them apart; the timeout is a number of microseconds.
-/

namespace Eureka.ConnPool

open Transition

/-- The arguments of `Make`. -/
structure Settings where
  capacity : UInt64
  maxIdle : UInt64
  idleTimeout : ℤ
deriving DecidableEq, Repr

/-- `idle_timeout_` in the clock's nanoseconds, as a comparison converts it.  The product is
one of 64-bit numbers; its overflow is undefined, and taken modulo `2 ^ 64` here. -/
def Settings.idleNanoseconds (settings : Settings) : ℤ :=
  (settings.idleTimeout * 1000).bmod (2 ^ 64)

/-- A connection that waits for reuse. -/
structure IdleConn (Raw : Type) where
  conn : Raw
  created : ℤ
  lastActive : ℤ
deriving DecidableEq, Repr

/-- What a `Conn` holds while it is bound to the pool. -/
structure Conn (Raw : Type) where
  rawConn : Raw
  creation : ℤ
deriving DecidableEq, Repr

/-- The members that the mutex protects; `undefined` says that a member function
has accessed the front of an empty deque. -/
structure Pool (Raw : Type) where
  size : UInt64
  idleList : List (IdleConn Raw)
  undefined : Bool
deriving DecidableEq, Repr

variable {Raw : Type}

/-! ## The sections under the mutex -/

/-- How the second section of `Get` ends. -/
inductive Acquired (Raw : Type)
  | reused (conn : Conn Raw)
  | exhausted
  | reserved
deriving DecidableEq, Repr

namespace Pool

/-- The loop of `RetireTimeoutIdleConnections`. -/
def retireTimeout (settings : Settings) (now : ℤ) :
    UInt64 → List (IdleConn Raw) → UInt64 × List (IdleConn Raw)
  | size, [] => (size, [])
  | size, idle :: rest =>
      if now - idle.lastActive ≥ settings.idleNanoseconds then
        retireTimeout settings now (size - 1) rest
      else
        (size, idle :: rest)

/-- `RetireTimeoutIdleConnections`, for the time that was read before the lock. -/
def retireTimeoutIdleConnections (settings : Settings) (p : Pool Raw) (now : ℤ) : Pool Raw :=
  let (size, idleList) := retireTimeout settings now p.size p.idleList
  { p with size := size, idleList := idleList }

/-- The second section of `Get`. -/
def acquire (settings : Settings) (p : Pool Raw) : Acquired Raw × Pool Raw :=
  match p.idleList.getLast? with
  | some idle =>
      (.reused ⟨idle.conn, idle.created⟩, { p with idleList := p.idleList.dropLast })
  | none =>
      if p.size ≥ settings.capacity then (.exhausted, p)
      else (.reserved, { p with size := p.size + 1 })

/-- `Put`, for the time that the new `IdleConn` reads. -/
def put (settings : Settings) (p : Pool Raw) (rawConn : Raw) (creation now : ℤ) : Pool Raw :=
  if p.idleList.length = settings.maxIdle.toNat then
    match p.idleList with
    | [] => { p with undefined := true }
    | _ :: rest =>
        { p with size := p.size - 1, idleList := rest ++ [⟨rawConn, creation, now⟩] }
  else
    { p with idleList := p.idleList ++ [⟨rawConn, creation, now⟩] }

end Pool

/-! ## Threads and objects -/

/-- The pool with its users.  `objects` are the `Conn` objects; one that is not
bound to the pool holds nothing of it.  The calls of `Get` are counted that are
before the second section, in `NewConn`, and before the third section; and
`exhausted` logs how many connections were live or in creation when a
`PoolExhausted` was thrown. -/
structure State (Raw : Type) where
  pool : Pool Raw
  objects : List (Option (Conn Raw))
  waiting : ℕ
  creating : ℕ
  failing : ℕ
  exhausted : List ℕ
deriving DecidableEq, Repr

inductive Action (Raw : Type)
  | get (now : ℤ)
  | acquire
  | newConnReturns (rawConn : Raw) (now : ℤ)
  | newConnThrows (stdException : Bool)
  | giveBack
  | put (rawConn : Raw) (creation now : ℤ)
  | destroy (i : ℕ) (now : ℤ)
  | moveConstruct (i : ℕ)
  | moveAssign (dest source : ℕ)
deriving DecidableEq, Repr

namespace State

/-- The `Conn` objects that are bound to the pool. -/
def live (s : State Raw) : ℕ := s.objects.countP Option.isSome

/-- The creations in flight: from the reservation until there is a `Conn` or the
room was given back. -/
def creations (s : State Raw) : ℕ := s.creating + s.failing

/-- The first section of `Get`. -/
def get (settings : Settings) (s : State Raw) (now : ℤ) : State Raw :=
  { s with
    pool := if settings.idleTimeout > 0 then s.pool.retireTimeoutIdleConnections settings now
      else s.pool
    waiting := s.waiting + 1 }

def acquire (settings : Settings) (s : State Raw) : Option (State Raw) :=
  if s.waiting = 0 then none
  else
    let s := { s with waiting := s.waiting - 1 }
    match s.pool.acquire settings with
    | (.reused conn, p) => some { s with pool := p, objects := s.objects ++ [some conn] }
    | (.exhausted, p) =>
        some { s with pool := p, exhausted := s.exhausted ++ [s.live + s.creations] }
    | (.reserved, p) => some { s with pool := p, creating := s.creating + 1 }

def newConnReturns (s : State Raw) (rawConn : Raw) (now : ℤ) : Option (State Raw) :=
  if s.creating = 0 then none
  else some { s with creating := s.creating - 1, objects := s.objects ++ [some ⟨rawConn, now⟩] }

/-- `NewConn` throws; `Get` catches a `std::exception` only. -/
def newConnThrows (s : State Raw) (stdException : Bool) : Option (State Raw) :=
  if s.creating = 0 then none
  else if stdException then
    some { s with creating := s.creating - 1, failing := s.failing + 1 }
  else
    some { s with creating := s.creating - 1 }

/-- The third section of `Get`. -/
def giveBack (s : State Raw) : Option (State Raw) :=
  if s.failing = 0 then none
  else some { s with failing := s.failing - 1, pool := { s.pool with size := s.pool.size - 1 } }

/-- The destructor of a `Conn`. -/
def destroy (settings : Settings) (s : State Raw) (i : ℕ) (now : ℤ) : Option (State Raw) :=
  match s.objects[i]? with
  | none => none
  | some none => some { s with objects := s.objects.eraseIdx i }
  | some (some conn) =>
      some { s with
        pool := s.pool.put settings conn.rawConn conn.creation now
        objects := s.objects.eraseIdx i }

/-- The defaulted move constructor; a moved-from `weak_ptr` is empty. -/
def moveConstruct (s : State Raw) (i : ℕ) : Option (State Raw) :=
  match s.objects[i]? with
  | none => none
  | some object => some { s with objects := s.objects.set i none ++ [object] }

/-- The defaulted move assignment; a self-move leaves the `weak_ptr` as it is. -/
def moveAssign (s : State Raw) (dest source : ℕ) : Option (State Raw) :=
  match s.objects[dest]?, s.objects[source]? with
  | some _, some object =>
      if dest = source then some s
      else some { s with objects := (s.objects.set dest object).set source none }
  | _, _ => none

end State

/-- The runs of a pool with these settings; behind undefined behaviour nothing is
possible. -/
def system (Raw : Type) (settings : Settings) : System (State Raw) (Action Raw) where
  start s := s = ⟨⟨0, [], false⟩, [], 0, 0, 0, []⟩
  step s action :=
    if s.pool.undefined then none
    else match action with
      | .get now => some (s.get settings now)
      | .acquire => s.acquire settings
      | .newConnReturns rawConn now => s.newConnReturns rawConn now
      | .newConnThrows stdException => s.newConnThrows stdException
      | .giveBack => s.giveBack
      | .put rawConn creation now =>
          some { s with pool := s.pool.put settings rawConn creation now }
      | .destroy i now => s.destroy settings i now
      | .moveConstruct i => s.moveConstruct i
      | .moveAssign dest source => s.moveAssign dest source

end Eureka.ConnPool
