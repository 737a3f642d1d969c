import Azure.Reasoning.Runs
import Azure.Scheduler.Model
import Mathlib.Algebra.BigOperators.Group.Finset.Basic

/-!
# Connection pool (`http_connection.h`, `http_connection.cpp`)

Fibers call `getConnection`, keep what they get for a while, and drop it: the deleter is
`ReleasePtr`.  One step takes one fiber to its next access to something others see.  Connections are
numbered in the order of their construction, so that a number is never used again.  A socket can be
closed at any time, but nothing connects the socket of a pool a second time.
-/

namespace Azure

/-- A connection of a pool; `freed` once it has been deleted. -/
structure HttpConnection where
  createTime : UInt64
  request : Int := 0
  isConnected : Bool := true
  freed : Bool := false
  deriving DecidableEq, Repr

abbrev ConnId := Nat

structure PoolLimits where
  maxSize : Int32
  maxAliveTime : Int32
  maxRequest : Int32
  deriving DecidableEq, Repr

namespace PoolLimits

def new (maxSize maxAliveTime maxRequest : UInt32) : PoolLimits where
  maxSize := maxSize.toInt32
  maxAliveTime := maxAliveTime.toInt32
  maxRequest := maxRequest.toInt32

/-- `(conn->m_createTime + m_maxAliveTime) <= now_ms`: the `int32_t` becomes a `uint64_t`. -/
def expired (limits : PoolLimits) (conn : HttpConnection) (now : UInt64) : Bool :=
  conn.createTime + limits.maxAliveTime.toInt64.toUInt64 ≤ now

end PoolLimits

inductive PoolPc where
  | out
  /-- in `getConnection`, before the lock -/
  | lock (now : UInt64)
  /-- at the `while`, with the lock -/
  | scan (now : UInt64) (invalid : List ConnId)
  /-- in the loop over the `size` invalid connections, of which `left` is left -/
  | dispose (size : Nat) (left : List ConnId) (ptr : Option ConnId)
  /-- before the lookup of the address -/
  | connect
  /-- before `++m_total` -/
  | count (ptr : ConnId)
  /-- in `ReleasePtr` -/
  | release (ptr : ConnId)
  /-- before `delete` -/
  | delete (ptr : ConnId)
  /-- before `--pool->m_total` -/
  | discount
  /-- before the lock of `ReleasePtr` -/
  | pushBack (ptr : ConnId)
  deriving DecidableEq, Repr

/-- `callers` are the connections that somebody has a pointer to. -/
structure Pool where
  heap : List HttpConnection := []
  conns : List ConnId := []
  total : Int32 := 0
  mutex : Option FiberId := none
  callers : List ConnId := []
  fiber : FiberId → PoolPc := fun _ => .out
  clock : UInt64 := 0

inductive PoolAction where
  | getConnection (f : FiberId)
  /-- the last pointer to `ptr` goes away -/
  | releasePtr (f : FiberId) (ptr : ConnId)
  /-- the next step of a fiber in the pool; `ok` is for the lookup, the socket and `connect` -/
  | step (f : FiberId) (ok : Bool)
  /-- somebody closes the socket of `ptr` -/
  | close (ptr : ConnId)
  | tick (now : UInt64)
  deriving DecidableEq, Repr

structure PoolEffect where
  taken : Option ConnId := none
  created : Option ConnId := none
  deleted : Option ConnId := none
  ret : Option (Option ConnId) := none
  deriving DecidableEq, Repr

namespace Pool

def goto (s : Pool) (f : FiberId) (pc : PoolPc) : Pool :=
  { s with fiber := Function.update s.fiber f pc }

def deref (s : Pool) (ptr : ConnId) : Option HttpConnection :=
  (s.heap[ptr]?).filter fun conn => !conn.freed

def modify (s : Pool) (ptr : ConnId) (g : HttpConnection → HttpConnection) : Pool :=
  { s with heap := s.heap.modify ptr g }

def handOut (s : Pool) (f : FiberId) (ptr : ConnId) : PoolEffect × Pool :=
  ({ ret := some (some ptr) }, { s with callers := ptr :: s.callers }.goto f .out)

def step (limits : PoolLimits) (s : Pool) (f : FiberId) (ok : Bool) :
    Option (PoolEffect × Pool) :=
  match s.fiber f with
  | .out => none
  | .lock now =>
    if s.mutex.isSome then none else some ({}, { s with mutex := some f }.goto f (.scan now []))
  | .scan now invalid =>
    match s.conns with
    | [] => some ({}, { s with mutex := none }.goto f (.dispose invalid.length invalid none))
    | ptr :: conns =>
      -- popped from the front, and looked at behind the pointer
      (s.deref ptr).map fun conn =>
        let s := { s with conns }
        if !conn.isConnected then ({}, s.goto f (.scan now (invalid ++ [ptr])))
        else if limits.expired conn now then ({}, s.goto f (.scan now (invalid ++ [ptr])))
        else
          ({ taken := some ptr },
            { s with mutex := none }.goto f (.dispose invalid.length invalid (some ptr)))
  | .dispose size (i :: left) ptr =>
    (s.deref i).map fun _ =>
      ({ deleted := some i },
        (s.modify i fun conn => { conn with freed := true }).goto f (.dispose size left ptr))
  | .dispose size [] ptr =>
    -- `m_total -= invalid_conns.size()`, behind the loop
    let s := { s with total := s.total - Int32.ofNat size }
    match ptr with
    | some ptr => some (s.handOut f ptr)
    | none => some ({}, s.goto f .connect)
  | .connect =>
    -- the lookup, the socket or `connect` has failed
    if !ok then some ({ ret := some none }, s.goto f .out)
    else
      some ({ created := some s.heap.length },
        { s with heap := s.heap ++ [({ createTime := s.clock } : HttpConnection)] }.goto f
          (.count s.heap.length))
  | .count ptr => some ({ s with total := s.total + 1 }.handOut f ptr)
  | .release ptr =>
    (s.deref ptr).map fun conn =>
      let conn := { conn with request := conn.request + 1 }
      let s := s.modify ptr fun _ => conn
      -- a connection that cannot be used again is deleted
      if !conn.isConnected || limits.expired conn s.clock ||
          conn.request ≥ limits.maxRequest.toInt then ({}, s.goto f (.delete ptr))
      else ({}, s.goto f (.pushBack ptr))
  | .delete ptr =>
    (s.deref ptr).map fun _ =>
      ({ deleted := some ptr },
        (s.modify ptr fun conn => { conn with freed := true }).goto f .discount)
  | .discount => some ({}, { s with total := s.total - 1 }.goto f .out)
  | .pushBack ptr =>
    if s.mutex.isSome then none else some ({}, { s with conns := s.conns ++ [ptr] }.goto f .out)

def act (limits : PoolLimits) (s : Pool) : PoolAction → Option (PoolEffect × Pool)
  | .getConnection f =>
    match s.fiber f with
    | .out => some ({}, s.goto f (.lock s.clock))
    | _ => none
  | .releasePtr f ptr =>
    match s.fiber f with
    | .out =>
      if ptr ∈ s.callers then
        some ({}, { s with callers := s.callers.erase ptr }.goto f (.release ptr))
      else none
    | _ => none
  | .step f ok => s.step limits f ok
  | .close ptr => some ({}, s.modify ptr fun conn => { conn with isConnected := false })
  | .tick now => some ({}, { s with clock := now })

abbrev Event := PoolAction × PoolEffect

def Step (limits : PoolLimits) (s : Pool) (e : Event) (s' : Pool) : Prop :=
  s.act limits e.1 = some (e.2, s')

def Quiescent (s : Pool) : Prop := ∀ f, s.fiber f = .out

def alive (s : Pool) : Nat := s.heap.countP fun conn => !conn.freed

/-! ## Who has a connection -/

end Pool

namespace PoolPc

def owned : PoolPc → List ConnId
  | scan _ invalid => invalid
  | dispose _ left ptr => left ++ ptr.toList
  | count ptr | release ptr | delete ptr | pushBack ptr => [ptr]
  | _ => []

/-- The connections that `m_total` still counts although they are neither idle nor checked out. -/
def counted : PoolPc → Nat
  | scan _ invalid => invalid.length
  | dispose size _ ptr => size + ptr.toList.length
  | release _ | delete _ | discount | pushBack _ => 1
  | _ => 0

def now : PoolPc → Option UInt64
  | lock now | scan now _ => some now
  | _ => none

end PoolPc

/-- `m_conns`, the users of the pool, or a fiber inside `getConnection` or `ReleasePtr`. -/
inductive ConnOwner where
  | conns
  | callers
  | fiber (f : FiberId)
  deriving DecidableEq

namespace Pool

def held (s : Pool) : ConnOwner → List ConnId
  | .conns => s.conns
  | .callers => s.callers
  | .fiber f => (s.fiber f).owned

end Pool

end Azure
