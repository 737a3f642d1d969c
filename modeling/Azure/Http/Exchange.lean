import Azure.Http.Accounting
import Azure.Http.Receive

/-!
# Exchanges over a pool (`http_connection.cpp`)

`doRequest` takes a connection from the pool, sends the request over it, receives the response, and
lets the connection go.  Whether it goes back to `m_conns` is left to `ReleasePtr`, which looks at the
socket and not at how the exchange has ended.  Other users of the pool have pointers of their own.
-/

namespace Azure

open Reasoning

/-- `HttpResult::Error`, as far as the `doRequest` of a pool returns it. -/
inductive HttpResultError where
  | ok
  | sendCloseByPeer
  | sendSocketError
  | timeout
  | poolGetConnection
  deriving DecidableEq, Repr

/-- `sendRequest` has returned a value that is not positive, or `recvResponse` null. -/
def HttpResultError.failed : HttpResultError → Bool
  | sendCloseByPeer | sendSocketError | timeout => true
  | ok | poolGetConnection => false

/-- Where a fiber is in `doRequest`.  The socket of a connection is never null. -/
inductive ExchangePc where
  | out
  /-- in `getConnection`; the text of the request has `length` bytes -/
  | getting (length : UInt64)
  /-- in `sendRequest`, with the results of `write` so far -/
  | sending (conn : ConnId) (length : UInt64) (results : List Int)
  /-- in `recvResponse`, with what `read` has come to so far -/
  | receiving (conn : ConnId) (reads : List ReadResult)
  /-- in `ReleasePtr`, behind the `return`; `none` when an exception has left `recvResponse` -/
  | releasing (conn : ConnId) (error : Option HttpResultError)
  deriving DecidableEq, Repr

/-- `users` are the connections that somebody has a pointer to who has called `getConnection`
himself. -/
structure Exchanges where
  pool : Pool
  fiber : FiberId → ExchangePc := fun _ => .out
  users : List ConnId := []

inductive ExchangeAction where
  | doRequest (f : FiberId) (length : UInt64)
  /-- the next step of a fiber inside the pool; `ok` as in `PoolAction.step` -/
  | step (f : FiberId) (ok : Bool)
  /-- the next `write` of a fiber in `sendRequest` returns -/
  | write (f : FiberId) (r : Int)
  /-- the next `read` of a fiber in `recvResponse` returns -/
  | read (f : FiberId) (r : ReadResult)
  /-- what users do with the pool, and with the pointers they have -/
  | getConnection (f : FiberId)
  | releasePtr (f : FiberId) (ptr : ConnId)
  | close (ptr : ConnId)
  | tick (now : UInt64)
  deriving DecidableEq, Repr

/-- A call of `doRequest` that ends with this step: its connection, and what it returns. -/
structure ExchangeEffect where
  done : Option (Option ConnId × Option HttpResultError) := none
  deriving DecidableEq, Repr

namespace Exchanges

def writeAnswers (conn : HttpConnection) (requested : Nat) (r : Int) : Bool :=
  if conn.isConnected then -1 ≤ r && r ≤ requested && r < 2 ^ 31 else r = -1

/-- What a `read` can come to: nothing is read over a socket that is not connected. -/
def readAnswers (conn : HttpConnection) (r : ReadResult) : Bool :=
  conn.isConnected || r = .fail (-1)

def goto (s : Exchanges) (f : FiberId) (pc : ExchangePc) : Exchanges :=
  { s with fiber := Function.update s.fiber f pc }

/-- `doRequest` returns, and the last pointer to the connection goes away. -/
def release (limits : PoolLimits) (s : Exchanges) (f : FiberId) (conn : ConnId)
    (error : Option HttpResultError) : Option (ExchangeEffect × Exchanges) :=
  (s.pool.act limits (.releasePtr f conn)).map fun r =>
    ({}, { s with pool := r.2 }.goto f (.releasing conn error))

def send (limits : PoolLimits) (s : Exchanges) (f : FiberId) (conn : ConnId) (length : UInt64)
    (results : List Int) : Option (ExchangeEffect × Exchanges) :=
  match (Stream.writeFixSize length results).ret with
  | none => some ({}, s.goto f (.sending conn length results))
  | some rt =>
    if rt = 0 then s.release limits f conn (some .sendCloseByPeer)
    else if rt < 0 then s.release limits f conn (some .sendSocketError)
    else some ({}, s.goto f (.receiving conn []))

def receive (limits : PoolLimits) (s : Exchanges) (f : FiberId) (conn : ConnId)
    (reads : List ReadResult) (r : Recv HttpResponse) : Option (ExchangeEffect × Exchanges) :=
  match r with
  | .wait => some ({}, s.goto f (.receiving conn reads))
  | .null closed =>
    -- `recvResponse` closes the socket before it returns null
    if closed then
      (s.pool.act limits (.close conn)).bind fun q =>
        { s with pool := q.2 }.release limits f conn (some .timeout)
    else s.release limits f conn (some .timeout)
  | .thrown => s.release limits f conn none
  | .ret _ _ => s.release limits f conn (some .ok)

def behind (limits : PoolLimits) (s : Exchanges) (f : FiberId) (eff : PoolEffect) :
    Option (ExchangeEffect × Exchanges) :=
  match s.fiber f with
  | .out =>
    match eff.ret with
    | some (some ptr) => some ({}, { s with users := ptr :: s.users })
    | _ => some ({}, s)
  | .getting length =>
    match eff.ret with
    | none => some ({}, s)
    | some none => some ({ done := some (none, some .poolGetConnection) }, s.goto f .out)
    | some (some conn) => s.send limits f conn length []
  | .releasing conn error =>
    if s.pool.fiber f = .out then some ({ done := some (some conn, error) }, s.goto f .out)
    else some ({}, s)
  | .sending _ _ _ | .receiving _ _ => none

/-- One step; `M` is the machine for responses, and `size` that of the buffer. -/
def act (limits : PoolLimits) (M : Scanner Nat ResponseAction) (size : Nat) (s : Exchanges) :
    ExchangeAction → Option (ExchangeEffect × Exchanges)
  | .doRequest f length =>
    match s.fiber f with
    | .out =>
      (s.pool.act limits (.getConnection f)).map fun r =>
        ({}, { s with pool := r.2 }.goto f (.getting length))
    | _ => none
  | .step f ok =>
    (s.pool.act limits (.step f ok)).bind fun r => { s with pool := r.2 }.behind limits f r.1
  | .write f r =>
    match s.fiber f with
    | .sending ptr length results =>
      (s.pool.deref ptr).bind fun conn =>
        ((Stream.writeFixSize length results).calls.getLast?).bind fun call =>
          if writeAnswers conn call.requested r then s.send limits f ptr length (results ++ [r])
          else none
    | _ => none
  | .read f r =>
    match s.fiber f with
    | .receiving ptr reads =>
      (s.pool.deref ptr).bind fun conn =>
        if readAnswers conn r then
          (HttpConnection.recvResponse M size (reads ++ [r])).bind
            (s.receive limits f ptr (reads ++ [r]))
        else none
    | _ => none
  | .getConnection f =>
    match s.fiber f with
    | .out => (s.pool.act limits (.getConnection f)).map fun r => ({}, { s with pool := r.2 })
    | _ => none
  | .releasePtr f ptr =>
    match s.fiber f with
    | .out =>
      if ptr ∈ s.users then
        (s.pool.act limits (.releasePtr f ptr)).map fun r =>
          ({}, { s with pool := r.2, users := s.users.erase ptr })
      else none
    | _ => none
  | .close ptr =>
    if ptr ∈ s.users then
      (s.pool.act limits (.close ptr)).map fun r => ({}, { s with pool := r.2 })
    else none
  | .tick now => (s.pool.act limits (.tick now)).map fun r => ({}, { s with pool := r.2 })

abbrev Event := ExchangeAction × ExchangeEffect

def Step (limits : PoolLimits) (M : Scanner Nat ResponseAction) (size : Nat) (s : Exchanges)
    (e : Event) (s' : Exchanges) : Prop :=
  s.act limits M size e.1 = some (e.2, s')

def new (clock : UInt64) : Exchanges := { pool := Pool.new clock }

end Exchanges

end Azure
