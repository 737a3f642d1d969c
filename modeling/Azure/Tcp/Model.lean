import Azure.Reasoning.Runs
import Mathlib.Logic.Function.Basic

/-!
# TCP servers (`tcp_server.h`, `tcp_server.cpp`)

A server has a fiber for each of its listening sockets, which hands the connections that `accept` returns to
the workers.  `stop` leaves the closing of the sockets to another fiber.  One step takes a fiber to the next
place where another thread can come in between: the test of `m_isStop`, what `do_io` does within `accept`,
the call of `schedule`, and the parts of `cancelAll` and `close`.  `κ` are the connections.

The sockets are made with the hooks enabled and without timeouts, and no descriptor number is used again.
`bind` is one step, and so are `addEvent` and the yield behind it; `init` succeeds for what `accept` returns.
-/

namespace Azure

inductive AcceptPc (κ : Type) where
  /-- scheduled, and not yet begun -/
  | queued
  /-- at the test of `m_isStop` -/
  | test
  /-- about to call `accept`, which looks the descriptor up -/
  | accept
  /-- at `retry`, before `accept_f` -/
  | retry
  /-- before `addEvent` -/
  | add
  /-- held until something happens to the descriptor -/
  | wait
  /-- about to schedule `handleClient` -/
  | schedule (client : κ)
  | ended
  deriving DecidableEq, Repr

structure AcceptLoop (κ : Type) where
  sock : Nat
  pc : AcceptPc κ := .queued
  deriving DecidableEq, Repr

/-- A scheduled call of `handleClient`: the connection, the socket it came to, and its receive timeout. -/
structure ClientTask (κ : Type) where
  client : κ
  sock : Nat
  recvTimeout : UInt64
  deriving DecidableEq, Repr

inductive ClosePc where
  /-- `Socket::cancelAll` -/
  | cancel
  /-- `cancelAll` in the hook of `close` -/
  | cancelHook
  /-- `del` of the `FdManager` -/
  | del
  /-- `close_f` -/
  | close
  deriving DecidableEq, Repr

/-- The server with its fibers and what the kernel keeps for its sockets.  Sockets are numbered in the order
in which they were created. -/
structure TcpServer (κ : Type) where
  socks : List Nat := []
  readTimeout : UInt64 := 120000
  isStop : Bool := true
  /-- the sockets created so far -/
  created : Nat := 0
  /-- the `FdManager` has forgotten the descriptor -/
  deleted : Nat → Bool := fun _ => false
  closed : Nat → Bool := fun _ => false
  /-- connections that wait to be accepted -/
  backlog : Nat → List κ := fun _ => []
  /-- connections that were waiting when their socket was closed -/
  reset : Nat → List κ := fun _ => []
  loops : List (AcceptLoop κ) := []
  clients : List (ClientTask κ) := []
  /-- functions that `stop` has scheduled and that have not begun -/
  stops : Nat := 0
  /-- the sockets that the one that has begun has still to close -/
  closing : Option (List Nat × ClosePc) := none

inductive TcpAction (κ : Type) where
  /-- for each address, whether `bind` and `listen` succeed -/
  | bind (outcomes : List Bool)
  | start
  | stop
  | setReadTimeout (v : UInt64)
  /-- a client connects to a socket -/
  | connect (i : Nat) (c : κ)
  /-- the next step of a `startAccept`; the system call in it may fail -/
  | loop (n : Nat) (fails : Bool)
  /-- the next step of a function that `stop` has scheduled -/
  | close
  deriving DecidableEq, Repr

namespace TcpServer

variable {κ : Type}

def bindOne (ok : Bool) (r : List Nat × TcpServer κ) : List Nat × TcpServer κ :=
  if ok then (r.1, { r.2 with socks := r.2.socks ++ [r.2.created], created := r.2.created + 1 })
  else (r.1 ++ [r.2.created], { r.2 with created := r.2.created + 1 })

/-- `bind`; in `fails` a socket stands for its address. -/
def bind (outcomes : List Bool) (s : TcpServer κ) : Bool × TcpServer κ :=
  let (fails, s) := outcomes.foldl (fun r ok => bindOne ok r) ([], s)
  if fails ≠ [] then (false, { s with socks := [] }) else (true, s)

def start (s : TcpServer κ) : TcpServer κ :=
  if s.isStop = false then s
  else { s with isStop := false, loops := s.loops ++ s.socks.map fun i => { sock := i } }

def stop (s : TcpServer κ) : TcpServer κ := { s with isStop := true, stops := s.stops + 1 }

/-- Somebody holds a pointer to the socket, and it has not been closed. -/
def Listening (s : TcpServer κ) (i : Nat) : Prop :=
  s.closed i = false ∧ (i ∈ s.socks ∨ ∃ l ∈ s.loops, l.sock = i ∧ l.pc ≠ .ended)

instance [DecidableEq κ] (s : TcpServer κ) (i : Nat) : Decidable (s.Listening i) :=
  inferInstanceAs (Decidable (_ ∧ _))

/-- The kernel resets what waits at a socket that nobody can accept from any more. -/
def settle [DecidableEq κ] (s : TcpServer κ) : TcpServer κ :=
  { s with
    backlog := fun i => if s.Listening i then s.backlog i else []
    reset := fun i => if s.Listening i then s.reset i else s.reset i ++ s.backlog i }

def goto (s : TcpServer κ) (n : Nat) (pc : AcceptPc κ) : TcpServer κ :=
  { s with loops := s.loops.modify n fun l => { l with pc } }

def setBacklog (s : TcpServer κ) (i : Nat) (cs : List κ) : TcpServer κ :=
  { s with backlog := Function.update s.backlog i cs }

/-- `client->setRecvTimeout`, and `schedule` of `handleClient` -/
def serve (s : TcpServer κ) (client : κ) (i : Nat) : TcpServer κ :=
  { s with clients := s.clients ++ [⟨client, i, s.readTimeout⟩] }

/-- `accept_f`; where the fiber goes on when there is no connection is given. -/
def acceptF (s : TcpServer κ) (n i : Nat) (fails : Bool) (again : AcceptPc κ) : TcpServer κ :=
  if fails || s.closed i then s.goto n .test
  else
    match s.backlog i with
    | [] => s.goto n again
    | c :: cs => (s.setBacklog i cs).goto n (.schedule c)

def loop [DecidableEq κ] (s : TcpServer κ) (n : Nat) (fails : Bool) : Option (TcpServer κ) :=
  s.loops[n]?.bind fun l =>
    match l.pc with
    | .queued => some (s.goto n .test)
    | .test => some (s.goto n (if s.isStop then .ended else .accept))
    | .accept =>
      -- without an entry of the `FdManager` the descriptor is not waited for
      if s.closed l.sock || s.deleted l.sock then some (s.acceptF n l.sock fails .test)
      else some (s.goto n .retry)
    | .retry => some (s.acceptF n l.sock fails .add)
    | .add =>
      -- the assertion of `addEvent`, and `epoll_ctl` on a descriptor that is closed
      if ⟨l.sock, .wait⟩ ∈ s.loops then none
      else some (s.goto n (if fails || s.closed l.sock then .test else .wait))
    | .wait => if s.closed l.sock || s.backlog l.sock = [] then none else some (s.goto n .retry)
    | .schedule client => some ((s.serve client l.sock).goto n .test)
    | .ended => none

def cancelAll [DecidableEq κ] (s : TcpServer κ) (i : Nat) : TcpServer κ :=
  { s with loops := s.loops.map fun l => if l = ⟨i, .wait⟩ then { l with pc := .retry } else l }

def close [DecidableEq κ] (s : TcpServer κ) : Option (TcpServer κ) :=
  match s.closing with
  | none =>
    if s.stops = 0 then none
    else some { s with stops := s.stops - 1, closing := some (s.socks, .cancel) }
  | some (i :: is, .cancel) => some { s.cancelAll i with closing := some (i :: is, .cancelHook) }
  | some (i :: is, .cancelHook) => some { s.cancelAll i with closing := some (i :: is, .del) }
  | some (i :: is, .del) =>
    some { s with deleted := Function.update s.deleted i true, closing := some (i :: is, .close) }
  | some (i :: is, .close) =>
    some { s with closed := Function.update s.closed i true, closing := some (is, .cancel) }
  | some ([], _) => some { s with socks := [], closing := none }

/-- One action.  The functions of `stop` run one after the other, and nobody binds while one of them goes
through `m_socks`. -/
def act [DecidableEq κ] (s : TcpServer κ) : TcpAction κ → Option (TcpServer κ)
  | .bind outcomes => if s.closing = none then some (s.bind outcomes).2.settle else none
  | .start => some s.start
  | .stop => some s.stop
  | .setReadTimeout v => some { s with readTimeout := v }
  | .connect i c => if s.Listening i then some (s.setBacklog i (s.backlog i ++ [c])) else none
  | .loop n fails => (s.loop n fails).map settle
  | .close => s.close.map settle

def Step [DecidableEq κ] : TcpServer κ → TcpAction κ → TcpServer κ → Prop := Reasoning.Steps act

end TcpServer

end Azure
