import Mathlib.Logic.Function.Basic

/-!
# Sockets (`socket.h`, `socket.cpp`)

A `Socket` opens its descriptor when it is first bound or connected, and can be closed and connected
again.  `α` are the addresses of the kernel.  What the kernel answers to a call is an input, and it
answers `getsockname` and `getpeername` from tables that the calls change.  The options that
`initSock` sets are left out.
-/

namespace Azure

/-- The descriptors that are open, and the answers of `getsockname` and `getpeername`. -/
structure SocketKernel (α : Type) where
  isOpen : Int → Bool := fun _ => false
  sockname : Int → Option α := fun _ => none
  peername : Int → Option α := fun _ => none

/-- What the kernel contributes to a call: the descriptor of `socket` or `accept`, or -1; whether
`bind` or `connect` returns 0; and the addresses of the descriptor then. -/
structure SocketInput (α : Type) where
  fd : Int := -1
  ok : Bool := false
  sockname : Option α := none
  peername : Option α := none
  deriving DecidableEq, Repr

namespace SocketKernel

variable {α : Type}

def handOut (k : SocketKernel α) (fd : Int) : SocketKernel α :=
  { k with isOpen := Function.update k.isOpen fd true }

def close (k : SocketKernel α) (fd : Int) : SocketKernel α :=
  { k with isOpen := Function.update k.isOpen fd false }

def rename (k : SocketKernel α) (fd : Int) (i : SocketInput α) : SocketKernel α :=
  { k with
    sockname := Function.update k.sockname fd i.sockname
    peername := Function.update k.peername fd i.peername }

def Fresh (k : SocketKernel α) (fd : Int) : Prop := fd = -1 ∨ 0 ≤ fd ∧ k.isOpen fd = false

instance (k : SocketKernel α) (fd : Int) : Decidable (k.Fresh fd) :=
  inferInstanceAs (Decidable (_ ∨ _))

end SocketKernel

structure Socket (α : Type) where
  sockfd : Int := -1
  family : Int
  type : Int
  protocol : Int := 0
  isConnected : Bool := false
  localAddress : Option α := none
  remoteAddress : Option α := none
  deriving DecidableEq, Repr

namespace Socket

variable {α : Type}

def isValid (sock : Socket α) : Bool := sock.sockfd ≠ -1

/-- The cached address, or that of the descriptor; none is the `UnknowAddress` of a call that
fails, which is not kept. -/
def getRemoteAddress (sock : Socket α) (k : SocketKernel α) : Option α × Socket α :=
  match sock.remoteAddress with
  | some a => (some a, sock)
  | none =>
    match k.peername sock.sockfd with
    | none => (none, sock)
    | some a => (some a, { sock with remoteAddress := some a })

def getLocalAddress (sock : Socket α) (k : SocketKernel α) : Option α × Socket α :=
  match sock.localAddress with
  | some a => (some a, sock)
  | none =>
    match k.sockname sock.sockfd with
    | none => (none, sock)
    | some a => (some a, { sock with localAddress := some a })

def newSock (sock : Socket α) (k : SocketKernel α) (i : SocketInput α) :
    Socket α × SocketKernel α :=
  ({ sock with sockfd := i.fd }, if i.fd = -1 then k else k.handOut i.fd)

def ensure (sock : Socket α) (k : SocketKernel α) (i : SocketInput α) :
    Socket α × SocketKernel α :=
  if sock.isValid then (sock, k) else sock.newSock k i

def cacheLocal (sock : Socket α) (k : SocketKernel α) : Socket α := (sock.getLocalAddress k).2

def cacheRemote (sock : Socket α) (k : SocketKernel α) : Socket α := (sock.getRemoteAddress k).2

def close (sock : Socket α) (k : SocketKernel α) : Bool × Socket α × SocketKernel α :=
  if !sock.isConnected && sock.sockfd = -1 then (true, sock, k)
  else
    (false, { sock with isConnected := false, sockfd := -1 },
      if sock.sockfd = -1 then k else k.close sock.sockfd)

def bind (sock : Socket α) (k : SocketKernel α) (addrFamily : Int) (i : SocketInput α) :
    Bool × Socket α × SocketKernel α :=
  let r := sock.ensure k i
  if !r.1.isValid then (false, r)
  else if addrFamily ≠ r.1.family then (false, r)
  else if !i.ok then (false, r)
  else
    let k := r.2.rename r.1.sockfd i
    (true, r.1.cacheLocal k, k)

def connect (sock : Socket α) (k : SocketKernel α) (addrFamily : Int) (timeoutMs : UInt64)
    (i : SocketInput α) : Bool × Socket α × SocketKernel α :=
  let r := sock.ensure k i
  if !r.1.isValid then (false, r)
  else if addrFamily ≠ r.1.family then (false, r)
  else
    let k := r.2.rename r.1.sockfd i
    if timeoutMs = ~~~0 then
      if !i.ok then (false, (r.1.close k).2)
      else
        let sock := { r.1 with isConnected := true }
        (true, (sock.cacheRemote k).cacheLocal k, k)
    else
      -- behind the `if` on the result
      (false, (r.1.close k).2)

/-- `init`; `managed` says that `FdManager` has a socket of this number that is not closed. -/
def init (sock : Socket α) (k : SocketKernel α) (sockfd : Int) (managed : Bool) :
    Option (Socket α) :=
  if managed then
    some (({ sock with sockfd, isConnected := true }.cacheLocal k).cacheRemote k)
  else none

def accept (sock : Socket α) (k : SocketKernel α) (managed : Bool) (i : SocketInput α) :
    Option (Socket α) × SocketKernel α :=
  let newSocket : Socket α :=
    { family := sock.family, type := sock.type, protocol := sock.protocol }
  if i.fd = -1 then (none, k)
  else
    let k := (k.handOut i.fd).rename i.fd i
    (newSocket.init k i.fd managed, k)

end Socket

structure Sockets (α : Type) where
  sockets : List (Socket α) := []
  kernel : SocketKernel α := {}

inductive SocketAction (α : Type) where
  /-- the constructor -/
  | new (family type protocol : Int)
  | bind (n : Nat) (addrFamily : Int) (i : SocketInput α)
  | connect (n : Nat) (addrFamily : Int) (timeoutMs : UInt64) (i : SocketInput α)
  | close (n : Nat)
  | accept (n : Nat) (managed : Bool) (i : SocketInput α)
  /-- the kernel's addresses of a descriptor change -/
  | rename (fd : Int) (i : SocketInput α)
  deriving DecidableEq, Repr

namespace Sockets

variable {α : Type}

def store (s : Sockets α) (n : Nat) (r : Bool × Socket α × SocketKernel α) : Bool × Sockets α :=
  (r.1, { sockets := s.sockets.set n r.2.1, kernel := r.2.2 })

/-- One call, with its result; `accept` says whether there is a new socket. -/
def act (s : Sockets α) : SocketAction α → Option (Bool × Sockets α)
  | .new family type protocol =>
    some (true, { s with sockets := s.sockets ++ [{ family, type, protocol }] })
  | .bind n addrFamily i =>
    match s.sockets[n]? with
    | some sock =>
      if s.kernel.Fresh i.fd then some (s.store n (sock.bind s.kernel addrFamily i)) else none
    | none => none
  | .connect n addrFamily timeoutMs i =>
    match s.sockets[n]? with
    | some sock =>
      if s.kernel.Fresh i.fd then some (s.store n (sock.connect s.kernel addrFamily timeoutMs i))
      else none
    | none => none
  | .close n => s.sockets[n]?.map fun sock => s.store n (sock.close s.kernel)
  | .accept n managed i =>
    match s.sockets[n]? with
    | some sock =>
      if s.kernel.Fresh i.fd then
        match sock.accept s.kernel managed i with
        | (none, kernel) => some (false, { s with kernel })
        | (some newSocket, kernel) => some (true, { sockets := s.sockets ++ [newSocket], kernel })
      else none
    | none => none
  | .rename fd i => some (true, { s with kernel := s.kernel.rename fd i })

def Step (s : Sockets α) (e : SocketAction α × Bool) (s' : Sockets α) : Prop :=
  s.act e.1 = some (e.2, s')

end Sockets

end Azure
