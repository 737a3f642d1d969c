import Mathlib.Logic.Function.Basic

/-!
# Descriptors (`fdmanager.h`, `fdmanager.cpp`)

The kernel's descriptor table hands out numbers and takes them back; `generation` counts how often
it has handed out each number.  `FdManager` keeps an `FdCtx` for the numbers that hooked functions
have seen, in a vector of shared pointers, so the objects are at addresses and outlive their slot.
-/

namespace Azure

structure Kernel where
  isOpen : Int → Bool := fun _ => false
  isSocket : Int → Bool := fun _ => false
  nonblock : Int → Bool := fun _ => false
  generation : Int → Nat := fun _ => 0

namespace Kernel

def handOut (k : Kernel) (fd : Int) : Kernel where
  isOpen := Function.update k.isOpen fd true
  isSocket := Function.update k.isSocket fd true
  nonblock := Function.update k.nonblock fd false
  generation := Function.update k.generation fd (k.generation fd + 1)

theorem generation_handOut_of_ne (k : Kernel) {fd n : Int} (h : n ≠ fd) :
    (k.handOut fd).generation n = k.generation n :=
  Function.update_of_ne h _ _

def free (k : Kernel) (fd : Int) : Kernel := { k with isOpen := Function.update k.isOpen fd false }

def setNonblock (k : Kernel) (fd : Int) (v : Bool) : Kernel :=
  { k with nonblock := Function.update k.nonblock fd v }

end Kernel

/-- `SO_RCVTIMEO` and `SO_SNDTIMEO` -/
inductive SoTimeout where
  | rcvtimeo
  | sndtimeo
  deriving DecidableEq, Repr

structure FdCtx where
  isInit : Bool := false
  isSocket : Bool := false
  sysNonblock : Bool := false
  userNonblock : Bool := false
  isClosed : Bool := false
  fd : Int
  readTimeout : UInt64 := ~~~0
  sendTimeout : UInt64 := ~~~0
  deriving DecidableEq, Repr

namespace FdCtx

/-- The constructor, with `init`: a socket is made non-blocking for the kernel. -/
def init (k : Kernel) (fd : Int) : FdCtx × Kernel :=
  -- `fstat` fails for a number that is not open
  let isInit := k.isOpen fd
  let isSocket := isInit && k.isSocket fd
  ({ isInit, isSocket, sysNonblock := isSocket, fd },
    if isSocket && !k.nonblock fd then k.setNonblock fd true else k)

theorem generation_init (k : Kernel) (fd : Int) : (init k fd).2.generation = k.generation := by
  show (if _ then k.setNonblock fd true else k).generation = k.generation
  split <;> rfl

def setTimeout (ctx : FdCtx) (type : SoTimeout) (v : UInt64) : FdCtx :=
  match type with
  | .rcvtimeo => { ctx with readTimeout := v }
  | .sndtimeo => { ctx with sendTimeout := v }

def getTimeout (ctx : FdCtx) : SoTimeout → UInt64
  | .rcvtimeo => ctx.readTimeout
  | .sndtimeo => ctx.sendTimeout

end FdCtx

/-- The address of an `FdCtx` object. -/
abbrev FdCtxAddr := Nat

structure FdManager where
  ctxs : List FdCtx := []
  data : List (Option FdCtxAddr) := List.replicate 64 none
  deriving DecidableEq, Repr

namespace FdManager

inductive Found where
  | null
  | ctx (a : FdCtxAddr)
  /-- `get` goes on to make the object -/
  | missing
  deriving DecidableEq, Repr

/-- `get` under the read lock; `none` is an index outside of the vector. -/
def find (m : FdManager) (fd : Int) (autoCreate : Bool) : Option Found :=
  if fd = -1 then some .null
  else if m.data.length ≤ fd then some (if autoCreate then .missing else .null)
  else if fd < 0 then none
  else
    match m.data[fd.toNat]? with
    | some (some a) => some (.ctx a)
    | _ => some (if autoCreate then .missing else .null)

def create (m : FdManager) (ctx : FdCtx) (fd : Int) : FdManager :=
  let data :=
    if m.data.length ≤ fd then
      -- `m_data.resize(fd * 1.5)`
      m.data ++ List.replicate ((fd * 3 / 2).toNat - m.data.length) none
    else m.data
  { ctxs := m.ctxs ++ [ctx], data := data.set fd.toNat (some m.ctxs.length) }

def at? (m : FdManager) (fd : Int) : Option FdCtxAddr :=
  match m.find fd false with
  | some (.ctx a) => some a
  | _ => none

/-- `del`; `none` is an index outside of the vector. -/
def del (m : FdManager) (fd : Int) : Option FdManager :=
  if m.data.length ≤ fd then some m
  else if fd < 0 then none
  else some { m with data := m.data.set fd.toNat none }

def update (m : FdManager) (a : FdCtxAddr) (f : FdCtx → FdCtx) : FdManager :=
  { m with ctxs := m.ctxs.modify a f }

end FdManager

end Azure
