import Azure.Scheduler.Model

/-!
# The event table (`iomanager.h`, `iomanager.cpp`)

`FdContext` objects live at addresses, because `m_fdContexts`, the calls in progress and the kernel
all hold pointers to them.  A call is two or three steps: it finds its context under the lock of the
table, may have to let the table grow under the write lock, and does its work under the mutex of the
context.  Each `epoll_ctl` is free to succeed or to fail, and its result is part of the label, as is
what `epoll_wait` reports.
-/

namespace Azure

abbrev CtxAddr := Nat

inductive IoEvent where
  | read
  | write
  deriving DecidableEq, Repr

/-- A combination of `READ` and `WRITE`. -/
structure Events where
  read : Bool := false
  write : Bool := false
  deriving DecidableEq, Repr

structure EpollEvents where
  epollin : Bool := false
  epollout : Bool := false
  epollerr : Bool := false
  epollhup : Bool := false
  deriving DecidableEq, Repr

inductive EpollOp where
  | add
  | mod
  | del
  deriving DecidableEq, Repr

/-- The arguments of an `epoll_ctl` call; `EPOLLET` is always set with `events`. -/
structure EpollCtl where
  op : EpollOp
  fd : Int
  events : Events
  deriving DecidableEq, Repr

namespace Events

-- `events & event`
def has (es : Events) : IoEvent → Bool
  | .read => es.read
  | .write => es.write

-- `events | event`
def add (es : Events) : IoEvent → Events
  | .read => { es with read := true }
  | .write => { es with write := true }

-- `events & ~event`
def remove (es : Events) : IoEvent → Events
  | .read => { es with read := false }
  | .write => { es with write := false }

-- `events & others`
def inter (es others : Events) : Events :=
  { read := es.read && others.read, write := es.write && others.write }

-- `events & ~others`
def diff (es others : Events) : Events :=
  { read := es.read && !others.read, write := es.write && !others.write }

def count (es : Events) : Int := (if es.read then 1 else 0) + if es.write then 1 else 0

end Events

/-- `real_events`: an error or a hang-up wakes both directions. -/
def EpollEvents.realEvents (ev : EpollEvents) : Events :=
  let wake := ev.epollerr || ev.epollhup
  { read := ev.epollin || wake, write := ev.epollout || wake }

section Context

variable {S C : Type}

structure EventContext (S C : Type) where
  scheduler : Option S := none
  fiber : Option FiberId := none
  cb : Option C := none
  deriving DecidableEq, Repr

structure FdContext (S C : Type) where
  fd : Nat := 0
  read : EventContext S C := {}
  write : EventContext S C := {}
  events : Events := {}
  deriving DecidableEq, Repr

namespace FdContext

def getContext (ctx : FdContext S C) : IoEvent → EventContext S C
  | .read => ctx.read
  | .write => ctx.write

def setContext (ctx : FdContext S C) (event : IoEvent) (slot : EventContext S C) :
    FdContext S C :=
  match event with
  | .read => { ctx with read := slot }
  | .write => { ctx with write := slot }

def resetContext (ctx : FdContext S C) (event : IoEvent) : FdContext S C :=
  ctx.setContext event {}

/-- `triggerEvent`, with what it hands to which scheduler: `schedule` swaps the function or the
pointer out of the slot.  `none` when the assertion fails or the scheduler is null. -/
def triggerEvent (ctx : FdContext S C) (event : IoEvent) :
    Option ((S × FiberOrCb C) × FdContext S C) :=
  if ctx.events.has event then
    let slot := ctx.getContext event
    let ctx := { ctx with events := ctx.events.remove event }
    match slot.scheduler with
    | none => none
    | some scheduler =>
      if slot.cb.isSome then
        some ((scheduler, .cb slot.cb),
          ctx.setContext event { slot with scheduler := none, cb := none })
      else
        some ((scheduler, .fiber slot.fiber),
          ctx.setContext event { slot with scheduler := none, fiber := none })
  else none

end FdContext

/-- What a section under the mutex of a context comes to; `count` is what it adds to
`m_pendingEventCount`, `ret` whether the call succeeds. -/
structure Section (S C : Type) where
  ctx : FdContext S C
  ret : Bool := true
  ctl : Option EpollCtl := none
  count : Int := 0
  scheduled : List (S × FiberOrCb C) := []
  deriving DecidableEq, Repr

/-- `triggerEvent` and `--m_pendingEventCount`, if the condition holds. -/
def Section.triggerIf (r : Section S C) (cond : Bool) (event : IoEvent) : Option (Section S C) :=
  if cond then
    (r.ctx.triggerEvent event).map fun t =>
      { r with ctx := t.2, count := r.count - 1, scheduled := r.scheduled ++ [t.1] }
  else some r

/-- The calls on the table, with the thread-local values `addEvent` reads. -/
inductive IoCall (S C : Type) where
  | addEvent (fd : Int) (event : IoEvent) (cb : Option C) (scheduler : Option S) (fiber : FiberId)
  | delEvent (fd : Int) (event : IoEvent)
  | cancelEvent (fd : Int) (event : IoEvent)
  | cancelAll (fd : Int)
  deriving DecidableEq, Repr

namespace IoCall

def fd : IoCall S C → Int
  | .addEvent fd .. | .delEvent fd _ | .cancelEvent fd _ | .cancelAll fd => fd

def addEventLocked (ctx : FdContext S C) (fd : Int) (event : IoEvent) (cb : Option C)
    (scheduler : Option S) (fiber : FiberId) (ok : Bool) : Option (Section S C) :=
  if ctx.events.has event then none
  else
    let op := if ctx.events = {} then EpollOp.add else .mod
    let ctl := some { op, fd, events := ctx.events.add event }
    if !ok then some { ctx, ret := false, ctl }
    else
      let ctx := { ctx with events := ctx.events.add event }
      let slot := ctx.getContext event
      if slot.scheduler.isSome || slot.fiber.isSome || slot.cb.isSome then none
      else if scheduler.isNone then none
      else
        let slot :=
          if cb.isSome then { slot with scheduler, cb } else { slot with scheduler, fiber := fiber }
        some { ctx := ctx.setContext event slot, ctl, count := 1 }

def ctlWithout (ctx : FdContext S C) (fd : Int) (event : IoEvent) : EpollCtl :=
  let newEvents := ctx.events.remove event
  { op := if newEvents = {} then .del else .mod, fd, events := newEvents }

def delEventLocked (ctx : FdContext S C) (fd : Int) (event : IoEvent) (ok : Bool) :
    Option (Section S C) :=
  if !ctx.events.has event then some { ctx, ret := false }
  else
    let ctl := some (ctlWithout ctx fd event)
    if !ok then some { ctx, ret := false, ctl }
    else
      let ctx := { ctx with events := ctx.events.remove event }
      some { ctx := ctx.resetContext event, ctl, count := -1 }

def cancelEventLocked (ctx : FdContext S C) (fd : Int) (event : IoEvent) (ok : Bool) :
    Option (Section S C) :=
  if !ctx.events.has event then some { ctx, ret := false }
  else
    let ctl := some (ctlWithout ctx fd event)
    if !ok then some { ctx, ret := false, ctl }
    else Section.triggerIf { ctx, ctl } true event

def cancelAllLocked (ctx : FdContext S C) (fd : Int) (ok : Bool) : Option (Section S C) :=
  if ctx.events = {} then some { ctx, ret := false }
  else
    let ctl := some { op := .del, fd, events := {} }
    if !ok then some { ctx, ret := false, ctl }
    else
      (Section.triggerIf { ctx, ctl } ctx.events.read .read).bind fun r =>
        (r.triggerIf r.ctx.events.write .write).bind fun r =>
          if r.ctx.events = {} then some r else none

def locked (call : IoCall S C) (ctx : FdContext S C) (ok : Bool) : Option (Section S C) :=
  match call with
  | .addEvent fd event cb scheduler fiber => addEventLocked ctx fd event cb scheduler fiber ok
  | .delEvent fd event => delEventLocked ctx fd event ok
  | .cancelEvent fd event => cancelEventLocked ctx fd event ok
  | .cancelAll fd => cancelAllLocked ctx fd ok

end IoCall

def FdContext.dispatch (ctx : FdContext S C) (ev : EpollEvents) (ok : Bool) :
    Option (Section S C) :=
  let realEvents := ev.realEvents
  if ctx.events.inter realEvents = {} then some { ctx }
  else
    let leftEvents := ctx.events.diff realEvents
    let op := if leftEvents = {} then EpollOp.del else .mod
    let ctl := some { op, fd := ctx.fd, events := leftEvents }
    if !ok then some { ctx, ctl }
    else
      (Section.triggerIf { ctx, ctl } realEvents.read .read).bind fun r =>
        r.triggerIf realEvents.write .write

inductive Caller (S C : Type) where
  | out
  /-- in `addEvent`, between the test of the size and the write lock -/
  | resize (call : IoCall S C)
  /-- about to lock the context -/
  | lock (call : IoCall S C) (ctx : CtxAddr)
  /-- in `idle`, with the reports still to be dispatched -/
  | dispatch (reports : List (CtxAddr × EpollEvents))
  deriving DecidableEq, Repr

/-- `contexts` are the objects allocated so far, by address; `aborted` is set by a failed
`AZURE_ASSERT`. -/
structure EventTable (S C τ : Type) where
  contexts : List (FdContext S C) := []
  fdContexts : List CtxAddr := []
  pendingEventCount : Int := 0
  caller : τ → Caller S C := fun _ => .out
  aborted : Bool := false

inductive TableOp (S C τ : Type) where
  /-- the thread calls, up to the release of the read lock -/
  | call (t : τ) (call : IoCall S C)
  /-- the section of `addEvent` under the write lock -/
  | resize (t : τ)
  /-- the section under the mutex of the context; `ok` is what `epoll_ctl` comes to -/
  | lock (t : τ) (ok : Bool)
  /-- `epoll_wait` returns -/
  | epollWait (t : τ) (reports : List (CtxAddr × EpollEvents))
  /-- `idle` goes on to the next report -/
  | dispatch (t : τ) (ok : Bool)
  deriving DecidableEq, Repr

structure TableEffect (S C : Type) where
  ret : Option Bool := none
  ctl : Option EpollCtl := none
  scheduled : List (S × FiberOrCb C) := []
  deriving DecidableEq, Repr

end Context

namespace EventTable

variable {S C τ : Type} [DecidableEq τ]

/-- `contextResize`: a longer table gets new contexts, a shorter one forgets the rest. -/
def contextResize (s : EventTable S C τ) (size : Nat) : EventTable S C τ :=
  let old := s.fdContexts.take size
  let added := size - old.length
  { s with
    contexts := s.contexts ++ (List.range' old.length added).map fun i => { fd := i }
    fdContexts := old ++ List.range' s.contexts.length added }

def new : EventTable S C τ := ({} : EventTable S C τ).contextResize 32

/-- `m_fdContexts[fd]`; there is nothing behind an index outside of the vector. -/
def fdContext (s : EventTable S C τ) (fd : Int) : Option CtxAddr :=
  if fd < 0 then none else s.fdContexts[fd.toNat]?

def setCaller (s : EventTable S C τ) (t : τ) (c : Caller S C) : EventTable S C τ :=
  { s with caller := Function.update s.caller t c }

def lockOf (s : EventTable S C τ) (t : τ) (call : IoCall S C) :
    Option (TableEffect S C × EventTable S C τ) :=
  (s.fdContext call.fd).map fun ctx => ({}, s.setCaller t (.lock call ctx))

def find (s : EventTable S C τ) (t : τ) (call : IoCall S C) :
    Option (TableEffect S C × EventTable S C τ) :=
  if call.fd < s.fdContexts.length then s.lockOf t call
  else
    match call with
    | .addEvent .. => some ({}, s.setCaller t (.resize call))
    | _ => some ({ ret := some false }, s)

def leave (s : EventTable S C τ) (t : τ) (ctx : CtxAddr) (next : Caller S C)
    (ret : Section S C → Option Bool) (r : Option (Section S C)) :
    TableEffect S C × EventTable S C τ :=
  match r with
  | none => ({}, { s with aborted := true })
  | some r =>
    ({ ret := ret r, ctl := r.ctl, scheduled := r.scheduled },
      { s with
        contexts := s.contexts.set ctx r.ctx
        pendingEventCount := s.pendingEventCount + r.count }.setCaller t next)

def act (s : EventTable S C τ) (op : TableOp S C τ) : Option (TableEffect S C × EventTable S C τ) :=
  if s.aborted then none
  else
    match op with
    | .call t call =>
      match s.caller t with
      | .out => s.find t call
      | _ => none
    | .resize t =>
      match s.caller t with
      | .resize call => (s.contextResize (call.fd * 3 / 2).toNat).lockOf t call
      | _ => none
    | .lock t ok =>
      match s.caller t with
      | .lock call a =>
        s.contexts[a]?.map fun ctx =>
          s.leave t a .out (fun r => some r.ret) (call.locked ctx ok)
      | _ => none
    | .epollWait t reports =>
      match s.caller t with
      | .out => some ({}, s.setCaller t (.dispatch reports))
      | _ => none
    | .dispatch t ok =>
      match s.caller t with
      | .dispatch [] => some ({}, s.setCaller t .out)
      | .dispatch ((a, ev) :: rest) =>
        s.contexts[a]?.map fun ctx =>
          s.leave t a (.dispatch rest) (fun _ => none) (ctx.dispatch ev ok)
      | _ => none

abbrev Event (S C τ : Type) := TableOp S C τ × TableEffect S C

def Step (s : EventTable S C τ) (e : Event S C τ) (s' : EventTable S C τ) : Prop :=
  s.act e.1 = some (e.2, s')

end EventTable

end Azure
