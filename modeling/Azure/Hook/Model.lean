import Azure.Hook.Descriptors
import Azure.IOManager.Events
import Azure.Timer.Model

/-!
# Hooked calls (`hook.cpp`)

Fibers make hooked calls, and one step takes one fiber to its next access to something that others
see: the kernel's descriptor table, `FdManager`, the event table, the timers, a `timer_info`.  What
the kernel answers is part of the label.  Which fiber runs is open: a fiber in `YieldToHold` needs a
trigger of its event, any other fiber inside a call can take the next step.
-/

namespace Azure

/-- The functions that go through `do_io`. -/
inductive IoFun where
  | accept
  | read
  | readv
  | recv
  | recvfrom
  | recvmsg
  | write
  | writev
  | send
  | sendto
  | sendmsg
  deriving DecidableEq, Repr

namespace IoFun

def event : IoFun → IoEvent
  | accept | read | readv | recv | recvfrom | recvmsg => .read
  | write | writev | send | sendto | sendmsg => .write

def timeoutSo : IoFun → SoTimeout
  | accept | read | readv | recv | recvfrom | recvmsg => .rcvtimeo
  | write | writev | send | sendto | sendmsg => .sndtimeo

end IoFun

-- the values of `errno` that the hooks look at or set
def EINTR : Int := 4
def EBADF : Int := 9
def EAGAIN : Int := 11
def ETIMEDOUT : Int := 110

/-- `timer_info`; `alive` while a call owns it. -/
structure TimerInfo where
  cancelled : Int := 0
  alive : Bool := true
  deriving DecidableEq, Repr

/-- What a call of `do_io` has in its frame when it may wait; `retry` behind the first
`goto retry`. -/
structure DoIo where
  fn : IoFun
  fd : Int
  ctx : FdCtxAddr
  timeout : UInt64
  tinfo : Nat
  retry : Bool := false
  deriving DecidableEq, Repr

/-- What the lambda of `addConditionTimer` captures. -/
structure Timeout where
  tinfo : Nat
  fd : Int
  event : IoEvent
  deriving DecidableEq, Repr

inductive HookPc where
  | out
  /-- before a call of `fun` whose result is returned as it is -/
  | direct (fn : IoFun) (fd : Int)
  /-- at `retry`, before a call of `fun` -/
  | attempt (io : DoIo)
  /-- behind `EAGAIN` -/
  | arm (io : DoIo)
  /-- in `addEvent` -/
  | addEvent (io : DoIo) (timer : Option Addr)
  /-- in `YieldToHold` -/
  | waiting (io : DoIo) (timer : Option Addr)
  /-- behind `YieldToHold` -/
  | woken (io : DoIo) (timer : Option Addr)
  /-- before the test of `tinfo->cancelled` -/
  | check (io : DoIo)
  /-- before `socket_f` -/
  | socket (hooked : Bool)
  /-- in `get(fd, true)`, before the read lock -/
  | adopt (fd : Int)
  /-- in `get(fd, true)`, before the write lock -/
  | create (fd : Int)
  /-- in `close`, in `cancelAll` -/
  | cancelAll (fd : Int)
  /-- in `close`, before `FdManager::del` -/
  | del (fd : Int)
  /-- before `close_f` -/
  | close (fd : Int)
  /-- in the lambda of a timer, in `cancelEvent` -/
  | cancelEvent (fd : Int) (event : IoEvent)
  deriving DecidableEq, Repr

abbrev HookThread (ω : Type) := FiberId ⊕ ω

/-- `expired` are the callbacks that have been collected and scheduled.  `removed` is read by no
step: it keeps the generations of the numbers as they were when `close` removed an object. -/
structure Hooks (ω : Type) where
  kernel : Kernel := {}
  fds : FdManager := {}
  table : EventTable Unit Unit (HookThread ω) := .new
  timers : TimerManager Timeout Nat
  tinfos : List TimerInfo := []
  fiber : FiberId → HookPc := fun _ => .out
  woken : FiberId → Bool := fun _ => false
  expired : List (Callback Timeout Nat) := []
  removed : FdCtxAddr → Option (Int → Nat) := fun _ => none

/-- A hooked function is called, on a thread with or without `t_hook_enable`. -/
inductive HookCall where
  | io (fn : IoFun) (fd : Int)
  | socket
  | close (fd : Int)
  | setsockopt (fd : Int) (type : SoTimeout) (ms : UInt64)
  | fcntlSetfl (fd : Int) (nonblock : Bool)
  deriving DecidableEq, Repr

structure HookInput where
  ret : Int := 0
  errno : Int := 0
  ok : Bool := true
  timer : Addr := 0
  now : UInt64 := 0
  deriving DecidableEq, Repr

inductive HookAction (ω : Type) where
  | call (f : FiberId) (call : HookCall) (hooked : Bool)
  | step (f : FiberId) (input : HookInput)
  /-- a callback fiber runs the collected callback at `i` -/
  | timeout (f : FiberId) (i : Nat)
  /-- `listExpiredCb` and `schedule` -/
  | expire (nowTimer : Addr) (now : UInt64)
  | epollWait (w : ω) (reports : List (CtxAddr × EpollEvents))
  | dispatch (w : ω) (ok : Bool)
  deriving DecidableEq, Repr

structure HookEffect where
  syscall : Option Int := none
  ret : Option (Int × Int) := none
  deriving DecidableEq, Repr

namespace Hooks

variable {ω : Type} [DecidableEq ω]

def new (now : UInt64) : Hooks ω := { timers := .new now }

def goto (s : Hooks ω) (f : FiberId) (pc : HookPc) : Hooks ω :=
  { s with fiber := Function.update s.fiber f pc }

def leave (s : Hooks ω) (f : FiberId) (ret errno : Int) : HookEffect × Hooks ω :=
  ({ ret := some (ret, errno) }, s.goto f .out)

def drop (s : Hooks ω) (io : DoIo) : Hooks ω :=
  { s with tinfos := s.tinfos.modify io.tinfo fun t => { t with alive := false } }

/-- What the kernel can answer to `fun(fd, ...)`; `accept` hands out a number. -/
def syscall (k : Kernel) (fn : IoFun) (fd : Int) (i : HookInput) : Option Kernel :=
  -- a closed number can only fail, and with `EBADF`
  if i.ret = -1 then if !k.isOpen fd && i.errno ≠ EBADF then none else some k
  else if !k.isOpen fd || i.ret < 0 then none
  else if fn = .accept then if k.isOpen i.ret then none else some (k.handOut i.ret)
  else some k

/-- The result of `fun` is the result of the call; `accept` makes a context for the new number. -/
def finish (s : Hooks ω) (f : FiberId) (fn : IoFun) (fd : Int) (i : HookInput) :
    HookEffect × Hooks ω :=
  if fn = .accept ∧ 0 ≤ i.ret then ({ syscall := some fd }, s.goto f (.adopt i.ret))
  else ({ syscall := some fd, ret := some (i.ret, i.errno) }, s.goto f .out)

def wake (s : Hooks ω) (scheduled : List (Unit × FiberOrCb Unit)) : Hooks ω :=
  { s with
    woken := scheduled.foldl (fun woken p =>
      match p.2 with
      | .fiber (some g) => Function.update woken g true
      | _ => woken) s.woken }

def actTable (s : Hooks ω) (op : TableOp Unit Unit (HookThread ω)) :
    Option (Option Bool × Hooks ω) :=
  (s.table.act op).map fun r => (r.1.ret, { s with table := r.2 }.wake r.1.scheduled)

def tableOp (s : Hooks ω) (f : FiberId) (call : IoCall Unit Unit) (ok : Bool) :
    TableOp Unit Unit (HookThread ω) :=
  match s.table.caller (.inl f) with
  -- the call goes on where the thread is in it
  | .resize _ => .resize (.inl f)
  | .lock .. => .lock (.inl f) ok
  | _ => .call (.inl f) call

def cancelTimer (s : Hooks ω) : Option Addr → Option (Hooks ω)
  | none => some s
  | some a => (s.timers.call (.cancel a)).map fun r => { s with timers := r.2 }

/-- A hooked function up to its first access that can wait or that others see. -/
def call (s : Hooks ω) (f : FiberId) (hooked : Bool) :
    HookCall → Option (HookEffect × Hooks ω)
  | .io fn fd =>
    if !hooked then some ({}, s.goto f (.direct fn fd))
    else
      match s.fds.find fd false with
      | none => none
      | some (.ctx a) =>
        match s.fds.ctxs[a]? with
        | none => none
        -- in the order of the tests of `do_io`
        | some ctx =>
          if ctx.isClosed then some (s.leave f (-1) EBADF)
          else if !ctx.isSocket || ctx.userNonblock then some ({}, s.goto f (.direct fn fd))
          else
            let io := {
              fn, fd, ctx := a, timeout := ctx.getTimeout fn.timeoutSo, tinfo := s.tinfos.length }
            some ({}, { s with tinfos := s.tinfos ++ [({} : TimerInfo)] }.goto f (.attempt io))
      | some _ => some ({}, s.goto f (.direct fn fd))
  | .socket => some ({}, s.goto f (.socket hooked))
  | .close fd =>
    if !hooked then some ({}, s.goto f (.close fd))
    else
      match s.fds.find fd false with
      | none => none
      | some (.ctx _) => some ({}, s.goto f (.cancelAll fd))
      | some _ => some ({}, s.goto f (.close fd))
  -- the option itself reaches the kernel in any case, and nothing here depends on it
  | .setsockopt fd type ms =>
    if !hooked then some (s.leave f 0 0)
    else
      match s.fds.find fd false with
      | none => none
      | some (.ctx a) =>
        some ({ s with fds := s.fds.update a fun ctx => ctx.setTimeout type ms }.leave f 0 0)
      | some _ => some (s.leave f 0 0)
  | .fcntlSetfl fd nonblock =>
    match s.fds.find fd false with
    | none => none
    | some (.ctx a) =>
      match s.fds.ctxs[a]? with
      | none => none
      | some ctx =>
        -- no context of a socket: the flags go to the kernel as they are
        if ctx.isClosed || !ctx.isSocket then
          some ({ s with kernel := s.kernel.setNonblock fd nonblock }.leave f 0 0)
        else
          some ({ s with
            fds := s.fds.update a fun ctx => { ctx with userNonblock := nonblock }
            kernel := s.kernel.setNonblock fd ctx.sysNonblock }.leave f 0 0)
    | some _ => some ({ s with kernel := s.kernel.setNonblock fd nonblock }.leave f 0 0)

def step (s : Hooks ω) (f : FiberId) (i : HookInput) : Option (HookEffect × Hooks ω) :=
  match s.fiber f with
  | .out => none
  | .direct fn fd =>
    (syscall s.kernel fn fd i).map fun kernel => { s with kernel }.finish f fn fd i
  | .attempt io =>
    (syscall s.kernel io.fn io.fd i).map fun kernel =>
      let s := { s with kernel }
      -- interrupted: once more from where it is
      if i.ret = -1 ∧ i.errno = EINTR then ({ syscall := some io.fd }, s)
      else if i.ret = -1 ∧ i.errno = EAGAIN then ({ syscall := some io.fd }, s.goto f (.arm io))
      else (s.drop io).finish f io.fn io.fd i
  | .arm io =>
    -- `~0ull` stands for no timeout
    if io.timeout = ~~~0 then some ({}, s.goto f (.addEvent io none))
    else
      let fn : Timeout := { tinfo := io.tinfo, fd := io.fd, event := io.fn.event }
      (s.timers.call
        (.addConditionTimer i.timer io.timeout (some fn) io.tinfo false i.now)).map fun r =>
          ({}, { s with timers := r.2 }.goto f (.addEvent io (some i.timer)))
  | .addEvent io timer =>
    (s.actTable (s.tableOp f (.addEvent io.fd io.fn.event none (some ()) f) i.ok)).bind fun r =>
      -- the registration goes on, has succeeded, or has failed
      match r.1 with
      | none => some ({}, r.2)
      | some true => some ({}, r.2.goto f (.waiting io timer))
      | some false => (r.2.cancelTimer timer).map fun s => (s.drop io).leave f (-1) i.errno
  | .waiting io timer =>
    if s.woken f then
      some ({}, { s with woken := Function.update s.woken f false }.goto f (.woken io timer))
    else none
  | .woken io timer => (s.cancelTimer timer).map fun s => ({}, s.goto f (.check io))
  | .check io =>
    match s.tinfos[io.tinfo]? with
    | none => none
    | some tinfo =>
      -- the timer came first
      if tinfo.cancelled ≠ 0 then some ((s.drop io).leave f (-1) tinfo.cancelled)
      else some ({}, s.goto f (.attempt { io with retry := true }))
  | .socket hooked =>
    if i.ret < 0 then some (s.leave f (-1) i.errno)
    else if s.kernel.isOpen i.ret then none
    else
      let s := { s with kernel := s.kernel.handOut i.ret }
      some (if hooked then ({}, s.goto f (.adopt i.ret)) else s.leave f i.ret 0)
  | .adopt fd =>
    match s.fds.find fd true with
    | none => none
    -- somebody else may create the object in between
    | some .missing => some ({}, s.goto f (.create fd))
    | some _ => some (s.leave f fd 0)
  | .create fd =>
    let (ctx, kernel) := FdCtx.init s.kernel fd
    some ({ s with kernel, fds := s.fds.create ctx fd }.leave f fd 0)
  | .cancelAll fd =>
    (s.actTable (s.tableOp f (.cancelAll fd) i.ok)).map fun r =>
      ({}, if r.1.isSome then r.2.goto f (.del fd) else r.2)
  | .del fd =>
    (s.fds.del fd).map fun fds =>
      let removed :=
        match s.fds.at? fd with
        | some a =>
          Function.update s.removed a ((s.removed a).or (some s.kernel.generation))
        | none => s.removed
      ({}, { s with fds, removed }.goto f (.close fd))
  | .close fd =>
    some (if s.kernel.isOpen fd then { s with kernel := s.kernel.free fd }.leave f 0 0
      else s.leave f (-1) EBADF)
  | .cancelEvent fd event =>
    (s.actTable (s.tableOp f (.cancelEvent fd event) i.ok)).map fun r =>
      ({}, if r.1.isSome then r.2.goto f .out else r.2)

/-- A callback fiber runs a collected callback: `OnTimer` locks the condition, and the lambda stores
`ETIMEDOUT` unless it is too late. -/
def timeout (s : Hooks ω) (f : FiberId) (i : Nat) : Option (HookEffect × Hooks ω) :=
  match s.expired[i]? with
  | none => none
  | some cb =>
    let s := { s with expired := s.expired.eraseIdx i }
    -- a call that is over has let go of its `timer_info`
    match cb.run fun t => (s.tinfos[t]?.map TimerInfo.alive).getD false with
    | none => some ({}, s)
    | some fn =>
      match s.tinfos[fn.tinfo]? with
      | none => none
      | some tinfo =>
        if !tinfo.alive || tinfo.cancelled ≠ 0 then some ({}, s)
        else
          some ({},
            { s with tinfos := s.tinfos.set fn.tinfo { tinfo with cancelled := ETIMEDOUT } }.goto f
              (.cancelEvent fn.fd fn.event))

def act (s : Hooks ω) (a : HookAction ω) : Option (HookEffect × Hooks ω) :=
  if s.table.aborted then none
  else
    match a with
    | .call f c hooked =>
      match s.fiber f with
      | .out => s.call f hooked c
      | _ => none
    | .step f i => s.step f i
    | .timeout f i =>
      match s.fiber f with
      | .out => s.timeout f i
      | _ => none
    | .expire nowTimer now =>
      (s.timers.call (.listExpiredCb nowTimer now)).map fun r =>
        -- `schedule` drops null functions
        ({}, { s with timers := r.2, expired := s.expired ++ r.1.collected.filterMap Prod.snd })
    | .epollWait w reports =>
      (s.actTable (.epollWait (.inr w) reports)).map fun r => ({}, r.2)
    | .dispatch w ok => (s.actTable (.dispatch (.inr w) ok)).map fun r => ({}, r.2)

abbrev Event (ω : Type) := HookAction ω × HookEffect

def Step (s : Hooks ω) (e : Event ω) (s' : Hooks ω) : Prop := s.act e.1 = some (e.2, s')

end Hooks

end Azure
