import Azure.Hook.BlockingMoves

/-!
# `connect_with_timeout` (`hook.cpp`)

A hooked `connect` begins a connection in the kernel and waits for it as `do_io` waits for data: with
a timer, a registration for `WRITE` and `YieldToHold`.  What ends the wait is asked afterwards, from
the flag of the timer and from `SO_ERROR`.  Everybody else takes the steps of `BlockingAction`; the
kernel completes a connection or fails it when it likes.
-/

namespace Azure

open Reasoning

def EINPROGRESS : Int := 115

/-- What has become of the connection last begun on a number. -/
inductive Conn where
  | idle
  | inProgress
  | connected
  /-- with the error that is pending -/
  | failed (error : { e : Int // e ≠ 0 })
  deriving DecidableEq, Repr

namespace Conn

/-- `SO_ERROR`; there is no error while the connection is in progress. -/
def soError : Conn → Int
  | failed error => error
  | _ => 0

def taken : Conn → Conn
  | failed _ => idle
  | c => c

end Conn

inductive ConnectPc where
  | out
  /-- before a call of `connect_f` whose result is returned as it is -/
  | direct (fd : Int)
  /-- before `connect_f` on a managed socket in blocking mode -/
  | connect (fd : Int) (ctx : FdCtxAddr) (timeout : UInt64)
  /-- behind `EINPROGRESS`, up to the test of `tinfo->cancelled`; where is said by `HookPc` -/
  | wait
  /-- before `getsockopt` -/
  | getError
  deriving DecidableEq, Repr

/-- `attempts` counts the connections begun on each number.  `began` is read by no step: it keeps
the connection that the last `connect_f` of each fiber has begun. -/
structure Connects (ω : Type) where
  hooks : Hooks ω
  conn : Int → Conn := fun _ => .idle
  attempts : Int → Nat := fun _ => 0
  connect : FiberId → ConnectPc := fun _ => .out
  began : FiberId → Option (Int × Nat) := fun _ => none

inductive ConnectAction (ω : Type) where
  | call (f : FiberId) (fd : Int) (timeout : UInt64) (hooked : Bool)
  | step (f : FiberId) (input : HookInput)
  /-- another hooked call, a timer, the dispatch of events, a thread that cancels events -/
  | other (a : BlockingAction ω)
  /-- the kernel -/
  | complete (fd : Int)
  | fail (fd : Int) (error : { e : Int // e ≠ 0 })
  /-- somebody else reads `SO_ERROR` -/
  | takeError (fd : Int)
  deriving DecidableEq, Repr

def BlockingAction.fiber? {ω : Type} : BlockingAction ω → Option FiberId
  | .hook a => Hooks.fiberOf a
  | _ => none

namespace Connects

variable {ω : Type} [DecidableEq ω]

def new (now : UInt64) : Connects ω := { hooks := .new now }

def goto (s : Connects ω) (f : FiberId) (pc : ConnectPc) : Connects ω :=
  { s with connect := Function.update s.connect f pc }

def leave (s : Connects ω) (f : FiberId) (ret errno : Int) : HookEffect × Connects ω :=
  ({ ret := some (ret, errno) }, s.goto f .out)

def finish (s : Connects ω) (f : FiberId) (io : DoIo) (ret errno : Int) :
    HookEffect × Connects ω :=
  { s with hooks := (s.hooks.drop io).goto f .out }.leave f ret errno

def begins (s : Connects ω) (f : FiberId) (fd : Int) (c : Conn) : Connects ω :=
  { s with
    conn := Function.update s.conn fd c
    attempts := Function.update s.attempts fd (s.attempts fd + 1)
    began := Function.update s.began f (some (fd, s.attempts fd + 1)) }

def connectf (s : Connects ω) (f : FiberId) (fd : Int) (i : HookInput) : Option (Connects ω) :=
  if !s.hooks.kernel.isOpen fd then if i.ret = -1 ∧ i.errno = EBADF then some s else none
  else if i.ret = 0 then
    if s.conn fd = .inProgress then none else some (s.begins f fd .connected)
  else if i.ret ≠ -1 then none
  -- a connection also goes on behind a signal
  else if i.errno = EINPROGRESS ∨ i.errno = EINTR then
    if s.conn fd = .inProgress ∨ s.conn fd = .connected then none
    else some (s.begins f fd .inProgress)
  else some { s with conn := Function.update s.conn fd (s.conn fd).taken }

def call (s : Connects ω) (f : FiberId) (fd : Int) (timeout : UInt64) (hooked : Bool) :
    Option (HookEffect × Connects ω) :=
  if !hooked then some ({}, s.goto f (.direct fd))
  else
    match s.hooks.fds.find fd false with
    | none => none
    | some (.ctx a) =>
      match s.hooks.fds.ctxs[a]? with
      | none => none
      | some ctx =>
        if ctx.isClosed then some (s.leave f (-1) EBADF)
        else if !ctx.isSocket || ctx.userNonblock then some ({}, s.goto f (.direct fd))
        else some ({}, s.goto f (.connect fd a timeout))
    | some _ => some (s.leave f (-1) EBADF)

def stepWait (s : Connects ω) (f : FiberId) (i : HookInput) :
    Option (HookEffect × Connects ω) :=
  match s.hooks.fiber f with
  -- these are as in `do_io`
  | .arm _ | .waiting .. | .woken .. =>
    (s.hooks.step f i).map fun r => ({}, { s with hooks := r.2 })
  | .addEvent io timer =>
    (s.hooks.actTable
      (s.hooks.tableOp f (.addEvent io.fd io.fn.event none (some ()) f) i.ok)).bind fun r =>
        match r.1 with
        | none => some ({}, { s with hooks := r.2 })
        | some true => some ({}, { s with hooks := r.2.goto f (.waiting io timer) })
        -- a registration that fails is no reason to give up
        | some false => (r.2.cancelTimer timer).map fun hooks =>
          ({}, { s with hooks := hooks.goto f (.check io) }.goto f .getError)
  | .check io =>
    match s.hooks.tinfos[io.tinfo]? with
    | none => none
    | some tinfo =>
      some (if tinfo.cancelled ≠ 0 then s.finish f io (-1) tinfo.cancelled
        else ({}, s.goto f .getError))
  | _ => none

def step (s : Connects ω) (f : FiberId) (i : HookInput) : Option (HookEffect × Connects ω) :=
  match s.connect f with
  | .out => none
  | .direct fd => (s.connectf f fd i).map fun s => s.leave f i.ret i.errno
  | .connect fd ctx timeout =>
    (s.connectf f fd i).map fun s =>
      if i.ret = -1 ∧ i.errno = EINPROGRESS then
        -- the event of `write` is `WRITE`
        let io : DoIo := { fn := .write, fd, ctx, timeout, tinfo := s.hooks.tinfos.length }
        ({}, { s with
          hooks := { s.hooks with tinfos := s.hooks.tinfos ++ [({} : TimerInfo)] }.goto f
            (.arm io) }.goto f .wait)
      else s.leave f i.ret i.errno
  | .wait => s.stepWait f i
  | .getError =>
    match s.hooks.fiber f with
    | .check io =>
      some (if !s.hooks.kernel.isOpen io.fd then s.finish f io (-1) EBADF
        else
          let error := (s.conn io.fd).soError
          let s := { s with conn := Function.update s.conn io.fd (s.conn io.fd).taken }
          if error = 0 then s.finish f io 0 0 else s.finish f io (-1) error)
    | _ => none

/-- Somebody else has taken a step of the hooks; the connection of a number that is closed is gone. -/
def after (s : Connects ω) (hooks : Hooks ω) : Connects ω :=
  { s with hooks, conn := fun n => if hooks.kernel.isOpen n then s.conn n else .idle }

def act (s : Connects ω) (a : ConnectAction ω) : Option (HookEffect × Connects ω) :=
  if s.hooks.table.aborted then none
  else
    match a with
    | .call f fd timeout hooked =>
      match s.connect f, s.hooks.fiber f with
      | .out, .out => s.call f fd timeout hooked
      | _, _ => none
    | .step f i => s.step f i
    | .other a =>
      -- a fiber in `connect` is in no other call
      if a.fiber?.all fun f => s.connect f = .out then
        (s.hooks.actBlocking a).map fun r => (r.1, s.after r.2)
      else none
    | .complete fd =>
      if s.conn fd = .inProgress then
        some ({}, { s with conn := Function.update s.conn fd .connected })
      else none
    | .fail fd error =>
      if s.conn fd = .inProgress then
        some ({}, { s with conn := Function.update s.conn fd (.failed error) })
      else none
    | .takeError fd => some ({}, { s with conn := Function.update s.conn fd (s.conn fd).taken })

abbrev Event (ω : Type) := ConnectAction ω × HookEffect

def Step (s : Connects ω) (e : Event ω) (s' : Connects ω) : Prop := s.act e.1 = some (e.2, s')

/-! ## What can go wrong -/

/-- The connection that the fiber has begun is the last one on its number, and this has become of
it. -/
def Has (s : Connects ω) (f : FiberId) (c : Conn) : Prop :=
  ∃ fd n, s.began f = some (fd, n) ∧ s.attempts fd = n ∧ s.conn fd = c

/-- The timer of the call has gone off. -/
def TimedOut (s : Connects ω) (f : FiberId) : Prop :=
  ∃ k t, (s.hooks.fiber f).tinfo? = some k ∧ s.hooks.tinfos[k]? = some t ∧ t.cancelled ≠ 0

def Wakes (s : Connects ω) (a : ConnectAction ω) (f : FiberId) : Prop :=
  s.hooks.woken f = false ∧ ∃ e s', s.act a = some (e, s') ∧ s'.hooks.woken f = true

structure Undisturbed (s : Connects ω) (a : ConnectAction ω) : Prop where
  /-- while the connection is in progress, a fiber is woken only on behalf of its own timer -/
  wakes : ∀ f, s.connect f = .wait → s.Has f .inProgress → s.Wakes a f → s.TimedOut f
  /-- and its `epoll_ctl` succeeds -/
  registers : ∀ f i io timer, a = .step f i → s.connect f = .wait →
    s.hooks.fiber f = .addEvent io timer → s.Has f .inProgress → i.ok = true
  /-- the connection that is asked for is still the last on its number, and nobody has taken its
  error -/
  asks : ∀ f i fd n, a = .step f i → s.connect f = .getError → s.began f = some (fd, n) →
    s.hooks.kernel.isOpen fd = true → ∃ c, s.Has f c ∧ c ≠ .idle

/-- The steps under which a `connect` that waits is left alone. -/
abbrev QuietStep : Connects ω → Event ω → Connects ω → Prop :=
  Guarded (fun s e => s.Undisturbed e.1) Step

end Connects

end Azure
