import Azure.Hook.Connect

/-!
# What a step can do to `connect_with_timeout`

`Move` lists what a step of anybody comes to: what it leaves of the connections, which places the
fiber goes to, and what it returns.
-/

namespace Azure

open Reasoning

namespace Connects

variable {ω : Type}

/-! ## Connections -/

structure Ages (s s' : Connects ω) : Prop where
  attempts : ∀ n, s.attempts n ≤ s'.attempts n
  conn : ∀ n, s'.conn n = .inProgress → s'.attempts n = s.attempts n → s.conn n = .inProgress

theorem Ages.has {s s' : Connects ω} (h : Ages s s') {f : FiberId} {fd : Int} {n : Nat}
    (hbegan : s.began f = some (fd, n)) (hle : n ≤ s.attempts fd)
    (hsame : s'.began f = s.began f) (hhas : s'.Has f .inProgress) : s.Has f .inProgress := by
  obtain ⟨fd', n', hbegan', hattempts, hconn⟩ := hhas
  rw [hsame, hbegan] at hbegan'
  cases hbegan'
  have hmore := h.attempts fd
  have heq : s'.attempts fd = s.attempts fd := by omega
  exact ⟨fd, n, hbegan, by omega, h.conn fd hconn heq⟩

/-- The connections but for one are as they were, and that one is not in progress. -/
theorem ages_of_conn {s s' : Connects ω} (hattempts : s'.attempts = s.attempts)
    (hconn : ∀ n, s'.conn n = .inProgress → s.conn n = .inProgress) : Ages s s' where
  attempts := fun n => by rw [hattempts]
  conn := fun n h _ => hconn n h

theorem taken_inProgress {c : Conn} (h : c.taken = .inProgress) : c = .inProgress := by
  cases c with
  | failed error => cases h
  | _ => exact h

/-- What becomes of the connection of a single number. -/
theorem conn_of_update {s : Connects ω} {fd : Int} {c : Conn}
    (hc : c = .inProgress → s.conn fd = .inProgress) (n : Int)
    (h : Function.update s.conn fd c n = .inProgress) : s.conn n = .inProgress := by
  by_cases hn : n = fd
  · subst hn
    rw [Function.update_self] at h
    exact hc h
  · rw [Function.update_of_ne hn] at h
    exact h

theorem ages_begins (s : Connects ω) (f : FiberId) (fd : Int) (c : Conn) :
    Ages s (s.begins f fd c) where
  attempts := fun n => by
    show _ ≤ Function.update s.attempts fd (s.attempts fd + 1) n
    by_cases hn : n = fd
    · subst hn
      rw [Function.update_self]
      exact Nat.le_succ _
    · rw [Function.update_of_ne hn]
  conn := fun n h heq => by
    change Function.update s.conn fd c n = _ at h
    change Function.update s.attempts fd (s.attempts fd + 1) n = _ at heq
    by_cases hn : n = fd
    · subst hn
      rw [Function.update_self] at heq
      omega
    · rw [Function.update_of_ne hn] at h
      exact h

structure Frame (s : Connects ω) (f : FiberId) (t : Connects ω) : Prop where
  hooks : t.hooks = s.hooks
  connect : t.connect = s.connect
  began : ∀ g, g ≠ f → t.began g = s.began g
  ages : Ages s t

theorem frame_refl (s : Connects ω) (f : FiberId) : Frame s f s :=
  ⟨rfl, rfl, fun _ _ => rfl, ages_of_conn rfl fun _ h => h⟩

structure Called (s : Connects ω) (f : FiberId) (fd : Int) (i : HookInput) (t : Connects ω) :
    Prop extends Frame s f t where
  connected : i.ret = 0 → t.Has f .connected
  inProgress : i.ret = -1 → i.errno = EINPROGRESS →
    t.began f = some (fd, t.attempts fd)

theorem called_begins (s : Connects ω) {f : FiberId} {fd : Int} {i : HookInput} {c : Conn}
    (hc : i.ret = 0 → c = .connected) : Called s f fd i (s.begins f fd c) where
  hooks := rfl
  connect := rfl
  began := fun _ hg => Function.update_of_ne hg ..
  ages := ages_begins s f fd c
  connected := fun hret =>
    ⟨fd, s.attempts fd + 1, Function.update_self .., Function.update_self ..,
      (Function.update_self ..).trans (hc hret)⟩
  inProgress := fun _ _ => by
    show Function.update s.began f _ f = some (fd, Function.update s.attempts fd _ fd)
    rw [Function.update_self, Function.update_self]

theorem called_of_connectf {s t : Connects ω} {f : FiberId} {fd : Int} {i : HookInput}
    (h : s.connectf f fd i = some t) : Called s f fd i t := by
  unfold connectf at h
  split at h
  · split at h
    · next hclosed =>
      cases h
      refine ⟨frame_refl s f, fun hret => ?_, fun _ herrno => ?_⟩
      · rw [hclosed.1] at hret
        cases hret
      · rw [hclosed.2] at herrno
        cases herrno
    · cases h
  split at h
  · split at h
    · cases h
    · cases h
      exact called_begins s fun _ => rfl
  next hret =>
  split at h
  · cases h
  split at h
  · split at h
    · cases h
    · cases h
      exact called_begins s fun hzero => absurd hzero hret
  · next herrno =>
    cases h
    have hages : Ages s { s with conn := Function.update s.conn fd (s.conn fd).taken } :=
      ages_of_conn rfl (conn_of_update taken_inProgress)
    exact ⟨⟨rfl, rfl, fun _ _ => rfl, hages⟩, fun hzero => absurd hzero hret,
      fun _ hprogress => absurd (.inl hprogress) herrno⟩

/-! ## Moves -/

def fiberOf : ConnectAction ω → Option FiberId
  | .call f .. | .step f _ => some f
  | _ => none

variable [DecidableEq ω]

inductive Move (s : Connects ω) : ConnectAction ω → HookEffect → Connects ω → Prop
  /-- to a place outside of the wait; what is returned is what `connect_f` has answered -/
  | aside {a : ConnectAction ω} {e : HookEffect} {f : FiberId} {t : Connects ω} {pc : ConnectPc}
      (hf : fiberOf a = some f) (hframe : Frame s f t) (hwait : pc ≠ .wait)
      (herror : pc ≠ .getError)
      (hidle : ∀ fd ctx timeout, pc = .connect fd ctx timeout → s.hooks.fiber f = .out)
      (hret : ∀ errno, e.ret = some (0, errno) → t.Has f .connected) :
      Move s a e (t.goto f pc)
  | begin {f : FiberId} {fd : Int} {ctx : FdCtxAddr} {timeout : UInt64} {i : HookInput}
      {t : Connects ω} {io : DoIo} (hpc : s.connect f = .connect fd ctx timeout)
      (hframe : Frame s f t) (hbegan : t.began f = some (fd, t.attempts fd)) (hfd : io.fd = fd) :
      Move s (.step f i) {} ({ t with
        hooks := { t.hooks with tinfos := t.hooks.tinfos ++ [({} : TimerInfo)] }.goto f
          (.arm io) }.goto f .wait)
  /-- at a place that `connect_with_timeout` shares with `do_io` -/
  | shared {f : FiberId} {i : HookInput} {e : HookEffect} {hooks : Hooks ω} {io : DoIo}
      (hwait : s.connect f = .wait)
      (hpc : s.hooks.fiber f = .arm io ∨
        ∃ timer, s.hooks.fiber f = .waiting io timer ∨ s.hooks.fiber f = .woken io timer)
      (hstep : s.hooks.step f i = some (e, hooks)) : Move s (.step f i) {} { s with hooks }
  /-- inside `addEvent` -/
  | calling {f : FiberId} {i : HookInput} {io : DoIo} {timer : Option Addr} {hooks : Hooks ω}
      (hwait : s.connect f = .wait) (hpc : s.hooks.fiber f = .addEvent io timer)
      (hact : s.hooks.actTable (s.hooks.tableOp f
        (.addEvent io.fd io.fn.event none (some ()) f) i.ok) = some (none, hooks)) :
      Move s (.step f i) {} { s with hooks }
  | registered {f : FiberId} {i : HookInput} {io : DoIo} {timer : Option Addr} {hooks : Hooks ω}
      (hwait : s.connect f = .wait) (hpc : s.hooks.fiber f = .addEvent io timer)
      (hact : s.hooks.actTable (s.hooks.tableOp f
        (.addEvent io.fd io.fn.event none (some ()) f) i.ok) = some (some true, hooks)) :
      Move s (.step f i) {} { s with hooks := hooks.goto f (.waiting io timer) }
  | refused {f : FiberId} {i : HookInput} {io : DoIo} {timer : Option Addr} {hooks u : Hooks ω}
      (hwait : s.connect f = .wait) (hpc : s.hooks.fiber f = .addEvent io timer)
      (hact : s.hooks.actTable (s.hooks.tableOp f
        (.addEvent io.fd io.fn.event none (some ()) f) i.ok) = some (some false, hooks))
      (hu : hooks.cancelTimer timer = some u) :
      Move s (.step f i) {} ({ s with hooks := u.goto f (.check io) }.goto f .getError)
  | giveUp {f : FiberId} {i : HookInput} {io : DoIo} {tinfo : TimerInfo}
      (hpc : s.hooks.fiber f = .check io) :
      Move s (.step f i) { ret := some (-1, tinfo.cancelled) }
        (s.finish f io (-1) tinfo.cancelled).2
  | ask {f : FiberId} {i : HookInput} {io : DoIo} {tinfo : TimerInfo}
      (hwait : s.connect f = .wait) (hpc : s.hooks.fiber f = .check io)
      (htinfo : s.hooks.tinfos[io.tinfo]? = some tinfo) (hcancelled : tinfo.cancelled = 0) :
      Move s (.step f i) {} (s.goto f .getError)
  /-- `getsockopt` has answered -/
  | answered {f : FiberId} {i : HookInput} {io : DoIo} {t : Connects ω} {ret errno : Int}
      (hpc : s.connect f = .getError) (hcheck : s.hooks.fiber f = .check io)
      (hframe : Frame s f t) (hret : ret = 0 → s.hooks.kernel.isOpen io.fd = true ∧
        (s.conn io.fd).soError = 0 ∧
        t = { s with conn := Function.update s.conn io.fd (s.conn io.fd).taken }) :
      Move s (.step f i) { ret := some (ret, errno) } (t.finish f io ret errno).2
  | other {a : BlockingAction ω} {e : HookEffect} {hooks : Hooks ω}
      (hfiber : a.fiber?.all (fun f => s.connect f = .out) = true)
      (hact : s.hooks.actBlocking a = some (e, hooks)) : Move s (.other a) e (s.after hooks)
  /-- the connection of a number changes -/
  | kernel {a : ConnectAction ω} {fd : Int} {c : Conn} (ha : fiberOf a = none)
      (hc : c = .inProgress → s.conn fd = .inProgress) :
      Move s a {} { s with conn := Function.update s.conn fd c }

omit [DecidableEq ω] in
theorem frame_taken (s : Connects ω) (f : FiberId) (fd : Int) :
    Frame s f { s with conn := Function.update s.conn fd (s.conn fd).taken } :=
  ⟨rfl, rfl, fun _ _ => rfl, ages_of_conn rfl (conn_of_update taken_inProgress)⟩

theorem move_of_call {s s' : Connects ω} {f : FiberId} {fd : Int} {timeout : UInt64}
    {hooked : Bool} {e : HookEffect} (hout : s.hooks.fiber f = .out)
    (hcall : s.call f fd timeout hooked = some (e, s')) :
    Move s (.call f fd timeout hooked) e s' := by
  have haside : ∀ (pc : ConnectPc), pc ≠ .wait → pc ≠ .getError →
      (∀ errno, e.ret ≠ some (0, errno)) →
      Move s (.call f fd timeout hooked) e (s.goto f pc) := fun pc hwait herror hret =>
    .aside rfl (frame_refl s f) hwait herror (fun _ _ _ _ => hout) fun errno h =>
      absurd h (hret errno)
  unfold Connects.call at hcall
  split at hcall
  · cases hcall
    exact haside (.direct fd) (by simp) (by simp) (by simp)
  split at hcall
  · cases hcall
  · split at hcall
    · cases hcall
    split at hcall
    · cases hcall
      exact haside .out (by simp) (by simp) (by simp)
    split at hcall
    · cases hcall
      exact haside (.direct fd) (by simp) (by simp) (by simp)
    · cases hcall
      exact haside (.connect fd _ timeout) (by simp) (by simp) (by simp)
  · cases hcall
    exact haside .out (by simp) (by simp) (by simp)

theorem move_of_stepWait {s s' : Connects ω} {f : FiberId} {i : HookInput} {e : HookEffect}
    (hwait : s.connect f = .wait) (hstep : s.stepWait f i = some (e, s')) :
    Move s (.step f i) e s' := by
  unfold Connects.stepWait at hstep
  cases hpc : s.hooks.fiber f with
  | arm io =>
    rw [hpc] at hstep
    rcases Option.map_eq_some_iff.mp hstep with ⟨⟨e', hooks⟩, hr, heq⟩
    cases heq
    exact .shared hwait (.inl hpc) hr
  | waiting io timer =>
    rw [hpc] at hstep
    rcases Option.map_eq_some_iff.mp hstep with ⟨⟨e', hooks⟩, hr, heq⟩
    cases heq
    exact .shared hwait (.inr ⟨timer, .inl hpc⟩) hr
  | woken io timer =>
    rw [hpc] at hstep
    rcases Option.map_eq_some_iff.mp hstep with ⟨⟨e', hooks⟩, hr, heq⟩
    cases heq
    exact .shared hwait (.inr ⟨timer, .inr hpc⟩) hr
  | addEvent io timer =>
    rw [hpc] at hstep
    rcases Option.bind_eq_some_iff.mp hstep with ⟨⟨ret, hooks⟩, hact, hnext⟩
    dsimp only at hnext
    split at hnext
    · cases hnext
      exact .calling hwait hpc hact
    · cases hnext
      exact .registered hwait hpc hact
    · rcases Option.map_eq_some_iff.mp hnext with ⟨u, hu, heq⟩
      cases heq
      exact .refused hwait hpc hact hu
  | check io =>
    rw [hpc] at hstep
    dsimp only at hstep
    split at hstep
    · cases hstep
    · next tinfo htinfo =>
      split at hstep
      · cases hstep
        exact .giveUp hpc
      · next hzero =>
        cases hstep
        exact .ask hwait hpc htinfo (by simpa using hzero)
  | _ =>
    rw [hpc] at hstep
    cases hstep

theorem move_of_step {s s' : Connects ω} {f : FiberId} {i : HookInput} {e : HookEffect}
    (hstep : s.step f i = some (e, s')) : Move s (.step f i) e s' := by
  unfold Connects.step at hstep
  -- the result of `connect_f` is the result of the call
  have hleave : ∀ {fd t}, s.connectf f fd i = some t → t.leave f i.ret i.errno = (e, s') →
      Move s (.step f i) e s' := by
    intro fd t ht heq
    have hcalled := called_of_connectf ht
    cases heq
    refine .aside rfl hcalled.toFrame (by simp) (by simp) (fun _ _ _ h => by cases h) ?_
    intro errno h
    exact hcalled.connected (congrArg Prod.fst (Option.some.inj h))
  cases hpc : s.connect f with
  | out =>
    rw [hpc] at hstep
    cases hstep
  | direct fd =>
    rw [hpc] at hstep
    rcases Option.map_eq_some_iff.mp hstep with ⟨t, ht, heq⟩
    exact hleave ht heq
  | connect fd ctx timeout =>
    rw [hpc] at hstep
    rcases Option.map_eq_some_iff.mp hstep with ⟨t, ht, heq⟩
    dsimp only at heq
    split at heq
    · next hprogress =>
      have hcalled := called_of_connectf ht
      cases heq
      exact .begin hpc hcalled.toFrame (hcalled.inProgress hprogress.1 hprogress.2) rfl
    · exact hleave ht heq
  | wait =>
    rw [hpc] at hstep
    exact move_of_stepWait hpc hstep
  | getError =>
    rw [hpc] at hstep
    dsimp only at hstep
    split at hstep
    · next io hcheck =>
      split at hstep
      · cases hstep
        exact .answered hpc hcheck (frame_refl s f) (fun h => by cases h)
      next hopen =>
      split at hstep
      · next hzero =>
        cases hstep
        exact .answered hpc hcheck (frame_taken s f io.fd)
          (fun _ => ⟨by simpa using hopen, hzero, rfl⟩)
      · cases hstep
        exact .answered hpc hcheck (frame_taken s f io.fd) (fun h => by cases h)
    · cases hstep

/-- A step of anybody is one of the moves. -/
theorem move_of_act {s s' : Connects ω} {a : ConnectAction ω} {e : HookEffect}
    (hact : s.act a = some (e, s')) : Move s a e s' := by
  unfold act at hact
  split at hact
  · cases hact
  cases a with
  | call f fd timeout hooked =>
    dsimp only at hact
    split at hact
    · next hout => exact move_of_call hout hact
    · cases hact
  | step f i => exact move_of_step hact
  | other a =>
    dsimp only at hact
    split at hact
    · next hfiber =>
      rcases Option.map_eq_some_iff.mp hact with ⟨⟨e', hooks⟩, hr, heq⟩
      cases heq
      exact .other hfiber hr
    · cases hact
  | complete fd =>
    dsimp only at hact
    split at hact
    · cases hact
      exact .kernel rfl (fun h => by cases h)
    · cases hact
  | fail fd error =>
    dsimp only at hact
    split at hact
    · cases hact
      exact .kernel rfl (fun h => by cases h)
    · cases hact
  | takeError fd =>
    cases hact
    exact .kernel rfl taken_inProgress

omit [DecidableEq ω] in
theorem goto_connect_of_ne (s : Connects ω) {f g : FiberId} (pc : ConnectPc) (h : g ≠ f) :
    (s.goto f pc).connect g = s.connect g :=
  Function.update_of_ne h ..

/-- A step moves one fiber. -/
theorem Move.connect_of_ne {s s' : Connects ω} {a : ConnectAction ω} {e : HookEffect}
    (hm : Move s a e s') {g : FiberId} (hg : fiberOf a ≠ some g) :
    s'.connect g = s.connect g := by
  have hne : ∀ {f}, fiberOf a = some f → g ≠ f := by
    rintro f hf rfl
    exact hg hf
  cases hm with
  | aside hf hframe _ _ _ _ => rw [goto_connect_of_ne _ _ (hne hf), hframe.connect]
  | begin _ hframe _ _ =>
    rw [goto_connect_of_ne _ _ (hne rfl)]
    exact congrFun hframe.connect g
  | shared _ _ _ | calling _ _ _ | registered _ _ _ | other _ _ | kernel _ _ => rfl
  | refused _ _ _ _ | giveUp _ | ask _ _ _ _ => exact goto_connect_of_ne _ _ (hne rfl)
  | answered _ _ hframe _ =>
    rw [← hframe.connect]
    exact goto_connect_of_ne _ .out (hne rfl)

end Connects

end Azure
