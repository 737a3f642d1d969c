import Azure.Hook.ConnectMoves
import Azure.Hook.Protocol

/-!
# When a hooked `connect` succeeds

Behind the wait `connect_with_timeout` looks at the flag of its timer and at `SO_ERROR`, and neither
tells a connection that is established from one that is still in progress.  As long as nobody cuts
the wait short, there is none in progress when it asks.
-/

namespace Azure

open Reasoning

def HookPc.isAwake (woken : Bool) : HookPc → Bool
  | .waiting .. => woken
  | .woken .. | .check _ => true
  | _ => false

theorem HookPc.isAwake_true {pc : HookPc} {woken : Bool} (h : pc.isAwake woken = true) :
    pc.isAwake true = true := by
  cases pc <;> first | rfl | exact h

/-- A fiber that is not past its wait has been woken. -/
theorem HookPc.woken_of_isAwake {pc : HookPc} {woken : Bool} (hold : ¬ pc.isAwake false = true)
    (h : pc.isAwake woken = true) : woken = true := by
  cases pc with
  | waiting => exact h
  | _ => exact absurd h hold

namespace Blocking

def Cancelled (tinfos : List TimerInfo) (k : Nat) : Prop :=
  ∃ t, tinfos[k]? = some t ∧ t.cancelled ≠ 0

theorem Cancelled.append {tinfos : List TimerInfo} {k : Nat} (h : Cancelled tinfos k)
    (new : List TimerInfo) : Cancelled (tinfos ++ new) k := by
  obtain ⟨t, ht, hne⟩ := h
  refine ⟨t, ?_, hne⟩
  rw [List.getElem?_append_left (List.getElem?_eq_some_iff.mp ht).choose]
  exact ht

theorem Cancelled.modify {tinfos : List TimerInfo} {k : Nat} (h : Cancelled tinfos k) (j : Nat) :
    Cancelled (tinfos.modify j fun t => { t with alive := false }) k := by
  obtain ⟨t, ht, hne⟩ := h
  unfold Cancelled
  rw [List.getElem?_modify, ht]
  by_cases hj : j = k
  · exact ⟨{ t with alive := false }, by simp [hj], hne⟩
  · exact ⟨t, by simp [hj], hne⟩

/-- What is stored stays. -/
theorem Change.cancelled {ω : Type} {s s' : Blocking ω} {a : BlockingAction ω}
    (hc : Change s a s') {k : Nat} (h : Cancelled s.tinfos k) : Cancelled s'.tinfos k := by
  cases hc with
  | keeps _ htinfos =>
    rw [htinfos]
    exact h
  | starts _ _ _ htinfos =>
    rw [htinfos]
    exact h.append _
  | ends _ _ _ htinfos =>
    rw [htinfos]
    exact h.modify _
  | @cancels f i fn cb tinfo _ _ _ hold _ _ htinfos =>
    rw [htinfos]
    by_cases hk : fn.tinfo = k
    · subst hk
      refine ⟨_, List.getElem?_set_self (List.getElem?_eq_some_iff.mp hold).choose, ?_⟩
      show ETIMEDOUT ≠ 0
      decide
    · obtain ⟨t, ht, hne⟩ := h
      exact ⟨t, by rw [List.getElem?_set_ne hk]; exact ht, hne⟩

end Blocking

namespace Connects

open Blocking (Registered Cancelled)

variable {ω : Type} [DecidableEq ω]

/-! ## The invariant -/

/-- What holds of a fiber.  A fiber that has been woken while its connection is in progress has a
timer that has gone off, and there is no connection in progress behind its wait. -/
structure Sound (s : Connects ω) (f : FiberId) : Prop where
  idle : ∀ fd a timeout, s.connect f = .connect fd a timeout → s.hooks.fiber f = .out
  frame : s.connect f = .wait ∨ s.connect f = .getError → ∃ io n,
    (s.hooks.fiber f).io? = some io ∧ s.began f = some (io.fd, n) ∧ n ≤ s.attempts io.fd
  awake : s.connect f = .wait → (s.hooks.fiber f).isAwake (s.hooks.woken f) = true →
    s.Has f .inProgress → s.TimedOut f
  ended : s.connect f = .getError → ¬ s.Has f .inProgress

structure Inv (s : Connects ω) : Prop where
  registered : Registered s.hooks.table s.hooks.woken s.hooks.fiber
  sound : ∀ f, s.Sound f

structure Kept (s s' : Connects ω) (f : FiberId) : Prop where
  connect : s'.connect f = s.connect f
  began : s'.began f = s.began f
  fiber : s.connect f ≠ .out → s'.hooks.fiber f = s.hooks.fiber f

omit [DecidableEq ω] in
/-- Outside of the wait there is little to know. -/
theorem sound_of_connect {s : Connects ω} {f : FiberId} (hwait : s.connect f ≠ .wait)
    (herror : s.connect f ≠ .getError)
    (hidle : ∀ fd a timeout, s.connect f = .connect fd a timeout → s.hooks.fiber f = .out) :
    s.Sound f where
  idle := hidle
  frame := fun h => by
    cases h with
    | inl h => exact absurd h hwait
    | inr h => exact absurd h herror
  awake := fun h => absurd h hwait
  ended := fun h => absurd h herror

theorem Sound.kept {s s' : Connects ω} {e : Event ω} {f : FiberId} (h : s.Sound f)
    (hs : QuietStep s e s') (hages : Ages s s')
    (htinfos : ∀ k, Cancelled s.hooks.tinfos k → Cancelled s'.hooks.tinfos k)
    (hkept : Kept s s' f) : s'.Sound f := by
  have hback : s.connect f = .wait ∨ s.connect f = .getError → s'.Has f .inProgress →
      s.Has f .inProgress := by
    intro hin
    obtain ⟨io, n, -, hbegan, hle⟩ := h.frame hin
    exact hages.has hbegan hle hkept.began
  have hfiber : s'.connect f ≠ .out → s'.hooks.fiber f = s.hooks.fiber f := by
    intro hne
    apply hkept.fiber
    rw [← hkept.connect]
    exact hne
  refine ⟨fun fd a timeout hpc => ?_, fun hin => ?_, fun hwait hawake hhas => ?_,
    fun herror hhas => ?_⟩
  · rw [hfiber (by simp [hpc])]
    rw [hkept.connect] at hpc
    exact h.idle fd a timeout hpc
  · rw [hfiber (by rcases hin with hin | hin <;> simp [hin]), hkept.began]
    rw [hkept.connect] at hin
    obtain ⟨io, n, hio, hbegan, hle⟩ := h.frame hin
    exact ⟨io, n, hio, hbegan, hle.trans (hages.attempts io.fd)⟩
  · have hsame := hfiber (by simp [hwait])
    rw [hsame] at hawake
    rw [hkept.connect] at hwait
    have hprogress := hback (.inl hwait) hhas
    -- who has woken it has met the condition
    have htimedOut : s.TimedOut f := by
      by_cases hold : (s.hooks.fiber f).isAwake (s.hooks.woken f) = true
      · exact h.awake hwait hold hprogress
      · cases hwoken : s.hooks.woken f with
        | true =>
          rw [hwoken] at hold
          exact absurd (HookPc.isAwake_true hawake) hold
        | false =>
          rw [hwoken] at hold
          apply hs.1.wakes f hwait hprogress
          exact ⟨hwoken, e.2, s', hs.2, HookPc.woken_of_isAwake hold hawake⟩
    obtain ⟨k, t, hk, ht, hne⟩ := htimedOut
    obtain ⟨t', ht', hne'⟩ := htinfos k ⟨t, ht, hne⟩
    exact ⟨k, t', by rw [hsame]; exact hk, ht', hne'⟩
  · rw [hkept.connect] at herror
    exact h.ended herror (hback (.inr herror) hhas)

/-- A step that leaves the fibers in `connect_with_timeout` where they are. -/
theorem Inv.kept {s s' : Connects ω} {e : Event ω} (h : s.Inv) (hs : QuietStep s e s')
    (hages : Ages s s') (hregistered : Registered s'.hooks.table s'.hooks.woken s'.hooks.fiber)
    (htinfos : ∀ k, Cancelled s.hooks.tinfos k → Cancelled s'.hooks.tinfos k)
    (hkept : ∀ f, Kept s s' f) : s'.Inv where
  registered := hregistered
  sound := fun f => (h.sound f).kept hs hages htinfos (hkept f)

/-- A step of one fiber. -/
theorem Inv.moved {s s' : Connects ω} {e : Event ω} (h : s.Inv) (hs : QuietStep s e s')
    (hages : Ages s s') (hregistered : Registered s'.hooks.table s'.hooks.woken s'.hooks.fiber)
    (htinfos : ∀ k, Cancelled s.hooks.tinfos k → Cancelled s'.hooks.tinfos k) {f : FiberId}
    (hself : s'.Sound f) (hother : ∀ g, g ≠ f → Kept s s' g) : s'.Inv where
  registered := hregistered
  sound := fun g => by
    by_cases hg : g = f
    · subst hg
      exact hself
    · exact (h.sound g).kept hs hages htinfos (hother g hg)

/-! ## The steps -/

/-- A fiber goes to a place outside of the wait, and the hooks are as they were. -/
theorem Inv.aside {s t : Connects ω} {e : Event ω} {f : FiberId} {pc : ConnectPc} (h : s.Inv)
    (hs : QuietStep s e (t.goto f pc)) (hframe : Frame s f t) (hwait : pc ≠ .wait)
    (herror : pc ≠ .getError)
    (hidle : ∀ fd a timeout, pc = .connect fd a timeout → s.hooks.fiber f = .out) :
    (t.goto f pc).Inv := by
  have hhooks : (t.goto f pc).hooks = s.hooks := hframe.hooks
  have hpc : (t.goto f pc).connect f = pc := Function.update_self ..
  have hself : (t.goto f pc).Sound f := by
    apply sound_of_connect
    · rw [hpc]
      exact hwait
    · rw [hpc]
      exact herror
    · rw [hpc, hhooks]
      exact hidle
  refine h.moved hs ⟨hframe.ages.attempts, hframe.ages.conn⟩ ?_ ?_ hself fun g hg => ?_
  · rw [hhooks]
    exact h.registered
  · rw [hhooks]
    exact fun _ hk => hk
  · refine ⟨?_, hframe.began g hg, fun _ => by rw [hhooks]⟩
    rw [goto_connect_of_ne _ _ hg, hframe.connect]

/-- A call that is over lets go of its `timer_info`. -/
theorem Inv.finish {s t : Connects ω} {e : Event ω} {f : FiberId} {io : DoIo} (h : s.Inv)
    (ret errno : Int) (hs : QuietStep s e (t.finish f io ret errno).2)
    (hframe : Frame s f t) (hpc : s.hooks.fiber f = .check io) :
    (t.finish f io ret errno).2.Inv := by
  have hhooks : (t.finish f io ret errno).2.hooks = (s.hooks.drop io).goto f .out := by
    rw [← hframe.hooks]
    rfl
  have hout : (t.finish f io ret errno).2.connect f = .out := Function.update_self ..
  have hself : (t.finish f io ret errno).2.Sound f := by
    apply sound_of_connect
    · simp [hout]
    · simp [hout]
    · simp [hout]
  refine h.moved hs ⟨hframe.ages.attempts, hframe.ages.conn⟩ ?_ ?_ hself fun g hg => ?_
  · rw [hhooks]
    exact h.registered.goto (h.registered.free (by rw [hpc]; rfl)) (by rw [hpc]; rfl) rfl
  · rw [hhooks]
    exact fun k hk => hk.modify io.tinfo
  · refine ⟨?_, hframe.began g hg, fun _ => ?_⟩
    · rw [← hframe.connect]
      exact goto_connect_of_ne _ .out hg
    · rw [hhooks]
      exact Function.update_of_ne hg ..

/-- The wait begins. -/
theorem Inv.begin {s t s' : Connects ω} {f : FiberId} {fd : Int} {ctx : FdCtxAddr}
    {timeout : UInt64} {e : Event ω} (h : s.Inv) (hs : QuietStep s e s')
    (hpc : s.connect f = .connect fd ctx timeout) (hframe : Frame s f t)
    (hbegan : t.began f = some (fd, t.attempts fd)) {io : DoIo} (hfd : io.fd = fd)
    (heq : s' = { t with
      hooks := { t.hooks with tinfos := t.hooks.tinfos ++ [({} : TimerInfo)] }.goto f
        (.arm io) }.goto f .wait) : s'.Inv := by
  have hidle := (h.sound f).idle fd ctx timeout hpc
  have hhooks : s'.hooks =
      { s.hooks with tinfos := s.hooks.tinfos ++ [({} : TimerInfo)] }.goto f (.arm io) := by
    rw [heq, ← hframe.hooks]
    rfl
  have hwait : s'.connect f = .wait := by
    rw [heq]
    exact Function.update_self ..
  have harm : s'.hooks.fiber f = .arm io := by
    rw [hhooks]
    exact Function.update_self ..
  have hself : s'.Sound f := by
    refine ⟨by simp [hwait], fun _ => ?_, fun _ hawake => ?_, by simp [hwait]⟩
    · refine ⟨io, s'.attempts io.fd, by rw [harm]; rfl, ?_, le_rfl⟩
      rw [heq, hfd]
      exact hbegan
    · rw [harm] at hawake
      cases hawake
  refine h.moved hs ?_ ?_ ?_ hself fun g hg => ?_
  · rw [heq]
    exact ⟨hframe.ages.attempts, hframe.ages.conn⟩
  · rw [hhooks]
    exact h.registered.goto (h.registered.free (by rw [hidle]; rfl)) (by rw [hidle]; rfl) rfl
  · rw [hhooks]
    exact fun k hk => hk.append _
  · refine ⟨?_, ?_, fun _ => ?_⟩
    · rw [heq, ← hframe.connect]
      exact goto_connect_of_ne _ .wait hg
    · rw [heq]
      exact hframe.began g hg
    · rw [hhooks]
      exact Function.update_of_ne hg ..

/-- A step of the wait that does not wake the fiber. -/
theorem Inv.goesOn {s : Connects ω} {hooks : Hooks ω} {e : Event ω} {f : FiberId} {io : DoIo}
    (h : s.Inv) (hs : QuietStep s e { s with hooks }) (hwait : s.connect f = .wait)
    (hregistered : Registered hooks.table hooks.woken hooks.fiber)
    (htinfos : ∀ k, Cancelled s.hooks.tinfos k → Cancelled hooks.tinfos k)
    (hother : ∀ g, g ≠ f → hooks.fiber g = s.hooks.fiber g)
    (hold : (s.hooks.fiber f).io? = some io) (hnew : (hooks.fiber f).io? = some io)
    (hawake : (hooks.fiber f).isAwake (hooks.woken f) = true →
      (s.hooks.fiber f).isAwake (s.hooks.woken f) = true) :
    Inv { s with hooks } := by
  have hself : Sound { s with hooks } f := by
    refine ⟨by simp [hwait], fun _ => ?_, fun _ hwoken hhas => ?_, by simp [hwait]⟩
    · obtain ⟨io', n, hio, hbegan, hle⟩ := (h.sound f).frame (.inl hwait)
      rw [hold] at hio
      cases hio
      exact ⟨io, n, hnew, hbegan, hle⟩
    · obtain ⟨k, t, hk, ht, hne⟩ := (h.sound f).awake hwait (hawake hwoken) hhas
      obtain ⟨t', ht', hne'⟩ := htinfos k ⟨t, ht, hne⟩
      refine ⟨k, t', ?_, ht', hne'⟩
      rw [HookPc.tinfo?_of_io? hold] at hk
      rw [← hk]
      exact HookPc.tinfo?_of_io? hnew
  exact h.moved hs (ages_of_conn rfl fun _ h => h) hregistered htinfos hself
    fun g hg => ⟨rfl, rfl, fun _ => hother g hg⟩

/-- The wait is over, and the connection is not in progress. -/
theorem Inv.asks {s : Connects ω} {hooks : Hooks ω} {e : Event ω} {f : FiberId} {io : DoIo}
    (h : s.Inv) (hs : QuietStep s e ({ s with hooks := hooks }.goto f .getError))
    (hwait : s.connect f = .wait) (hnot : ¬ s.Has f .inProgress)
    (hregistered : Registered hooks.table hooks.woken hooks.fiber)
    (htinfos : hooks.tinfos = s.hooks.tinfos)
    (hother : ∀ g, g ≠ f → hooks.fiber g = s.hooks.fiber g)
    (hold : (s.hooks.fiber f).io? = some io) (hnew : (hooks.fiber f).io? = some io) :
    ({ s with hooks := hooks }.goto f .getError).Inv := by
  have hpc : ({ s with hooks := hooks }.goto f .getError).connect f = .getError :=
    Function.update_self ..
  have hself : ({ s with hooks := hooks }.goto f .getError).Sound f := by
    refine ⟨by simp [hpc], fun _ => ?_, by simp [hpc], fun _ => hnot⟩
    obtain ⟨io', n, hio, hbegan, hle⟩ := (h.sound f).frame (.inl hwait)
    rw [hold] at hio
    cases hio
    exact ⟨io, n, hnew, hbegan, hle⟩
  refine h.moved hs ⟨fun _ => le_rfl, fun _ h _ => h⟩ hregistered ?_ hself fun g hg => ?_
  · show ∀ k, _ → Cancelled hooks.tinfos k
    rw [htinfos]
    exact fun _ hk => hk
  · exact ⟨goto_connect_of_ne _ .getError hg, rfl, fun _ => hother g hg⟩

/-- Where a step at a place of `do_io` leads: on in the same call, and past the wait only when the
fiber has been woken. -/
theorem goes_of_shared {s s' : Hooks ω} {f : FiberId} {i : HookInput} {e : HookEffect} {io : DoIo}
    (hpc : s.fiber f = .arm io ∨
      ∃ timer, s.fiber f = .waiting io timer ∨ s.fiber f = .woken io timer)
    (hs : s.step f i = some (e, s')) :
    (s.fiber f).io? = some io ∧ (s'.fiber f).io? = some io ∧
      ((s'.fiber f).isAwake (s'.woken f) = true → (s.fiber f).isAwake (s.woken f) = true) := by
  unfold Hooks.step at hs
  have hself : ∀ (t : Hooks ω) (pc : HookPc), (t.goto f pc).fiber f = pc := fun t pc =>
    Function.update_self ..
  rcases hpc with hpc | ⟨timer, hpc | hpc⟩
  · rw [hpc] at hs
    dsimp only at hs
    split at hs
    · cases hs
      rw [hpc, hself]
      exact ⟨rfl, rfl, fun h => by cases h⟩
    · rcases Option.map_eq_some_iff.mp hs with ⟨r, -, heq⟩
      cases heq
      rw [hpc, hself]
      exact ⟨rfl, rfl, fun h => by cases h⟩
  · rw [hpc] at hs
    dsimp only at hs
    split at hs
    · next hwoken =>
      cases hs
      rw [hpc, hself]
      exact ⟨rfl, rfl, fun _ => hwoken⟩
    · cases hs
  · rw [hpc] at hs
    rcases Option.map_eq_some_iff.mp hs with ⟨t, -, heq⟩
    cases heq
    rw [hpc, hself]
    exact ⟨rfl, rfl, fun _ => rfl⟩

theorem Inv.shared {s : Connects ω} {hooks : Hooks ω} {f : FiberId} {i : HookInput}
    {e : Event ω} {e' : HookEffect} {io : DoIo} (h : s.Inv) (hs : QuietStep s e { s with hooks })
    (hwait : s.connect f = .wait)
    (hpc : s.hooks.fiber f = .arm io ∨
      ∃ timer, s.hooks.fiber f = .waiting io timer ∨ s.hooks.fiber f = .woken io timer)
    (hstep : s.hooks.step f i = some (e', hooks)) : Inv { s with hooks } := by
  have hmove := Hooks.move_of_step hstep
  obtain ⟨hold, hnew, hawake⟩ := goes_of_shared hpc hstep
  apply h.goesOn hs hwait (hmove.registered_move h.registered) _ _ hold hnew hawake
  · exact fun k hk => hmove.change.cancelled hk
  · intro g hg
    apply (Hooks.change_of_step hstep).fiber_of_ne
    intro heq
    exact hg (Option.some.inj heq).symm

omit [DecidableEq ω] in
theorem tableOp_lock {s : Hooks ω} {f : FiberId} {call : IoCall Unit Unit} {ok ok' : Bool}
    {t : HookThread ω} (h : s.tableOp f call ok = .lock t ok') : ok' = ok := by
  unfold Hooks.tableOp at h
  split at h <;> cases h
  rfl

omit [DecidableEq ω] in
/-- A step of a fiber on the table goes on with the call that the fiber is in. -/
theorem callOf_tableOp {s : Hooks ω} {f : FiberId} {call : IoCall Unit Unit}
    (h : Registered s.table s.woken s.fiber) (hin : (s.fiber f).call? f = some call) (ok : Bool) :
    s.table.callOf (s.tableOp f call ok) = some call := by
  unfold Hooks.tableOp
  split
  · next c hcaller =>
    have hmine := h.mine f c (by rw [hcaller]; rfl)
    rw [hin] at hmine
    show EventTable.callIn (s.table.caller (.inl f)) = _
    rw [hcaller, hmine]
    rfl
  · next c a hcaller =>
    have hmine := h.mine f c (by rw [hcaller]; rfl)
    rw [hin] at hmine
    show EventTable.callIn (s.table.caller (.inl f)) = _
    rw [hcaller, hmine]
    rfl
  · rfl

section AddEvent

variable {s : Connects ω} {hooks : Hooks ω} {e : Event ω} {f : FiberId} {i : HookInput}
  {io : DoIo} {timer : Option Addr}

omit [DecidableEq ω] in
theorem call?_of_addEvent (hpc : s.hooks.fiber f = .addEvent io timer) :
    (s.hooks.fiber f).call? f = some (.addEvent io.fd io.fn.event none (some ()) f) := by
  rw [hpc]
  rfl

theorem Inv.calling (h : s.Inv) (hs : QuietStep s e { s with hooks })
    (hwait : s.connect f = .wait) (hpc : s.hooks.fiber f = .addEvent io timer)
    (hact : s.hooks.actTable (s.hooks.tableOp f
      (.addEvent io.fd io.fn.event none (some ()) f) i.ok) = some (none, hooks)) :
    Inv { s with hooks } := by
  obtain ⟨r, hr, hret, ht⟩ := Hooks.actTable_wake hact
  obtain ⟨hthread, hcall⟩ :=
    s.hooks.tableOp_spec f (.addEvent io.fd io.fn.event none (some ()) f) i.ok
  obtain ⟨hfiber, -, -, htinfos⟩ := Hooks.actTable_frame hact
  have hregistered : Registered hooks.table hooks.woken hooks.fiber := by
    have hwake := h.registered.wake (s := s.hooks.blocking)
      (Registered.belongs_of_call (call?_of_addEvent hpc) hthread hcall) hr (by simp [hret])
    rw [← ht] at hwake
    exact hwake
  have hio : (s.hooks.fiber f).io? = some io := by
    rw [hpc]
    rfl
  apply h.goesOn hs hwait hregistered _ _ hio
  · rw [hfiber]
    exact hio
  · rw [hfiber, hpc]
    exact fun hawake => by cases hawake
  · rw [htinfos]
    exact fun _ hk => hk
  · intro g _
    rw [hfiber]

/-- A fiber that has just been registered has not been woken. -/
theorem Inv.registers (h : s.Inv)
    (hs : QuietStep s e { s with hooks := hooks.goto f (.waiting io timer) })
    (hwait : s.connect f = .wait) (hpc : s.hooks.fiber f = .addEvent io timer)
    (hact : s.hooks.actTable (s.hooks.tableOp f
      (.addEvent io.fd io.fn.event none (some ()) f) i.ok) = some (some true, hooks)) :
    Inv { s with hooks := hooks.goto f (.waiting io timer) } := by
  obtain ⟨r, hr, hret, ht⟩ := Hooks.actTable_wake hact
  obtain ⟨hthread, hcall⟩ :=
    s.hooks.tableOp_spec f (.addEvent io.fd io.fn.event none (some ()) f) i.ok
  obtain ⟨hfiber, -, -, htinfos⟩ := Hooks.actTable_frame hact
  obtain ⟨hregistered, k, -, hslot⟩ :=
    Registered.register (s := s.hooks.blocking) h.registered hpc hthread hcall hr hret
  rw [← ht] at hregistered
  rw [show r.2 = hooks.table from congrArg Blocking.table ht.symm] at hslot
  have hwoken : hooks.woken f = false := (hregistered.slots.waiting hslot).2
  have hgoto : (hooks.goto f (.waiting io timer)).fiber =
      Function.update s.hooks.fiber f (.waiting io timer) := by
    rw [← hfiber]
    rfl
  have hself : (hooks.goto f (.waiting io timer)).fiber f = .waiting io timer :=
    Function.update_self ..
  have hio : (s.hooks.fiber f).io? = some io := by
    rw [hpc]
    rfl
  apply h.goesOn hs hwait _ _ _ hio
  · rw [hself]
    rfl
  · rw [hself]
    intro hawake
    rw [show (hooks.goto f (.waiting io timer)).woken f = false from hwoken] at hawake
    cases hawake
  · rw [hgoto]
    exact hregistered
  · rw [show (hooks.goto f (.waiting io timer)).tinfos = s.hooks.tinfos from htinfos]
    exact fun _ hk => hk
  · intro g hg
    rw [hgoto]
    exact Function.update_of_ne hg ..

/-- A registration that is refused, which the condition allows only when the connection is
decided. -/
theorem Inv.refused {u : Hooks ω} {e' : HookEffect} (h : s.Inv)
    (hs : QuietStep s (.step f i, e') ({ s with hooks := u.goto f (.check io) }.goto f .getError))
    (hwait : s.connect f = .wait) (hpc : s.hooks.fiber f = .addEvent io timer)
    (hact : s.hooks.actTable (s.hooks.tableOp f
      (.addEvent io.fd io.fn.event none (some ()) f) i.ok) = some (some false, hooks))
    (hu : hooks.cancelTimer timer = some u) :
    ({ s with hooks := u.goto f (.check io) }.goto f .getError).Inv := by
  obtain ⟨r, hr, hret, ht⟩ := Hooks.actTable_wake hact
  obtain ⟨hthread, hcall⟩ :=
    s.hooks.tableOp_spec f (.addEvent io.fd io.fn.event none (some ()) f) i.ok
  obtain ⟨hfiber, -, -, htinfos⟩ := Hooks.actTable_frame hact
  have hnot : ¬ s.Has f .inProgress := by
    intro hhas
    have hok := hs.1.registers f i io timer rfl hwait hpc hhas
    obtain ⟨t, ht⟩ := EventTable.lock_of_refused (e := r.1) hr
      (callOf_tableOp h.registered (call?_of_addEvent hpc) i.ok) hret
    rw [← tableOp_lock ht] at hok
    cases hok
  -- the timer is all that changes behind the table
  have hframe := Blocking.cancelTimer_frame (Hooks.blocking_cancelTimer hu)
  have hufiber : u.fiber = s.hooks.fiber := by
    rw [← hfiber]
    exact congrArg Blocking.fiber hframe
  have hrefuse := Registered.refuse (s := s.hooks.blocking) h.registered hpc hthread hcall hr hret
    (rfl : (HookPc.check io).isWaiting = false)
  rw [← ht] at hrefuse
  apply h.asks hs hwait hnot
  · show Registered u.table u.woken (Function.update u.fiber f (.check io))
    rw [hufiber, show u.table = hooks.table from congrArg Blocking.table hframe,
      show u.woken = hooks.woken from congrArg Blocking.woken hframe]
    exact hrefuse
  · rw [← htinfos]
    exact congrArg Blocking.tinfos hframe
  · intro g hg
    show Function.update u.fiber f _ g = _
    rw [hufiber]
    exact Function.update_of_ne hg ..
  · rw [hpc]
    rfl
  · show (Function.update u.fiber f (.check io) f).io? = _
    rw [Function.update_self]
    rfl

end AddEvent

/-- A timer that has not gone off leaves a connection that is decided. -/
theorem Inv.ask {s : Connects ω} {e : Event ω} {f : FiberId} {io : DoIo} {tinfo : TimerInfo}
    (h : s.Inv) (hs : QuietStep s e (s.goto f .getError)) (hwait : s.connect f = .wait)
    (hpc : s.hooks.fiber f = .check io) (htinfo : s.hooks.tinfos[io.tinfo]? = some tinfo)
    (hcancelled : tinfo.cancelled = 0) : (s.goto f .getError).Inv := by
  have hio : (s.hooks.fiber f).io? = some io := by
    rw [hpc]
    rfl
  have hnot : ¬ s.Has f .inProgress := by
    intro hhas
    obtain ⟨k, t, hk, ht, hne⟩ := (h.sound f).awake hwait (by rw [hpc]; rfl) hhas
    rw [HookPc.tinfo?_of_io? hio] at hk
    cases hk
    rw [htinfo] at ht
    cases ht
    exact hne hcancelled
  exact h.asks hs hwait hnot h.registered rfl (fun _ _ => rfl) hio hio

/-- The fibers in `connect_with_timeout` take no part in the steps of the others. -/
theorem fiber_of_other {s s' : Hooks ω} {a : BlockingAction ω} {e : HookEffect}
    (hs : s.actBlocking a = some (e, s')) {f : FiberId} (hf : a.fiber? ≠ some f) :
    s'.fiber f = s.fiber f := by
  have htable : ∀ {op : TableOp Unit Unit (HookThread ω)},
      (s.actTable op).map (fun r => (({} : HookEffect), r.2)) = some (e, s') →
      s'.fiber f = s.fiber f := by
    intro op h
    rcases Option.map_eq_some_iff.mp h with ⟨⟨ret, t⟩, hact, heq⟩
    cases heq
    rw [(Hooks.actTable_frame hact).1]
  cases a with
  | hook a => exact (Hooks.change_of_act hs).fiber_of_ne hf
  | cancelEvent w fd event => exact htable hs
  | cancelAll w fd => exact htable hs
  | lock w ok => exact htable hs

theorem Inv.other {s : Connects ω} {hooks : Hooks ω} {a : BlockingAction ω} {e : HookEffect}
    (h : s.Inv) (hs : QuietStep s (.other a, e) (s.after hooks))
    (hfiber : a.fiber?.all (fun f => s.connect f = .out) = true)
    (hact : s.hooks.actBlocking a = some (e, hooks)) : (s.after hooks).Inv := by
  have hmove := Hooks.BlockingStep.move (e := (a, e)) hact
  have hages : Ages s (s.after hooks) := by
    refine ages_of_conn rfl fun n hn => ?_
    change (if hooks.kernel.isOpen n then s.conn n else .idle) = _ at hn
    split at hn
    · exact hn
    · cases hn
  refine h.kept hs hages (hmove.registered_move h.registered)
    (fun k hk => hmove.change.cancelled hk) fun f => ⟨rfl, rfl, fun hne => ?_⟩
  apply fiber_of_other hact
  intro heq
  rw [heq] at hfiber
  exact hne (by simpa using hfiber)

/-- Only the connection of a number changes. -/
theorem Inv.kernel {s : Connects ω} {e : Event ω} {fd : Int} {c : Conn} (h : s.Inv)
    (hs : QuietStep s e { s with conn := Function.update s.conn fd c })
    (hc : c = .inProgress → s.conn fd = .inProgress) :
    Inv { s with conn := Function.update s.conn fd c } :=
  h.kept hs (ages_of_conn rfl (conn_of_update hc)) h.registered (fun _ hk => hk)
    fun _ => ⟨rfl, rfl, fun _ => rfl⟩

theorem Inv.step {s s' : Connects ω} {e : Event ω} (h : s.Inv) (hs : QuietStep s e s') :
    s'.Inv := by
  rcases e with ⟨a, e⟩
  cases move_of_act hs.2 with
  | aside _ hframe hwait herror hidle _ => exact h.aside hs hframe hwait herror hidle
  | begin hpc hframe hbegan hfd => exact h.begin hs hpc hframe hbegan hfd rfl
  | shared hwait hpc hstep => exact h.shared hs hwait hpc hstep
  | calling hwait hpc hact => exact h.calling hs hwait hpc hact
  | registered hwait hpc hact => exact h.registers hs hwait hpc hact
  | refused hwait hpc hact hu => exact h.refused hs hwait hpc hact hu
  | @giveUp f _ _ tinfo hpc => exact h.finish (-1) tinfo.cancelled hs (frame_refl s f) hpc
  | ask hwait hpc htinfo hcancelled => exact h.ask hs hwait hpc htinfo hcancelled
  | @answered _ _ _ _ ret errno _ hcheck hframe _ => exact h.finish ret errno hs hframe hcheck
  | other hfiber hact => exact h.other hs hfiber hact
  | kernel _ hc => exact h.kernel hs hc

theorem inv_new (now : UInt64) : (new now : Connects ω).Inv where
  registered := (Hooks.protocol_new now).registered
  sound := fun f => by
    have hout : (new now : Connects ω).connect f = .out := rfl
    apply sound_of_connect <;> rw [hout]
    · simp
    · simp
    · exact fun _ _ _ heq => by cases heq

theorem inv_of_run {now : UInt64} {hist : List (Event ω)} {s : Connects ω}
    (hrun : Run QuietStep (new now) hist s) : s.Inv :=
  hrun.invariant Inv (inv_new now) fun _ _ _ => Inv.step

/-! ## The result -/

/-- In every run in which nobody cuts a wait short, a call that returns 0 has established its
connection. -/
theorem connect_succeeds_connected {now : UInt64} {hist : List (Event ω)} {s s' : Connects ω}
    {e : Event ω} (hrun : Run QuietStep (new now) hist s)
    (hs : QuietStep s e s') {f : FiberId} {i : HookInput} (ha : e.1 = .step f i)
    {errno : Int} (hret : e.2.ret = some (0, errno)) : s'.Has f .connected := by
  have h := inv_of_run hrun
  rcases e with ⟨a, e⟩
  obtain rfl : a = .step f i := ha
  have hm : Move s (.step f i) e s' := move_of_act hs.2
  change e.ret = some (0, errno) at hret
  cases hm with
  | aside hf _ _ _ _ hzero =>
    cases hf
    exact hzero errno hret
  | begin _ _ _ _ | shared _ _ _ | calling _ _ _ | registered _ _ _ | refused _ _ _ _
    | giveUp _ | ask _ _ _ _ => cases hret
  | kernel ha _ => cases ha
  | @answered _ _ io _ _ _ hpc hcheck _ hzero =>
    cases hret
    obtain ⟨hopen, hnone, rfl⟩ := hzero rfl
    obtain ⟨io', n, hio, hbegan, -⟩ := (h.sound f).frame (.inr hpc)
    rw [hcheck] at hio
    cases hio
    obtain ⟨c, ⟨fd, n', hbegan', hattempts, hconn⟩, hidle⟩ :=
      hs.1.asks f i io.fd n rfl hpc hbegan hopen
    rw [hbegan] at hbegan'
    cases hbegan'
    -- no error, not in progress and not idle
    have hc : s.conn io.fd = .connected := by
      cases hc : s.conn io.fd with
      | idle => exact absurd (hconn.symm.trans hc) hidle
      | inProgress => exact absurd ⟨io.fd, n, hbegan, hattempts, hc⟩ ((h.sound f).ended hpc)
      | connected => rfl
      | failed error =>
        rw [hc] at hnone
        exact absurd hnone error.2
    refine ⟨io.fd, n, hbegan, hattempts, ?_⟩
    show Function.update s.conn io.fd (s.conn io.fd).taken io.fd = _
    rw [Function.update_self, hc]
    rfl

/-- A socket with the number 5, and a `connect` of fiber 1 on it that waits. -/
def connecting : List (ConnectAction Unit) :=
  [.other (.hook (.call 1 .socket true)), .other (.hook (.step 1 { ret := 5 })),
    .other (.hook (.step 1 {})), .other (.hook (.step 1 {})), .call 1 5 (~~~0) true,
    .step 1 { ret := -1, errno := EINPROGRESS }, .step 1 {}, .step 1 {}, .step 1 {}]

/-- Another thread calls `cancelAll(5)` while the connection is in progress, and `connect`
succeeds. -/
theorem connect_succeeds_in_progress : ∃ (hist : List (Event Unit)) (s s' : Connects Unit)
    (e : HookEffect), Run Step (new 0) hist s ∧ Step s (.step 1 {}, e) s' ∧
      e.ret = some (0, 0) ∧ s'.Has 1 .inProgress ∧ ¬ s'.Has 1 .connected := by
  have hlast : (runActs (fun s a => if true then act s a else none) (new 0 : Connects Unit)
      (connecting ++ [.other (.cancelAll () 5), .other (.lock () true), .step 1 {}, .step 1 {},
        .step 1 {}])).map (fun r => (r.2.act (.step 1 {})).map fun q =>
          (q.1, q.2.began 1, q.2.attempts 5, q.2.conn 5)) =
      some (some ({ ret := some (0, 0) }, some (5, 1), 1, .inProgress)) := by
    rfl
  rcases Option.map_eq_some_iff.mp hlast with ⟨⟨hist, s⟩, hs, hact⟩
  rcases Option.map_eq_some_iff.mp hact with ⟨⟨e, s'⟩, hstep, hvalues⟩
  simp only [Prod.mk.injEq] at hvalues
  rcases hvalues with ⟨rfl, hbegan, hattempts, hconn⟩
  have hrun := run_of_runActs (fun _ _ => True) (fun _ _ => true) (fun _ _ _ => trivial) hs
  refine ⟨hist, s, s', _, hrun.unguarded, hstep, rfl,
    ⟨5, 1, hbegan, hattempts, hconn⟩, ?_⟩
  rintro ⟨fd, n, hbegan', -, hconn'⟩
  rw [hbegan] at hbegan'
  cases hbegan'
  rw [hconn] at hconn'
  cases hconn'

def quietFor (s : Connects ω) (f : FiberId) (a : ConnectAction ω) : Bool :=
  (fiberOf a).all (· = f) &&
  ((s.began f).all (fun p => s.conn p.1 ≠ .inProgress) ||
    (s.act a).all (fun r => !r.2.hooks.woken f)) &&
  (match a with | .step _ i => i.ok | _ => true) &&
  (s.connect f ≠ .getError ||
    (s.began f).all (fun p => s.attempts p.1 = p.2 ∧ s.conn p.1 ≠ .idle))

theorem undisturbed_of_quietFor {s : Connects ω} {f : FiberId} {a : ConnectAction ω}
    (halone : ∀ g, g ≠ f → s.connect g = .out) (h : s.quietFor f a = true) :
    s.Undisturbed a := by
  have hself : ∀ g, s.connect g ≠ .out → g = f := fun g hg => by
    by_contra hne
    exact hg (halone g hne)
  simp only [quietFor, Bool.and_eq_true, Bool.or_eq_true] at h
  rcases h with ⟨⟨⟨-, hwakes⟩, hok⟩, hasks⟩
  refine ⟨fun g hwait hhas hwoken => ?_, fun g i io timer ha _ _ _ => ?_,
    fun g i fd n ha herror hbegan _ => ?_⟩
  · obtain rfl := hself g (by simp [hwait])
    obtain ⟨fd, n, hbegan, -, hconn⟩ := hhas
    obtain ⟨-, e, s', hact, hnew⟩ := hwoken
    rcases hwakes with hnot | hnot
    · simp [hbegan, hconn] at hnot
    · simp [hact, hnew] at hnot
  · subst ha
    exact hok
  · obtain rfl := hself g (by simp [herror])
    rcases hasks with hnot | hlast
    · simp [herror] at hnot
    · simp only [hbegan, Option.all_some, Bool.decide_and, Bool.and_eq_true,
        decide_eq_true_eq] at hlast
      exact ⟨s.conn fd, ⟨fd, n, hbegan, hlast.1, rfl⟩, hlast.2⟩

/-- A run in which only one fiber connects, and passes the check. -/
theorem run_of_quietFor {f : FiberId} {now : UInt64} {hist : List (Event ω)} {s : Connects ω}
    (hrun : Run (Guarded (fun s e => s.quietFor f e.1 = true) Step) (new now) hist s) :
    Run QuietStep (new now) hist s ∧ ∀ g, g ≠ f → s.connect g = .out := by
  generalize hstart : (new now : Connects ω) = start at hrun ⊢
  induction hrun with
  | nil =>
    subst hstart
    exact ⟨.nil _, fun _ _ => rfl⟩
  | snoc _ hs ih =>
    obtain ⟨hquiet, halone⟩ := ih
    refine ⟨hquiet.snoc ⟨undisturbed_of_quietFor halone hs.1, hs.2⟩, fun g hg => ?_⟩
    rw [(move_of_act hs.2).connect_of_ne ?_, halone g hg]
    intro hf
    have hone := hs.1
    simp only [quietFor, hf, Option.all_some, Bool.and_eq_true, decide_eq_true_eq] at hone
    exact hg hone.1.1.1

/-- The kernel completes the connection, and the dispatch of the event wakes the fiber. -/
theorem connect_succeeds_connected_wait : ∃ (hist : List (Event Unit)) (s s' : Connects Unit)
    (e : HookEffect), Run QuietStep (new 0) hist s ∧ QuietStep s (.step 1 {}, e) s' ∧
      e.ret = some (0, 0) ∧ s'.Has 1 .connected := by
  have hlast : (runActs (fun s a => if quietFor s 1 a then act s a else none)
      (new 0 : Connects Unit) (connecting ++ [.complete 5,
        .other (.hook (.epollWait () [(5, { epollout := true })])),
        .other (.hook (.dispatch () true)), .step 1 {}, .step 1 {}, .step 1 {}])).map (fun r =>
          (r.2.quietFor 1 (.step 1 {}), (r.2.act (.step 1 {})).map fun q => q.1)) =
      some (true, some { ret := some (0, 0) }) := by
    rfl
  rcases Option.map_eq_some_iff.mp hlast with ⟨⟨hist, s⟩, hs, hvalues⟩
  simp only [Prod.mk.injEq] at hvalues
  rcases hvalues with ⟨hquiet, hact⟩
  rcases Option.map_eq_some_iff.mp hact with ⟨⟨e, s'⟩, hstep, rfl⟩
  obtain ⟨hrun, halone⟩ := run_of_quietFor
    (run_of_runActs (fun s a => quietFor s 1 a = true) (fun s a => quietFor s 1 a)
      (fun _ _ h => h) hs)
  have hlastStep : QuietStep s (.step 1 {}, _) s' :=
    ⟨undisturbed_of_quietFor halone hquiet, hstep⟩
  exact ⟨hist, s, s', _, hrun, hlastStep, rfl, connect_succeeds_connected hrun hlastStep rfl rfl⟩

end Connects

end Azure
