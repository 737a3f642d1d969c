import Azure.Hook.Model
import Azure.Reasoning.Runs

/-!
# Recycled descriptors

`close` wakes a call that waits, removes the `FdCtx` the call started with and frees the number; the
woken call looks at its `timer_info` and nothing else before it retries.  Whether it then meets a
new socket under the old number depends on who runs first.  A call whose number has been handed out
again stays off it when it is still waiting at that moment and its timer has run out.
-/

namespace Azure

open Reasoning

namespace HookPc

def io? : HookPc → Option DoIo
  | .attempt io | .arm io | .addEvent io _ | .waiting io _ | .woken io _ | .check io => some io
  | _ => none

/-- In or behind `YieldToHold`, before the retry. -/
def waits : HookPc → Bool
  | .waiting .. | .woken .. | .check _ => true
  | _ => false

end HookPc

namespace Hooks

variable {ω : Type} [DecidableEq ω]

def Blocked (pc : HookPc) (io : DoIo) : Prop :=
  pc.io? = some io ∧ (io.retry = true ∨ pc.waits = true)

/-- `close` has removed the call's `FdCtx`, and its number has been handed out since. -/
def Recycled (s : Hooks ω) (io : DoIo) : Prop :=
  ∃ generation ∈ s.removed io.ctx, generation io.fd < s.kernel.generation io.fd

def handsOut (s : Hooks ω) : HookAction ω → Option Int
  | .step f i =>
    match s.fiber f with
    | .direct .accept _ => if i.ret < 0 then none else some i.ret
    | .attempt io => if io.fn = .accept ∧ 0 ≤ i.ret then some i.ret else none
    | .socket _ => if i.ret < 0 then none else some i.ret
    | _ => none
  | _ => none

/-- A number is handed out only while the calls that have lost their `FdCtx` for it still wait, and
such a call leaves its wait only with its `timer_info` cancelled. -/
structure Careful (s : Hooks ω) (a : HookAction ω) : Prop where
  handsOut : ∀ n, s.handsOut a = some n → ∀ g io, Blocked (s.fiber g) io → io.fd = n →
    (s.removed io.ctx).isSome → (s.fiber g).waits = true
  check : ∀ f i io, a = .step f i → s.fiber f = .check io → s.Recycled io →
    ∀ tinfo ∈ s.tinfos[io.tinfo]?, tinfo.cancelled ≠ 0

/-! ## What a step does to the numbers -/

omit [DecidableEq ω] in
theorem recycled_congr {s s' : Hooks ω} (hremoved : s'.removed = s.removed)
    (hgeneration : s'.kernel.generation = s.kernel.generation) (io : DoIo) :
    s'.Recycled io ↔ s.Recycled io := by
  simp [Recycled, hremoved, hgeneration]

/-- A step on the event table leaves the numbers and the places of the fibers alone. -/
theorem actTable_frame {s s' : Hooks ω} {op : TableOp Unit Unit (HookThread ω)}
    {ret : Option Bool} (h : s.actTable op = some (ret, s')) :
    s'.fiber = s.fiber ∧ s'.removed = s.removed ∧ s'.kernel = s.kernel ∧
      s'.tinfos = s.tinfos := by
  rcases Option.map_eq_some_iff.mp h with ⟨r, -, heq⟩
  cases heq
  exact ⟨rfl, rfl, rfl, rfl⟩

omit [DecidableEq ω] in
theorem cancelTimer_frame {s s' : Hooks ω} {timer : Option Addr}
    (h : s.cancelTimer timer = some s') :
    s'.fiber = s.fiber ∧ s'.removed = s.removed ∧ s'.kernel = s.kernel := by
  cases timer with
  | none =>
    cases h
    exact ⟨rfl, rfl, rfl⟩
  | some a =>
    rcases Option.map_eq_some_iff.mp h with ⟨r, -, heq⟩
    cases heq
    exact ⟨rfl, rfl, rfl⟩

/-- A system call changes the generations only by what `accept` hands out. -/
theorem syscall_generation {k k' : Kernel} {fn : IoFun} {fd : Int} {i : HookInput}
    (h : syscall k fn fd i = some k') :
    (fn = .accept ∧ 0 ≤ i.ret ∧ k' = k.handOut i.ret) ∨
      (¬ (fn = .accept ∧ 0 ≤ i.ret) ∧ k' = k) := by
  unfold syscall at h
  split at h
  · next hret =>
    split at h
    · cases h
    · cases h
      exact Or.inr ⟨by omega, rfl⟩
  · split at h
    · cases h
    · next hret =>
      simp only [Bool.or_eq_true, decide_eq_true_eq, not_or, Int.not_lt] at hret
      split at h
      · next hfn =>
        split at h
        · cases h
        · cases h
          exact Or.inl ⟨hfn, hret.2, rfl⟩
      · next hfn =>
        cases h
        exact Or.inr ⟨fun h => hfn h.1, rfl⟩

/-! ## What a step does to the fibers -/

def fiberOf : HookAction ω → Option FiberId
  | .call f .. | .step f _ | .timeout f _ => some f
  | _ => none

/-- Where a fiber can be after a step that leaves the numbers alone: out of `do_io`, at the start of
it, in its wait, as far as before, or at a retry with its `timer_info` intact. -/
inductive Goes (s : Hooks ω) (f : FiberId) (a : HookAction ω) : HookPc → Prop
  | off {pc : HookPc} (hpc : pc.io? = none) : Goes s f a pc
  | starts {pc : HookPc} {io : DoIo} (hpc : pc.io? = some io) (hretry : io.retry = false) :
      Goes s f a pc
  | waits {pc : HookPc} (hpc : pc.waits = true) : Goes s f a pc
  | on {pc : HookPc} {io : DoIo} (hio : (s.fiber f).io? = some io)
      (hwaits : (s.fiber f).waits = false) (hpc : pc.io? = some io) : Goes s f a pc
  | retries {i : HookInput} {io : DoIo} {tinfo : TimerInfo} (ha : a = .step f i)
      (hcheck : s.fiber f = .check io) (htinfo : s.tinfos[io.tinfo]? = some tinfo)
      (hcancelled : tinfo.cancelled = 0) : Goes s f a (.attempt { io with retry := true })

inductive Change (s : Hooks ω) (a : HookAction ω) (s' : Hooks ω) : Prop
  | same (hfiber : s'.fiber = s.fiber) (hremoved : s'.removed = s.removed)
      (hgeneration : s'.kernel.generation = s.kernel.generation)
  | moved {f : FiberId} {pc : HookPc} (hf : fiberOf a = some f) (hpc : Goes s f a pc)
      (hfiber : s'.fiber = Function.update s.fiber f pc) (hremoved : s'.removed = s.removed)
      (hgeneration : s'.kernel.generation = s.kernel.generation)
  | handOut {f : FiberId} {pc : HookPc} {n : Int} (hf : fiberOf a = some f)
      (hpc : pc.io? = none) (hn : s.handsOut a = some n)
      (hfiber : s'.fiber = Function.update s.fiber f pc) (hremoved : s'.removed = s.removed)
      (hgeneration : s'.kernel.generation = (s.kernel.handOut n).generation)
  | remove {f : FiberId} {pc : HookPc} {c : FdCtxAddr} (hf : fiberOf a = some f)
      (hpc : pc.io? = none) (hfiber : s'.fiber = Function.update s.fiber f pc)
      (hremoved : s'.removed =
        Function.update s.removed c ((s.removed c).or (some s.kernel.generation)))
      (hgeneration : s'.kernel.generation = s.kernel.generation)

omit [DecidableEq ω] in
/-- The start of a hooked function. -/
theorem change_of_call {s s' : Hooks ω} {f : FiberId} {hooked : Bool} {c : HookCall}
    {e : HookEffect} (hs : s.call f hooked c = some (e, s')) : Change s (.call f c hooked) s' := by
  -- a call that is not blocking leaves `do_io` out
  have hout : ∀ {t : Hooks ω} {pc : HookPc}, t.fiber = Function.update s.fiber f pc →
      t.removed = s.removed → t.kernel.generation = s.kernel.generation → pc.io? = none →
      Change s (.call f c hooked) t :=
    fun hfiber hremoved hgeneration hpc => .moved rfl (.off hpc) hfiber hremoved hgeneration
  cases c with
  | io fn fd =>
    simp only [Hooks.call] at hs
    split at hs
    · cases hs; exact hout rfl rfl rfl rfl
    split at hs
    · cases hs
    · split at hs
      · cases hs
      split at hs
      · cases hs; exact hout rfl rfl rfl rfl
      split at hs
      · cases hs; exact hout rfl rfl rfl rfl
      · cases hs
        exact .moved rfl (.starts rfl rfl) rfl rfl rfl
    · cases hs; exact hout rfl rfl rfl rfl
  | socket => cases hs; exact hout rfl rfl rfl rfl
  | close fd =>
    simp only [Hooks.call] at hs
    split at hs
    · cases hs; exact hout rfl rfl rfl rfl
    split at hs
    · cases hs
    · cases hs; exact hout rfl rfl rfl rfl
    · cases hs; exact hout rfl rfl rfl rfl
  | setsockopt fd type ms =>
    simp only [Hooks.call] at hs
    split at hs
    · cases hs; exact hout rfl rfl rfl rfl
    split at hs
    · cases hs
    · cases hs; exact hout rfl rfl rfl rfl
    · cases hs; exact hout rfl rfl rfl rfl
  | fcntlSetfl fd nonblock =>
    simp only [Hooks.call] at hs
    split at hs
    · cases hs
    · split at hs
      · cases hs
      split at hs
      · cases hs; exact hout rfl rfl rfl rfl
      · cases hs; exact hout rfl rfl rfl rfl
    · cases hs; exact hout rfl rfl rfl rfl

omit [DecidableEq ω] in
/-- The end of a system call whose result is the result of the call. -/
theorem change_of_finish {s s' t : Hooks ω} {f : FiberId} {fn : IoFun} {fd : Int} {i : HookInput}
    {k : Kernel} {e : HookEffect} (hk : syscall s.kernel fn fd i = some k)
    (hs : t.finish f fn fd i = (e, s')) (hfiber : t.fiber = s.fiber)
    (hremoved : t.removed = s.removed) (hkernel : t.kernel = k)
    (hn : fn = .accept ∧ 0 ≤ i.ret → s.handsOut (.step f i) = some i.ret) :
    Change s (.step f i) s' := by
  unfold Hooks.finish at hs
  rcases syscall_generation hk with ⟨hfn, hret, rfl⟩ | ⟨hno, rfl⟩
  · rw [if_pos ⟨hfn, hret⟩] at hs
    cases hs
    exact .handOut rfl rfl (hn ⟨hfn, hret⟩) (by simp [goto, hfiber]; rfl) hremoved
      (by simp [goto, hkernel])
  · rw [if_neg hno] at hs
    cases hs
    exact .moved rfl (.off rfl) (by simp [goto, hfiber]; rfl) hremoved (by simp [goto, hkernel])

/-- A step of a call of the event table; the last one leads to `pc`. -/
theorem change_of_table {s s' : Hooks ω} {f : FiberId} {i : HookInput} {e : HookEffect}
    {op : TableOp Unit Unit (HookThread ω)} {pc : HookPc} (hpc : pc.io? = none)
    (hs : (s.actTable op).map (fun r => (({} : HookEffect), if r.1.isSome then r.2.goto f pc else r.2)) =
      some (e, s')) :
    Change s (.step f i) s' := by
  rcases Option.map_eq_some_iff.mp hs with ⟨⟨ret, t⟩, hact, hnext⟩
  rcases actTable_frame hact with ⟨hfiber, hremoved, hkernel, -⟩
  dsimp only at hnext
  split at hnext
  · cases hnext
    exact .moved rfl (.off hpc) (by rw [goto, hfiber]) hremoved (by simp [goto, hkernel])
  · cases hnext
    exact .same hfiber hremoved (by rw [hkernel])

theorem change_of_step {s s' : Hooks ω} {f : FiberId} {i : HookInput} {e : HookEffect}
    (hs : s.step f i = some (e, s')) : Change s (.step f i) s' := by
  unfold step at hs
  cases hpc : s.fiber f with
  | out => rw [hpc] at hs; cases hs
  | direct fn fd =>
    rw [hpc] at hs
    rcases Option.map_eq_some_iff.mp hs with ⟨k, hk, hfinish⟩
    refine change_of_finish hk hfinish rfl rfl rfl ?_
    rintro ⟨rfl, hret⟩
    simp [handsOut, hpc, Int.not_lt.mpr hret]
  | attempt io =>
    rw [hpc] at hs
    rcases Option.map_eq_some_iff.mp hs with ⟨k, hk, hnext⟩
    dsimp only at hnext
    split at hnext
    · next hintr =>
      cases hnext
      -- a number is handed out only by a call that succeeds
      rcases syscall_generation hk with ⟨-, hret, -⟩ | ⟨-, rfl⟩
      · omega
      · exact .same rfl rfl rfl
    split at hnext
    · next hagain =>
      cases hnext
      rcases syscall_generation hk with ⟨-, hret, -⟩ | ⟨-, rfl⟩
      · omega
      · exact .moved rfl (.on (by rw [hpc]; rfl) (by rw [hpc]; rfl) rfl) rfl rfl rfl
    · refine change_of_finish hk hnext rfl rfl rfl ?_
      rintro ⟨hfn, hret⟩
      simp [handsOut, hpc, hfn, hret]
  | arm io =>
    rw [hpc] at hs
    dsimp only at hs
    split at hs
    · cases hs
      exact .moved rfl (.on (by rw [hpc]; rfl) (by rw [hpc]; rfl) rfl) rfl rfl rfl
    · rcases Option.map_eq_some_iff.mp hs with ⟨r, -, hnext⟩
      cases hnext
      exact .moved rfl (.on (by rw [hpc]; rfl) (by rw [hpc]; rfl) rfl) rfl rfl rfl
  | addEvent io timer =>
    rw [hpc] at hs
    rcases Option.bind_eq_some_iff.mp hs with ⟨⟨ret, t⟩, hact, hnext⟩
    rcases actTable_frame hact with ⟨hfiber, hremoved, hkernel, -⟩
    dsimp only at hnext
    split at hnext
    · cases hnext
      exact .same hfiber hremoved (by rw [hkernel])
    · cases hnext
      exact .moved rfl (.waits rfl) (by rw [goto, hfiber]) hremoved (by simp [goto, hkernel])
    · rcases Option.map_eq_some_iff.mp hnext with ⟨u, hu, hleave⟩
      rcases cancelTimer_frame hu with ⟨hfiber', hremoved', hkernel'⟩
      cases hleave
      exact .moved rfl (.off rfl) (by simp [goto, drop, hfiber', hfiber]; rfl)
        (by simp [goto, drop, hremoved', hremoved]) (by simp [goto, drop, hkernel', hkernel])
  | waiting io timer =>
    rw [hpc] at hs
    dsimp only at hs
    split at hs
    · cases hs
      exact .moved rfl (.waits rfl) rfl rfl rfl
    · cases hs
  | woken io timer =>
    rw [hpc] at hs
    rcases Option.map_eq_some_iff.mp hs with ⟨u, hu, hnext⟩
    rcases cancelTimer_frame hu with ⟨hfiber, hremoved, hkernel⟩
    cases hnext
    exact .moved rfl (.waits rfl) (by rw [goto, hfiber]) hremoved (by simp [goto, hkernel])
  | check io =>
    rw [hpc] at hs
    dsimp only at hs
    split at hs
    · cases hs
    · next tinfo htinfo =>
      split at hs
      · cases hs
        exact .moved rfl (.off rfl) rfl rfl rfl
      · next hcancelled =>
        cases hs
        exact .moved rfl (.retries rfl hpc htinfo (not_not.mp hcancelled)) rfl rfl rfl
  | socket hooked =>
    rw [hpc] at hs
    dsimp only at hs
    split at hs
    · cases hs
      exact .moved rfl (.off rfl) rfl rfl rfl
    · next hret =>
      have hn : s.handsOut (.step f i) = some i.ret := by simp [handsOut, hpc, hret]
      split at hs
      · cases hs
      · split at hs
        · cases hs
          exact .handOut rfl rfl hn rfl rfl rfl
        · cases hs
          exact .handOut rfl rfl hn rfl rfl rfl
  | adopt fd =>
    rw [hpc] at hs
    dsimp only at hs
    split at hs
    · cases hs
    · cases hs
      exact .moved rfl (.off rfl) rfl rfl rfl
    · cases hs
      exact .moved rfl (.off rfl) rfl rfl rfl
  | create fd =>
    rw [hpc] at hs
    cases hs
    exact .moved rfl (.off rfl) rfl rfl (FdCtx.generation_init s.kernel fd)
  | cancelAll fd =>
    rw [hpc] at hs
    exact change_of_table rfl hs
  | del fd =>
    rw [hpc] at hs
    rcases Option.map_eq_some_iff.mp hs with ⟨fds, -, hnext⟩
    cases hnext
    cases hat : s.fds.at? fd with
    | none => exact .moved rfl (.off rfl) rfl (by simp [goto]) rfl
    | some a => exact .remove rfl rfl rfl (by simp [goto]; rfl) rfl
  | close fd =>
    rw [hpc] at hs
    dsimp only at hs
    split at hs
    · cases hs
      exact .moved rfl (.off rfl) rfl rfl rfl
    · cases hs
      exact .moved rfl (.off rfl) rfl rfl rfl
  | cancelEvent fd event =>
    rw [hpc] at hs
    exact change_of_table rfl hs

theorem change_of_act {s s' : Hooks ω} {a : HookAction ω} {e : HookEffect}
    (hs : s.act a = some (e, s')) : Change s a s' := by
  unfold Hooks.act at hs
  split at hs
  · cases hs
  cases a with
  | call f c hooked =>
    dsimp only at hs
    split at hs
    · exact change_of_call hs
    · cases hs
  | step f i => exact change_of_step hs
  | timeout f i =>
    dsimp only at hs
    split at hs
    · unfold Hooks.timeout at hs
      split at hs
      · cases hs
      dsimp only at hs
      split at hs
      · cases hs
        exact .same rfl rfl rfl
      split at hs
      · cases hs
      split at hs
      · cases hs
        exact .same rfl rfl rfl
      · cases hs
        exact .moved rfl (.off rfl) rfl rfl rfl
    · cases hs
  | expire nowTimer now =>
    rcases Option.map_eq_some_iff.mp hs with ⟨r, -, hnext⟩
    cases hnext
    exact .same rfl rfl rfl
  | epollWait w reports =>
    rcases Option.map_eq_some_iff.mp hs with ⟨⟨ret, t⟩, hact, hnext⟩
    rcases actTable_frame hact with ⟨hfiber, hremoved, hkernel, -⟩
    cases hnext
    exact .same hfiber hremoved (by rw [hkernel])
  | dispatch w ok =>
    rcases Option.map_eq_some_iff.mp hs with ⟨⟨ret, t⟩, hact, hnext⟩
    rcases actTable_frame hact with ⟨hfiber, hremoved, hkernel, -⟩
    cases hnext
    exact .same hfiber hremoved (by rw [hkernel])

omit [DecidableEq ω] in
/-- A step moves one fiber. -/
theorem Change.fiber_of_ne {s s' : Hooks ω} {a : HookAction ω} (h : Change s a s') {g : FiberId}
    (hg : fiberOf a ≠ some g) : s'.fiber g = s.fiber g := by
  cases h with
  | same hfiber _ _ => rw [hfiber]
  | @moved f _ hf _ hfiber _ _ | @handOut f _ _ hf _ _ hfiber _ _ | @remove f _ _ hf _ hfiber _ _ =>
    have hne : g ≠ f := fun heq => hg (by rw [hf, heq])
    rw [hfiber, Function.update_of_ne hne]

/-! ## The invariant -/

def Inv (s : Hooks ω) : Prop :=
  ∀ g io, (s.fiber g).io? = some io → io.retry = true → s.Recycled io → (s.fiber g).waits = true

omit [DecidableEq ω] in
/-- No object has lost a number that is handed out now, but those of calls that wait. -/
theorem Change.recycled {s s' : Hooks ω} {a : HookAction ω} (h : Change s a s')
    (hcareful : s.Careful a) {g : FiberId} {io : DoIo} (hblocked : Blocked (s.fiber g) io)
    (hrec : s'.Recycled io) : s.Recycled io ∨ (s.fiber g).waits = true := by
  rcases hrec with ⟨generation, hgone, hlt⟩
  cases h with
  | same _ hremoved hgeneration | moved _ _ _ hremoved hgeneration =>
    rw [hremoved] at hgone
    rw [hgeneration] at hlt
    exact Or.inl ⟨generation, hgone, hlt⟩
  | @handOut f _ n _ _ hn _ hremoved hgeneration =>
    rw [hremoved] at hgone
    by_cases hfd : io.fd = n
    · exact Or.inr (hcareful.handsOut n hn g io hblocked hfd (Option.isSome_of_mem hgone))
    · rw [hgeneration, Kernel.generation_handOut_of_ne _ hfd] at hlt
      exact Or.inl ⟨generation, hgone, hlt⟩
  | @remove f _ c _ _ _ hremoved hgeneration =>
    rw [hremoved] at hgone
    rw [hgeneration] at hlt
    by_cases hctx : io.ctx = c
    · subst hctx
      rw [Function.update_self] at hgone
      cases hold : s.removed io.ctx with
      | none =>
        -- the object is removed just now
        rw [hold] at hgone
        cases hgone
        exact absurd hlt (Nat.lt_irrefl _)
      | some old =>
        rw [hold] at hgone
        cases hgone
        exact Or.inl ⟨_, hold, hlt⟩
    · rw [Function.update_of_ne hctx] at hgone
      exact Or.inl ⟨generation, hgone, hlt⟩

omit [DecidableEq ω] in
theorem Inv.change {s s' : Hooks ω} {a : HookAction ω} (h : s.Inv) (hcareful : s.Careful a)
    (hchange : Change s a s') : s'.Inv := by
  -- a fiber that has stayed where it was
  have hstay : ∀ g io, (s.fiber g).io? = some io → io.retry = true → s'.Recycled io →
      (s.fiber g).waits = true := by
    intro g io hio hretry hrec
    rcases hchange.recycled hcareful ⟨hio, Or.inl hretry⟩ hrec with hold | hwaits
    · exact h g io hio hretry hold
    · exact hwaits
  intro g io hio hretry hrec
  by_cases hg : fiberOf a = some g
  · cases hchange with
    | same hfiber _ _ =>
      rw [hfiber] at hio ⊢
      exact hstay g io hio hretry hrec
    | @moved f pc hf hpc hfiber hremoved hgeneration =>
      rw [hg] at hf
      cases hf
      rw [hfiber, Function.update_self] at hio ⊢
      cases hpc with
      | off hnone => rw [hnone] at hio; cases hio
      | starts hsome hfirst =>
        rw [hsome] at hio
        cases hio
        rw [hfirst] at hretry
        cases hretry
      | waits hwaits => exact hwaits
      | on hold hwaits hsome =>
        rw [hsome] at hio
        cases hio
        rw [hstay g io hold hretry hrec] at hwaits
        cases hwaits
      | @retries i old tinfo ha hcheck htinfo hcancelled =>
        cases hio
        -- the retry is for a number that has not been handed out again
        rw [recycled_congr hremoved hgeneration] at hrec
        exact absurd hcancelled (hcareful.check g i old ha hcheck hrec tinfo htinfo)
    | @handOut f pc n hf hpc _ hfiber _ _ | @remove f pc c hf hpc hfiber _ _ =>
      rw [hg] at hf
      cases hf
      rw [hfiber, Function.update_self, hpc] at hio
      cases hio
  · rw [hchange.fiber_of_ne hg] at hio ⊢
    exact hstay g io hio hretry hrec

abbrev CarefulStep : Hooks ω → Event ω → Hooks ω → Prop := Guarded (fun s e => s.Careful e.1) Step

/-- In a run that keeps to the condition, a call of `do_io` that has blocked makes no system call
any more once its `FdCtx` has been removed and its number handed out again, and when it returns it
returns an error. -/
theorem recycled_untouched {now : UInt64} {hist : List (Event ω)} {s s' : Hooks ω} {e : Event ω}
    (hrun : Run CarefulStep (new now) hist s) (hs : CarefulStep s e s') {f : FiberId}
    {i : HookInput} (hact : e.1 = .step f i) {io : DoIo} (hblocked : Blocked (s.fiber f) io)
    (hrecycled : s.Recycled io) : e.2.syscall = none ∧ ∀ r ∈ e.2.ret, r.1 = -1 := by
  have hinv : s.Inv := hrun.invariant Inv (by simp [Inv, new, HookPc.io?])
    fun _ _ _ h hs => h.change hs.1 (change_of_act hs.2)
  rcases e with ⟨a, eff⟩
  cases hact
  -- a blocked call on a number that was handed out again has not come back to `retry`
  have hwaits : (s.fiber f).waits = true := by
    rcases hblocked.2 with hretry | hwaits
    · exact hinv f io hblocked.1 hretry hrecycled
    · exact hwaits
  have hstep : s.step f i = some (eff, s') := by
    have hact := hs.2
    unfold Step Hooks.act at hact
    split at hact
    · cases hact
    · exact hact
  unfold step at hstep
  cases hpc : s.fiber f with
  | waiting io' timer =>
    rw [hpc] at hstep
    dsimp only at hstep
    split at hstep
    · cases hstep
      exact ⟨rfl, by simp⟩
    · cases hstep
  | woken io' timer =>
    rw [hpc] at hstep
    rcases Option.map_eq_some_iff.mp hstep with ⟨u, -, hnext⟩
    cases hnext
    exact ⟨rfl, by simp⟩
  | check io' =>
    rw [hpc] at hstep
    dsimp only at hstep
    split at hstep
    · cases hstep
    · split at hstep
      · cases hstep
        exact ⟨rfl, by simp⟩
      · cases hstep
        exact ⟨rfl, by simp⟩
  | _ => simp [hpc, HookPc.waits] at hwaits

/-- The condition, for a run that has only used the fibers below `n`. -/
def carefulBelow (n : Nat) (s : Hooks ω) (a : HookAction ω) : Bool :=
  (fiberOf a).all (· < n) &&
  (s.handsOut a).all (fun fd => (List.range n).all fun g => ((s.fiber g).io?).all fun io =>
    io.fd ≠ fd || (s.removed io.ctx).isNone || (s.fiber g).waits) &&
  match a with
  | .step f _ =>
    match s.fiber f with
    | .check io =>
      (s.removed io.ctx).all (fun generation =>
        s.kernel.generation io.fd ≤ generation io.fd) ||
        (s.tinfos[io.tinfo]?).all fun tinfo => tinfo.cancelled ≠ 0
    | _ => true
  | _ => true

omit [DecidableEq ω] in
theorem careful_of_below {n : Nat} {s : Hooks ω} {a : HookAction ω}
    (hfree : ∀ g, n ≤ g → s.fiber g = .out) (h : s.carefulBelow n a = true) : s.Careful a := by
  simp only [carefulBelow, Bool.and_eq_true] at h
  constructor
  · intro fd hfd g io hblocked hio hremoved
    by_cases hg : g < n
    · have := h.1.2
      simp only [hfd, Option.all_some, List.all_eq_true, List.mem_range] at this
      have := this g hg
      rw [hblocked.1] at this
      simpa [hio, Option.isSome_iff_ne_none.mp hremoved] using this
    · have := hblocked.1
      rw [hfree g (Nat.le_of_not_lt hg)] at this
      cases this
  · rintro f i io rfl hcheck ⟨generation, hgone, hlt⟩ tinfo htinfo
    have := h.2
    simp only [hcheck, Option.mem_def.mp hgone, Option.mem_def.mp htinfo, Option.all_some,
      Bool.or_eq_true, decide_eq_true_eq] at this
    omega

theorem run_of_carefulBelow {n : Nat} {now : UInt64} {as : List (HookAction ω)}
    {hist : List (Event ω)} {s : Hooks ω}
    (h : runActs (fun s a => if s.carefulBelow n a then act s a else none) (new now) as =
      some (hist, s)) :
    Run CarefulStep (new now) hist s ∧ ∀ g, n ≤ g → s.fiber g = .out := by
  have hrun := run_of_runActs (fun s a => s.carefulBelow n a = true) (carefulBelow n)
    (fun _ _ h => h) h
  apply hrun.history_invariant
    fun hist s => Run CarefulStep (new now) hist s ∧ ∀ g, n ≤ g → s.fiber g = .out
  · exact ⟨.nil _, fun _ _ => rfl⟩
  · rintro hist s ⟨a, e⟩ t ⟨hrun, hfree⟩ ⟨hbelow, hact⟩
    refine ⟨hrun.snoc ⟨careful_of_below hfree hbelow, hact⟩, fun g hg => ?_⟩
    rw [(change_of_act hact).fiber_of_ne, hfree g hg]
    intro hf
    simp only [carefulBelow, hf, Option.all_some, Bool.and_eq_true, decide_eq_true_eq] at hbelow
    omega

/-- Fiber 1 waits in `read(5)` for 100 ms at most, its time is over before fiber 2 gets the number
again, and it returns `ETIMEDOUT`. -/
theorem recycled_untouched_late : ∃ (hist : List (Event Unit)) (s s' : Hooks Unit)
    (e : Event Unit) (i : HookInput) (io : DoIo), Run CarefulStep (new 0) hist s ∧
      CarefulStep s e s' ∧ e.1 = .step 1 i ∧ Blocked (s.fiber 1) io ∧ s.Recycled io ∧
      e.2.ret = some (-1, ETIMEDOUT) ∧ e.2.syscall = none ∧ ∀ r ∈ e.2.ret, r.1 = -1 := by
  let io : DoIo := { fn := .read, fd := 5, ctx := 0, timeout := 100, tinfo := 0 }
  -- socket 5 is closed and handed out again while the fiber 1 waits for it, and its timer fires
  have hlast : (runActs (fun s a => if s.carefulBelow 4 a then act s a else none)
      (new 0 : Hooks Unit)
      [.call 1 .socket true, .step 1 { ret := 5 }, .step 1 {}, .step 1 {},
        .call 1 (.setsockopt 5 .rcvtimeo 100) true,
        .call 1 (.io .read 5) true, .step 1 { ret := -1, errno := EAGAIN }, .step 1 {},
        .step 1 {}, .step 1 {},
        .call 2 (.close 5) true, .step 2 {}, .step 2 {}, .step 2 {}, .step 2 {},
        .expire 9 200, .timeout 3 0, .step 3 {}, .step 3 {},
        .call 2 .socket true, .step 2 { ret := 5 },
        .step 1 {}, .step 1 {}]).map (fun r =>
          (r.2.fiber 1, (r.2.removed 0).map (fun g => decide (g 5 < r.2.kernel.generation 5)),
            r.2.carefulBelow 4 (.step 1 {}), (r.2.act (.step 1 {})).map fun r => r.1)) =
      some (.check io, some true, true, some { ret := some (-1, ETIMEDOUT) }) := by
    decide
  rcases Option.map_eq_some_iff.mp hlast with ⟨⟨hist, s⟩, hs, hvalues⟩
  simp only [Prod.mk.injEq] at hvalues
  rcases hvalues with ⟨hfiber, hremoved, hcareful, hact⟩
  rcases Option.map_eq_some_iff.mp hremoved with ⟨generation, hgone, hlt⟩
  rcases Option.map_eq_some_iff.mp hact with ⟨⟨eff, s'⟩, hstep, heff⟩
  cases heff
  rcases run_of_carefulBelow hs with ⟨hrun, hfree⟩
  have hlate : CarefulStep s (.step 1 {}, { ret := some (-1, ETIMEDOUT) }) s' :=
    ⟨careful_of_below hfree hcareful, hstep⟩
  have hblocked : Blocked (s.fiber 1) io := by
    rw [hfiber]
    exact ⟨rfl, Or.inr rfl⟩
  have hrecycled : s.Recycled io := ⟨generation, hgone, of_decide_eq_true hlt⟩
  exact ⟨hist, s, s', _, _, io, hrun, hlate, rfl, hblocked, hrecycled, rfl,
    recycled_untouched hrun hlate rfl hblocked hrecycled⟩

/-- Fiber 1 waits in `read(5)` when fiber 2 closes the socket and gets the number again from
`socket`; fiber 1 retries, and reads from the new socket. -/
theorem recycled_read : ∃ (hist : List (Event Unit)) (s s' : Hooks Unit) (e : Event Unit)
    (i : HookInput) (io : DoIo), Run Step (new 0) hist s ∧ Step s e s' ∧ e.1 = .step 1 i ∧
      Blocked (s.fiber 1) io ∧ s.Recycled io ∧ e.2.syscall = some io.fd ∧
      e.2.ret = some (3, 0) := by
  let io : DoIo := { fn := .read, fd := 5, ctx := 0, timeout := ~~~0, tinfo := 0, retry := true }
  have hlast : (runActs (fun s a => if true then act s a else none) (new 0 : Hooks Unit)
      [.call 1 .socket true, .step 1 { ret := 5 }, .step 1 {}, .step 1 {},
        .call 1 (.io .read 5) true, .step 1 { ret := -1, errno := EAGAIN }, .step 1 {},
        .step 1 {}, .step 1 {},
        .call 2 (.close 5) true, .step 2 {}, .step 2 {}, .step 2 {}, .step 2 {},
        .call 2 .socket true, .step 2 { ret := 5 },
        .step 1 {}, .step 1 {}, .step 1 {}]).map (fun r =>
          (r.2.fiber 1, (r.2.removed 0).map (fun g => decide (g 5 < r.2.kernel.generation 5)),
            (r.2.act (.step 1 { ret := 3 })).map fun r => r.1)) =
      some (.attempt io, some true, some { syscall := some 5, ret := some (3, 0) }) := by
    decide
  rcases Option.map_eq_some_iff.mp hlast with ⟨⟨hist, s⟩, hs, hvalues⟩
  simp only [Prod.mk.injEq] at hvalues
  rcases hvalues with ⟨hfiber, hremoved, hact⟩
  rcases Option.map_eq_some_iff.mp hremoved with ⟨generation, hgone, hlt⟩
  rcases Option.map_eq_some_iff.mp hact with ⟨⟨eff, s'⟩, hstep, heff⟩
  cases heff
  have hrun := run_of_runActs (fun _ _ => True) (fun _ _ => true) (fun _ _ _ => trivial) hs
  refine ⟨hist, s, s', (.step 1 { ret := 3 }, _), _, io, hrun.unguarded, hstep, rfl,
    ⟨by rw [hfiber]; rfl, Or.inl rfl⟩, ⟨generation, hgone, of_decide_eq_true hlt⟩, rfl, rfl⟩

end Hooks

end Azure
