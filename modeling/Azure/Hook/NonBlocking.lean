import Azure.Hook.Model
import Azure.Reasoning.Runs

/-!
# Blocking mode (`hook.cpp`, `fdmanager.cpp`)

A managed socket is non-blocking for the kernel, and blocking or not for the user.  `fcntl` and
`ioctl` both change the user's view; here they follow one another, one whole call a step, and the
calls below them succeed.  Of the status flags only `O_NONBLOCK` is kept.
-/

namespace Azure

open Reasoning

namespace FdManager

theorem at?_eq (m : FdManager) (fd : Int) :
    m.at? fd = if fd < 0 then none else (m.data[fd.toNat]?).join := by
  unfold at? find
  by_cases hneg : fd < 0
  · rw [if_pos hneg]
    split
    · next a h =>
      -- no branch of `find` gives an object for a negative number
      split at h
      · cases h
      split at h
      · simp at h
      · cases h
    · rw [if_pos hneg]
  · rw [if_neg hneg, if_neg (by omega), if_neg hneg]
    split
    · next a h =>
      split at h
      · simp at h
      · split at h
        · next b hb =>
          cases h
          rw [hb]
          rfl
        · simp at h
    · next h =>
      split at h
      · next hlen =>
        rw [List.getElem?_eq_none (by omega)]
        rfl
      · split at h
        · next b hb => exact absurd rfl (h b)
        · next hb =>
          cases hget : m.data[fd.toNat]? with
          | none => rfl
          | some slot =>
            cases slot with
            | none => rfl
            | some b => exact absurd hget (hb b)

theorem find_true {m : FdManager} {fd : Int} (hfd : 0 ≤ fd) :
    m.find fd true = some ((m.at? fd).elim .missing .ctx) := by
  rw [at?_eq, if_neg (by omega)]
  unfold find
  rw [if_neg (by omega)]
  split
  · next hlen =>
    rw [List.getElem?_eq_none (by omega)]
    rfl
  · rw [if_neg (by omega)]
    cases hget : m.data[fd.toNat]? with
    | none => rfl
    | some slot => cases slot <;> rfl

theorem find_false (m : FdManager) {fd : Int} (hfd : 0 ≤ fd) :
    m.find fd false = some ((m.at? fd).elim .null .ctx) := by
  rw [at?_eq, if_neg (by omega)]
  unfold find
  rw [if_neg (by omega)]
  split
  · next hlen =>
    rw [List.getElem?_eq_none (by omega)]
    rfl
  · rw [if_neg (by omega)]
    cases hget : m.data[fd.toNat]? with
    | none => rfl
    | some slot => cases slot <;> rfl

/-- A table of at least 64 is long enough for the new object once it has been made longer. -/
theorem at?_create {m : FdManager} (hm : 64 ≤ m.data.length) (ctx : FdCtx) {fd : Int}
    (hfd : 0 ≤ fd) (n : Int) :
    (m.create ctx fd).at? n = if n = fd then some m.ctxs.length else m.at? n := by
  have hslot : ∀ data : List (Option FdCtxAddr), fd.toNat < data.length → 0 ≤ n →
      ((data.set fd.toNat (some m.ctxs.length))[n.toNat]?).join =
        if n = fd then some m.ctxs.length else (data[n.toNat]?).join := by
    intro data hlen hn
    rw [List.getElem?_set]
    by_cases heq : n = fd
    · subst heq
      rw [if_pos rfl, if_pos rfl, if_pos hlen]
      rfl
    · rw [if_neg (by omega), if_neg heq]
  rw [at?_eq, at?_eq]
  by_cases hn : n < 0
  · rw [if_pos hn, if_pos hn, if_neg (by omega)]
  · rw [if_neg hn, if_neg hn]
    unfold create
    dsimp only
    split
    · next hlen =>
      rw [hslot _ (by simp only [List.length_append, List.length_replicate]; omega) (by omega)]
      congr 1
      -- what has been added is empty
      by_cases hold : n.toNat < m.data.length
      · rw [List.getElem?_append_left hold]
      · rw [List.getElem?_append_right (by omega), List.getElem?_eq_none (l := m.data) (by omega)]
        rw [List.getElem?_replicate]
        split <;> rfl
    · rw [hslot _ (by omega) (by omega)]

theorem length_data_create {m : FdManager} (hm : 64 ≤ m.data.length) (ctx : FdCtx) (fd : Int) :
    64 ≤ (m.create ctx fd).data.length := by
  unfold create
  simp only [List.length_set]
  split
  · rw [List.length_append]
    omega
  · exact hm

theorem at?_update (m : FdManager) (a : FdCtxAddr) (f : FdCtx → FdCtx) (fd : Int) :
    (m.update a f).at? fd = m.at? fd := by
  rw [at?_eq, at?_eq]
  rfl

end FdManager

structure Descriptors where
  kernel : Kernel := {}
  fds : FdManager := {}

/-- The hooked calls, with the numbers that `socket` and `accept` return. -/
inductive FlagCall where
  | socket (ret : Int)
  | accept (fd : Int) (ret : Int)
  /-- `fcntl(fd, F_SETFL, arg)` -/
  | setfl (fd : Int) (nonblock : Bool)
  /-- `fcntl(fd, F_GETFL)` -/
  | getfl (fd : Int)
  /-- `ioctl(fd, FIONBIO, arg)` -/
  | fionbio (fd : Int) (nonblock : Bool)
  deriving DecidableEq, Repr

namespace Descriptors

/-- `FdMgr::get(fd, true)` for a number the kernel has just handed out. -/
def adopt (s : Descriptors) (fd : Int) : Option Descriptors :=
  match s.fds.find fd true with
  | none => none
  | some .missing =>
    let (ctx, kernel) := FdCtx.init s.kernel fd
    some { kernel, fds := s.fds.create ctx fd }
  | some _ => some s

/-- `FdMgr::get(fd)`, and the test of `fcntl` and `ioctl` for a socket; `none` is an index outside
of the vector, or no object at the address. -/
def managed (s : Descriptors) (fd : Int) : Option (Option (FdCtxAddr × FdCtx)) :=
  match s.fds.find fd false with
  | none => none
  | some (.ctx a) =>
    match s.fds.ctxs[a]? with
    | none => none
    | some ctx => some (if ctx.isClosed || !ctx.isSocket then none else some (a, ctx))
  | some _ => some none

def setfl (s : Descriptors) (fd : Int) (nonblock : Bool) : Option Descriptors :=
  (s.managed fd).map fun
    | none => { s with kernel := s.kernel.setNonblock fd nonblock }
    | some (a, ctx) => {
        fds := s.fds.update a fun ctx => { ctx with userNonblock := nonblock }
        kernel := s.kernel.setNonblock fd ctx.sysNonblock }

def getfl (s : Descriptors) (fd : Int) : Option Bool :=
  (s.managed fd).map fun
    | none => s.kernel.nonblock fd
    | some (_, ctx) => ctx.userNonblock

/-- `ioctl_f` gets `arg` as it is. -/
def fionbio (s : Descriptors) (fd : Int) (nonblock : Bool) : Option Descriptors :=
  (s.managed fd).map fun
    | none => { s with kernel := s.kernel.setNonblock fd nonblock }
    | some (a, _) => {
        fds := s.fds.update a fun ctx => { ctx with userNonblock := nonblock }
        kernel := s.kernel.setNonblock fd nonblock }

def act (s : Descriptors) : FlagCall → Option (Option Bool × Descriptors)
  | .socket ret =>
    if ret < 0 || s.kernel.isOpen ret then none
    else (adopt { s with kernel := s.kernel.handOut ret } ret).map fun s => (none, s)
  | .accept fd ret =>
    if !s.kernel.isOpen fd || ret < 0 || s.kernel.isOpen ret then none
    else (adopt { s with kernel := s.kernel.handOut ret } ret).map fun s => (none, s)
  | .setfl fd nonblock =>
    if !s.kernel.isOpen fd then none else (s.setfl fd nonblock).map fun s => (none, s)
  | .getfl fd => if !s.kernel.isOpen fd then none else (s.getfl fd).map fun v => (some v, s)
  | .fionbio fd nonblock =>
    if !s.kernel.isOpen fd then none else (s.fionbio fd nonblock).map fun s => (none, s)

abbrev Event := FlagCall × Option Bool

def Step (s : Descriptors) (e : Event) (s' : Descriptors) : Prop := s.act e.1 = some (e.2, s')

/-- Between two steps of other fibers, `F_SETFL` is this call. -/
theorem call_fcntlSetfl {ω : Type} (s : Hooks ω) (f : FiberId) (hooked : Bool) (fd : Int)
    (nonblock : Bool) :
    s.call f hooked (.fcntlSetfl fd nonblock) =
      (setfl { kernel := s.kernel, fds := s.fds } fd nonblock).map fun d =>
        { s with kernel := d.kernel, fds := d.fds }.leave f 0 0 := by
  simp only [Hooks.call, setfl, managed]
  cases hfound : s.fds.find fd false with
  | none => rfl
  | some found =>
    cases found with
    | missing => rfl
    | null => rfl
    | ctx a =>
      cases hctx : s.fds.ctxs[a]? with
      | none => simp only [hctx, Option.map_none]
      | some ctx =>
        simp only [hctx, Option.map_some]
        by_cases hpass : (ctx.isClosed || !ctx.isSocket) = true
        · simp only [if_pos hpass]
        · simp only [if_neg hpass]

/-! ## What the user has asked for -/

/-- What the latest `F_SETFL` or `FIONBIO` has asked for, off for a new socket. -/
def asked (fd : Int) (hist : List Event) : Bool :=
  hist.foldl (fun v e =>
    match e.1 with
    | .socket ret | .accept _ ret => if ret = fd then false else v
    | .setfl n nonblock | .fionbio n nonblock => if n = fd then nonblock else v
    | .getfl _ => v) false

/-- For every managed socket the kernel's flag is set, and `F_GETFL` answers as the user asked. -/
def Virtualised (hist : List Event) (s : Descriptors) : Prop :=
  ∀ fd a ctx, s.managed fd = some (some (a, ctx)) →
    s.kernel.nonblock fd = true ∧ s.getfl fd = some (asked fd hist)

/-- The call is no `FIONBIO` that switches a managed socket to blocking mode. -/
def Translated (s : Descriptors) : FlagCall → Prop
  | .fionbio fd nonblock => (s.managed fd).join.isSome → nonblock = true
  | _ => True

instance (s : Descriptors) (c : FlagCall) : Decidable (s.Translated c) := by
  unfold Translated
  split <;> infer_instance

/-! ## One call -/

structure Kept (hist : List Event) (s : Descriptors) : Prop where
  size : 64 ≤ s.fds.data.length
  objects : ∀ fd a, s.fds.at? fd = some a → ∃ ctx, s.fds.ctxs[a]? = some ctx ∧ ctx.fd = fd ∧
    s.kernel.isOpen fd = true ∧ ctx.isClosed = false ∧ ctx.isSocket = true ∧
    ctx.sysNonblock = true ∧ ctx.userNonblock = asked fd hist

/-- The kernel's flag is set for every managed socket. -/
def NonBlocking (s : Descriptors) : Prop :=
  ∀ fd a ctx, s.managed fd = some (some (a, ctx)) → s.kernel.nonblock fd = true

theorem at?_of_managed {s : Descriptors} {fd : Int} {a : FdCtxAddr} {ctx : FdCtx}
    (h : s.managed fd = some (some (a, ctx))) :
    s.fds.at? fd = some a ∧ s.fds.ctxs[a]? = some ctx ∧ ctx.isClosed = false ∧
      ctx.isSocket = true := by
  unfold managed at h
  unfold FdManager.at?
  split at h
  · cases h
  · next b hb =>
    rw [hb]
    split at h
    · cases h
    · next c hc =>
      split at h
      · cases h
      · next hopen =>
        cases h
        simpa [hc] using hopen
  · cases h

theorem managed_of_at? {s : Descriptors} {fd : Int} {a : FdCtxAddr} {ctx : FdCtx}
    (hat : s.fds.at? fd = some a) (hctx : s.fds.ctxs[a]? = some ctx) (hopen : ctx.isClosed = false)
    (hsocket : ctx.isSocket = true) : s.managed fd = some (some (a, ctx)) := by
  have hfd : 0 ≤ fd := by
    by_contra hneg
    rw [FdManager.at?_eq, if_pos (by omega)] at hat
    cases hat
  unfold managed
  rw [FdManager.find_false _ hfd, hat]
  simp only [Option.elim_some, hctx, hopen, hsocket, Bool.not_true, Bool.or_self,
    Bool.false_eq_true, if_false]

theorem adopt_handOut {s : Descriptors} {ret : Int} (hret : 0 ≤ ret)
    (hfree : s.fds.at? ret = none) :
    adopt { s with kernel := s.kernel.handOut ret } ret = some {
      kernel := (s.kernel.handOut ret).setNonblock ret true
      fds := s.fds.create { isInit := true, isSocket := true, sysNonblock := true, fd := ret } ret } := by
  unfold adopt
  dsimp only
  rw [FdManager.find_true hret, hfree]
  simp [FdCtx.init, Kernel.handOut]

section Adopt

variable {hist : List Event} {s : Descriptors} {ret : Int}

theorem Kept.free (h : Kept hist s) (hclosed : s.kernel.isOpen ret = false) :
    s.fds.at? ret = none := by
  by_contra hsome
  rcases Option.ne_none_iff_exists'.mp hsome with ⟨a, ha⟩
  rcases h.objects ret a ha with ⟨ctx, -, -, hopen, -⟩
  rw [hclosed] at hopen
  cases hopen

/-- A number that is handed out gets an object. -/
theorem Kept.adopt (h : Kept hist s) (hret : 0 ≤ ret) (hclosed : s.kernel.isOpen ret = false)
    {e : Event} (he : ∀ fd, asked fd (hist ++ [e]) = if ret = fd then false else asked fd hist)
    {s' : Descriptors} (hs' : Descriptors.adopt { s with kernel := s.kernel.handOut ret } ret = some s') :
    Kept (hist ++ [e]) s' ∧ (s.NonBlocking → s'.NonBlocking) := by
  rw [adopt_handOut hret (h.free hclosed), Option.some.injEq] at hs'
  subst hs'
  have hat := FdManager.at?_create h.size
    { isInit := true, isSocket := true, sysNonblock := true, fd := ret } hret
  -- the objects that were there keep their places
  have hold : ∀ (ctx' : FdCtx) {b : FdCtxAddr} {ctx : FdCtx}, s.fds.ctxs[b]? = some ctx →
      (s.fds.ctxs ++ [ctx'])[b]? = some ctx := by
    intro ctx' b ctx hb
    rw [List.getElem?_append_left (List.getElem?_eq_some_iff.mp hb).choose, hb]
  refine ⟨⟨FdManager.length_data_create h.size _ _, ?_⟩, ?_⟩
  · intro fd a ha
    rw [hat] at ha
    split at ha
    · next heq =>
      cases ha
      subst heq
      refine ⟨_, List.getElem?_concat_length, rfl, ?_, rfl, rfl, rfl, ?_⟩
      · simp [Kernel.setNonblock, Kernel.handOut]
      · rw [he, if_pos rfl]
    · next hne =>
      rcases h.objects fd a ha with ⟨ctx, hctx, hfd, hopen, hclosed', hsocket, hsys, huser⟩
      refine ⟨ctx, hold _ hctx, hfd, ?_, hclosed', hsocket, hsys, ?_⟩
      · simp [Kernel.setNonblock, Kernel.handOut, Function.update_of_ne hne, hopen]
      · rw [he, if_neg (fun heq => hne heq.symm), huser]
  · intro hnb fd a ctx hm
    rcases at?_of_managed hm with ⟨ha, hctx, hopen, hsocket⟩
    rw [hat] at ha
    split at ha
    · next heq =>
      subst heq
      simp [Kernel.setNonblock]
    · next hne =>
      rcases h.objects fd a ha with ⟨ctx₀, hctx₀, -⟩
      -- an object is found where it was before
      have hsame : ctx₀ = ctx := by
        have hnew := hold { isInit := true, isSocket := true, sysNonblock := true, fd := ret } hctx₀
        exact Option.some.inj (hnew.symm.trans hctx)
      subst hsame
      have hkernel := hnb fd a ctx₀ (managed_of_at? ha hctx₀ hopen hsocket)
      simp [Kernel.setNonblock, Kernel.handOut, Function.update_of_ne hne, hkernel]

end Adopt

section Flag

variable {hist : List Event} {s s' : Descriptors} {fd : Int}

theorem Kept.managed_none (h : Kept hist s) (hm : s.managed fd = some none) :
    s.fds.at? fd = none := by
  by_contra hsome
  rcases Option.ne_none_iff_exists'.mp hsome with ⟨a, ha⟩
  rcases h.objects fd a ha with ⟨ctx, hctx, -, -, hclosed, hsocket, -⟩
  rw [managed_of_at? ha hctx hclosed hsocket] at hm
  cases hm

/-- `F_SETFL` and `FIONBIO` store `v` for the user and give the kernel `k ctx`. -/
theorem Kept.flag (h : Kept hist s) {v : Bool} {k : FdCtx → Bool} {e : Event}
    (he : ∀ n, asked n (hist ++ [e]) = if n = fd then v else asked n hist)
    (hs' : (s.managed fd).map (fun
      | none => { s with kernel := s.kernel.setNonblock fd v }
      | some (a, ctx) => {
          fds := s.fds.update a fun ctx => { ctx with userNonblock := v }
          kernel := s.kernel.setNonblock fd (k ctx) : Descriptors }) = some s') :
    Kept (hist ++ [e]) s' ∧
      (s.NonBlocking → (∀ p ∈ (s.managed fd).join, k p.2 = true) → s'.NonBlocking) := by
  rcases Option.map_eq_some_iff.mp hs' with ⟨r, hr, rfl⟩
  cases r with
  | none =>
    have hnone := h.managed_none hr
    have hne : ∀ n a, s.fds.at? n = some a → n ≠ fd := by
      rintro n a ha rfl
      rw [hnone] at ha
      cases ha
    refine ⟨⟨h.size, fun n a ha => ?_⟩, fun hnb _ n a ctx hm => ?_⟩
    · rcases h.objects n a ha with ⟨ctx, hctx, hfd, hopen, hclosed, hsocket, hsys, huser⟩
      exact ⟨ctx, hctx, hfd, hopen, hclosed, hsocket, hsys, by rw [he, if_neg (hne n a ha), huser]⟩
    · have hkernel := hnb n a ctx hm
      simpa [Kernel.setNonblock, Function.update_of_ne (hne n a (at?_of_managed hm).1)] using hkernel
  | some p =>
    rcases p with ⟨b, ctx₀⟩
    rcases at?_of_managed hr with ⟨hb, hctx₀, -⟩
    have hget : ∀ a, (s.fds.update b fun ctx => { ctx with userNonblock := v }).ctxs[a]? =
        (s.fds.ctxs[a]?).map fun ctx => if b = a then { ctx with userNonblock := v } else ctx := by
      intro a
      show (s.fds.ctxs.modify b _)[a]? = _
      rw [List.getElem?_modify]
      cases s.fds.ctxs[a]? with
      | none => rfl
      | some ctx => by_cases hab : b = a <;> simp [hab]
    -- one address belongs to one number
    have hinj : ∀ n a, s.fds.at? n = some a → (b = a ↔ n = fd) := by
      intro n a ha
      constructor
      · rintro rfl
        rcases h.objects n b ha with ⟨ctx, hctx, hn, -⟩
        rcases h.objects fd b hb with ⟨ctx', hctx', hfd, -⟩
        rw [hctx, Option.some.injEq] at hctx'
        rw [← hn, hctx', hfd]
      · rintro rfl
        rw [hb, Option.some.injEq] at ha
        exact ha
    refine ⟨⟨?_, fun n a ha => ?_⟩, fun hnb hk n a ctx hm => ?_⟩
    · exact h.size
    · rw [FdManager.at?_update] at ha
      rcases h.objects n a ha with ⟨ctx, hctx, hfd, hopen, hclosed, hsocket, hsys, huser⟩
      refine ⟨if b = a then { ctx with userNonblock := v } else ctx, by rw [hget, hctx]; rfl, ?_⟩
      by_cases hab : b = a
      · rw [if_pos hab]
        exact ⟨hfd, hopen, hclosed, hsocket, hsys, by rw [he, if_pos ((hinj n a ha).mp hab)]⟩
      · rw [if_neg hab]
        refine ⟨hfd, hopen, hclosed, hsocket, hsys, ?_⟩
        rw [he, if_neg (fun hn => hab ((hinj n a ha).mpr hn)), huser]
    · by_cases hn : n = fd
      · subst hn
        have := hk (b, ctx₀) (by rw [hr]; rfl)
        simpa [Kernel.setNonblock] using this
      · rcases at?_of_managed hm with ⟨ha, -⟩
        rw [FdManager.at?_update] at ha
        rcases h.objects n a ha with ⟨ctx', hctx', -, -, hclosed', hsocket', -⟩
        have hkernel := hnb n a ctx' (managed_of_at? ha hctx' hclosed' hsocket')
        simpa [Kernel.setNonblock, Function.update_of_ne hn] using hkernel

end Flag

/-! ## Runs -/

theorem asked_snoc (fd : Int) (hist : List Event) (e : Event) :
    asked fd (hist ++ [e]) =
      match e.1 with
      | .socket ret | .accept _ ret => if ret = fd then false else asked fd hist
      | .setfl n nonblock | .fionbio n nonblock => if n = fd then nonblock else asked fd hist
      | .getfl _ => asked fd hist := by
  simp only [asked, List.foldl_append, List.foldl_cons, List.foldl_nil]

/-- A step keeps the objects, and keeps the kernel's flags set unless it is the `FIONBIO` that clears
one. -/
theorem Kept.step {hist : List Event} {s s' : Descriptors} {e : Event} (h : Kept hist s)
    (hs : Step s e s') :
    Kept (hist ++ [e]) s' ∧ (s.NonBlocking → (s'.NonBlocking ↔ s.Translated e.1)) := by
  rcases e with ⟨c, v⟩
  have hact : s.act c = some (v, s') := hs
  cases c with
  | socket ret =>
    simp only [act] at hact
    split at hact
    · cases hact
    · next hfree =>
      simp only [Bool.or_eq_true, decide_eq_true_eq, not_or, Bool.not_eq_true] at hfree
      rcases Option.map_eq_some_iff.mp hact with ⟨t, ht, heq⟩
      cases heq
      rcases h.adopt (by omega) hfree.2 (e := (.socket ret, none)) (fun fd => by rw [asked_snoc]) ht
        with ⟨hkept, hnb⟩
      exact ⟨hkept, fun hold => ⟨fun _ => trivial, fun _ => hnb hold⟩⟩
  | accept fd ret =>
    simp only [act] at hact
    split at hact
    · cases hact
    · next hfree =>
      simp only [Bool.or_eq_true, Bool.not_eq_true', decide_eq_true_eq, not_or,
        Bool.not_eq_true] at hfree
      rcases Option.map_eq_some_iff.mp hact with ⟨t, ht, heq⟩
      cases heq
      rcases h.adopt (by omega) hfree.2 (e := (.accept fd ret, none)) (fun fd => by rw [asked_snoc])
        ht with ⟨hkept, hnb⟩
      exact ⟨hkept, fun hold => ⟨fun _ => trivial, fun _ => hnb hold⟩⟩
  | setfl fd nonblock =>
    simp only [act] at hact
    split at hact
    · cases hact
    · rcases Option.map_eq_some_iff.mp hact with ⟨t, ht, heq⟩
      cases heq
      rcases h.flag (k := FdCtx.sysNonblock) (e := (.setfl fd nonblock, none))
        (fun n => by rw [asked_snoc]; simp only [eq_comm]) ht with ⟨hkept, hnb⟩
      refine ⟨hkept, fun hold => ⟨fun _ => trivial, fun _ => hnb hold ?_⟩⟩
      rintro ⟨a, ctx⟩ hp
      rcases at?_of_managed (Option.join_eq_some_iff.mp hp) with ⟨ha, hctx, -⟩
      rcases h.objects fd a ha with ⟨ctx', hctx', -, -, -, -, hsys, -⟩
      rw [hctx, Option.some.injEq] at hctx'
      rw [hctx']
      exact hsys
  | getfl fd =>
    simp only [act] at hact
    split at hact
    · cases hact
    · rcases Option.map_eq_some_iff.mp hact with ⟨b, hb, heq⟩
      cases heq
      refine ⟨⟨h.size, fun n a ha => ?_⟩, fun hold => ⟨fun _ => trivial, fun _ => hold⟩⟩
      rw [asked_snoc]
      exact h.objects n a ha
  | fionbio fd nonblock =>
    simp only [act] at hact
    split at hact
    · cases hact
    · rcases Option.map_eq_some_iff.mp hact with ⟨t, ht, heq⟩
      cases heq
      rcases h.flag (k := fun _ => nonblock) (e := (.fionbio fd nonblock, none))
        (fun n => by rw [asked_snoc]; simp only [eq_comm]) ht with ⟨hkept, hnb⟩
      refine ⟨hkept, fun hold => ⟨fun hnew hm => ?_, fun htrans => hnb hold fun p hp => ?_⟩⟩
      · -- the kernel has been given what the user asked for
        rcases Option.isSome_iff_exists.mp hm with ⟨⟨a, ctx⟩, hp⟩
        have hmanaged := Option.join_eq_some_iff.mp hp
        rcases at?_of_managed hmanaged with ⟨ha, -⟩
        simp only [fionbio, hmanaged, Option.map_some, Option.some.injEq] at ht
        subst ht
        rcases hkept.objects fd a (by rw [FdManager.at?_update]; exact ha) with
          ⟨ctx', hctx', -, -, hclosed, hsocket, -⟩
        have := hnew fd a ctx' (managed_of_at? (by rw [FdManager.at?_update]; exact ha) hctx' hclosed hsocket)
        simpa [Kernel.setNonblock] using this
      · exact htrans (Option.isSome_of_eq_some hp)

def new (kernel : Kernel) : Descriptors := { kernel }

theorem kept_new (kernel : Kernel) : Kept [] (new kernel) ∧ (new kernel).NonBlocking := by
  have hat : ∀ fd, (new kernel).fds.at? fd = none := by
    intro fd
    rw [FdManager.at?_eq]
    split
    · rfl
    · show ((List.replicate 64 none)[fd.toNat]?).join = none
      rw [List.getElem?_replicate]
      split <;> rfl
  refine ⟨⟨Nat.le_of_eq List.length_replicate.symm, fun fd a ha => ?_⟩, fun fd a ctx hm => ?_⟩
  · rw [hat] at ha
    cases ha
  · have ha := (at?_of_managed hm).1
    rw [hat] at ha
    cases ha

theorem Kept.virtualised_iff {hist : List Event} {s : Descriptors} (h : Kept hist s) :
    Virtualised hist s ↔ s.NonBlocking := by
  constructor
  · exact fun hv fd a ctx hm => (hv fd a ctx hm).1
  · intro hnb fd a ctx hm
    refine ⟨hnb fd a ctx hm, ?_⟩
    rcases at?_of_managed hm with ⟨ha, hctx, -⟩
    rcases h.objects fd a ha with ⟨ctx', hctx', -, -, -, -, -, huser⟩
    rw [hctx, Option.some.injEq] at hctx'
    rw [getfl, hm, ← huser, hctx']
    rfl

/-- At all times in a run the kernel's flag of every managed socket is set and `F_GETFL` answers what
the user has asked for last, if and only if no `FIONBIO` switches a managed socket to blocking
mode. -/
theorem blocking_virtualised {kernel : Kernel} {hist : List Event} {s : Descriptors}
    (hrun : Run Step (new kernel) hist s) :
    (∀ hist₁ s₁, hist₁ <+: hist → Run Step (new kernel) hist₁ s₁ → Virtualised hist₁ s₁) ↔
      Run (Guarded (fun s e => s.Translated e.1) Step) (new kernel) hist s := by
  have hkept : ∀ {hist s}, Run Step (new kernel) hist s → Kept hist s := fun hrun =>
    hrun.history_invariant Kept (kept_new kernel).1 fun _ _ _ _ h hs => (h.step hs).1
  have hplain : ∀ {hist s}, Run (Guarded (fun s e => s.Translated e.1) Step) (new kernel) hist s →
      Run Step (new kernel) hist s := fun hrun => hrun.unguarded
  -- the guard keeps every state of the run translated
  have hboth : ∀ {hist s}, Run (Guarded (fun s e => s.Translated e.1) Step) (new kernel) hist s →
      s.NonBlocking := by
    intro hist s hrun
    induction hrun with
    | nil => exact (kept_new kernel).2
    | snoc hbefore hs ih => exact (((hkept (hplain hbefore)).step hs.2).2 ih).mpr hs.1
  apply Run.always_iff Virtualised (fun _ _ _ h => h.2) _ hrun
  · intro hist s hguarded
    exact (hkept (hplain hguarded)).virtualised_iff.mpr (hboth hguarded)
  · intro hist t e u hguarded hs hvirtualised
    have hbefore := hplain hguarded
    have hu := (hkept (hbefore.snoc hs)).virtualised_iff.mp hvirtualised
    exact ⟨(((hkept hbefore).step hs).2 (hboth hguarded)).mp hu, hs⟩
  · intro s e t t' h h'
    exact congrArg Prod.snd (Option.some.inj (h.symm.trans h'))

theorem blocking_virtualised_setfl : ∃ (hist : List Event) (s : Descriptors),
    Run Step (new {}) hist s ∧ s.getfl 5 = some false ∧
      (∀ hist₁ s₁, hist₁ <+: hist → Run Step (new {}) hist₁ s₁ → Virtualised hist₁ s₁) := by
  have hlast : (runActs (fun (s : Descriptors) c => if decide (s.Translated c) then act s c else none)
      (new {}) [.socket 5, .setfl 5 true, .getfl 5, .setfl 5 false]).map (fun r => r.2.getfl 5) =
      some (some false) := by
    decide
  rcases Option.map_eq_some_iff.mp hlast with ⟨⟨hist, s⟩, hs, hget⟩
  have hguarded := run_of_runActs (fun (s : Descriptors) c => s.Translated c)
    (fun s c => decide (s.Translated c)) (fun _ _ h => of_decide_eq_true h) hs
  have hrun : Run Step (new {}) hist s := hguarded.unguarded
  exact ⟨hist, s, hrun, hget, (blocking_virtualised hrun).mpr hguarded⟩

/-- `ioctl(5, FIONBIO, 0)` clears the kernel's flag, and a read of the socket blocks the thread. -/
theorem fionbio_blocks : ∃ (hist : List Event) (s : Descriptors), Run Step (new {}) hist s ∧
    ¬ Virtualised hist s ∧ s.kernel.nonblock 5 = false := by
  have hlast : (runActs (fun s c => if true then act s c else none) (new {})
      [.socket 5, .fionbio 5 false]).map (fun r => (r.2.managed 5, r.2.kernel.nonblock 5)) =
      some (some (some (0, { isInit := true, isSocket := true, sysNonblock := true, fd := 5 })),
        false) := by
    decide
  rcases Option.map_eq_some_iff.mp hlast with ⟨⟨hist, s⟩, hs, hvalues⟩
  simp only [Prod.mk.injEq] at hvalues
  have hrun := run_of_runActs (fun _ _ => True) (fun _ _ => true) (fun _ _ _ => trivial) hs
  refine ⟨hist, s, hrun.unguarded, fun hv => ?_, hvalues.2⟩
  have hset := (hv 5 0 _ hvalues.1).1
  rw [hvalues.2] at hset
  cases hset

end Descriptors

end Azure
