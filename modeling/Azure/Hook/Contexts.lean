import Azure.Hook.NonBlocking

/-!
# One context for a descriptor (`fdmanager.cpp`)

`get(fd, true)` looks for the context under the read lock, and makes it in a second section under the
write lock without looking again.  Any number of threads take such sections in any order.
-/

namespace Azure

open Reasoning

inductive FdCtxStore where
  | timeout (type : SoTimeout) (v : UInt64)
  | userNonblock (v : Bool)
  deriving DecidableEq, Repr

namespace FdCtxStore

def apply : FdCtxStore → FdCtx → FdCtx
  | timeout type v, ctx => ctx.setTimeout type v
  | userNonblock v, ctx => { ctx with userNonblock := v }

def Shown : FdCtxStore → FdCtx → Prop
  | timeout type v, ctx => ctx.getTimeout type = v
  | userNonblock v, ctx => ctx.userNonblock = v

def SameField : FdCtxStore → FdCtxStore → Prop
  | timeout type _, timeout type' _ => type = type'
  | userNonblock _, userNonblock _ => True
  | _, _ => False

theorem shown_apply (w : FdCtxStore) (ctx : FdCtx) : w.Shown (w.apply ctx) := by
  cases w with
  | timeout type v => cases type <;> rfl
  | userNonblock v => rfl

theorem shown_apply_of_other {w w' : FdCtxStore} {ctx : FdCtx} (h : w.Shown ctx)
    (hother : ¬ w.SameField w') : w.Shown (w'.apply ctx) := by
  cases w with
  | timeout type v =>
    cases w' with
    | timeout type' v' =>
      have hne : type ≠ type' := hother
      cases type <;> cases type' <;> first | exact absurd rfl hne | exact h
    | userNonblock v' => cases type <;> exact h
  | userNonblock v =>
    cases w' with
    | timeout type' v' => cases type' <;> exact h
    | userNonblock v' => exact absurd trivial hother

end FdCtxStore

inductive FdAction (τ : Type) where
  /-- `get` under the read lock -/
  | get (t : τ) (fd : Int) (autoCreate : Bool)
  /-- `get` under the write lock -/
  | create (t : τ)
  | del (t : τ) (fd : Int)
  /-- a store to a context that some thread has been given -/
  | store (t : τ) (a : FdCtxAddr) (w : FdCtxStore)
  /-- the kernel's table changes -/
  | kernel (k : Kernel)

/-- An action, with the descriptor and the context when it is the end of a `get` that returns one. -/
abbrev FdEvent (τ : Type) := FdAction τ × Option (Int × FdCtxAddr)

namespace FdEvent

variable {τ : Type}

def Gives (fd : Int) (a : FdCtxAddr) (e : FdEvent τ) : Prop := e.2 = some (fd, a)

def Deletes (fd : Int) (e : FdEvent τ) : Prop := ∃ t, e.1 = .del t fd

/-- A store of something else into what `w` set in the context at `a`. -/
def Overwrites (a : FdCtxAddr) (w : FdCtxStore) (e : FdEvent τ) : Prop :=
  ∃ t w', e.1 = .store t a w' ∧ w.SameField w'

end FdEvent

/-- `pending` is the descriptor a thread is about to make a context for. -/
structure FdThreads (τ : Type) where
  kernel : Kernel := {}
  fds : FdManager := {}
  pending : τ → Option Int := fun _ => none

namespace FdThreads

variable {τ : Type} [DecidableEq τ]

def act (s : FdThreads τ) : FdAction τ → Option (Option (Int × FdCtxAddr) × FdThreads τ)
  | .get t fd autoCreate =>
    match s.pending t, s.fds.find fd autoCreate with
    | none, some .null => some (none, s)
    | none, some (.ctx a) => some (some (fd, a), s)
    | none, some .missing =>
      some (none, { s with pending := Function.update s.pending t (some fd) })
    | _, _ => none
  | .create t =>
    match s.pending t with
    | none => none
    | some fd =>
      let (ctx, kernel) := FdCtx.init s.kernel fd
      some (some (fd, s.fds.ctxs.length), {
        kernel
        fds := s.fds.create ctx fd
        pending := Function.update s.pending t none })
  | .del t fd =>
    match s.pending t with
    | none => (s.fds.del fd).map fun fds => (none, { s with fds })
    | some _ => none
  | .store t a w =>
    match s.pending t with
    | none =>
      if a < s.fds.ctxs.length then some (none, { s with fds := s.fds.update a w.apply }) else none
    | some _ => none
  | .kernel k => some (none, { s with kernel := k })

def Step (s : FdThreads τ) (e : FdEvent τ) (s' : FdThreads τ) : Prop := s.act e.1 = some (e.2, s')

/-- Two calls of `get(fd)` that return a context return the same one, when `fd` is not deleted
between them. -/
def OneContext (es : List (FdEvent τ)) : Prop :=
  ∀ (fd : Int) (a a' : FdCtxAddr) (pre mid post : List (FdEvent τ)) (e e' : FdEvent τ),
    es = pre ++ e :: (mid ++ e' :: post) →
    (∀ d ∈ mid, ¬ d.Deletes fd) → e.Gives fd a → e'.Gives fd a' → a = a'

/-- What is set through a context that `get(fd)` has returned is found through `get(fd)` until it is
set again or `fd` is deleted. -/
def NeverLost (es : List (FdEvent τ)) (s : FdThreads τ) : Prop :=
  ∀ (fd : Int) (a : FdCtxAddr) (t : τ) (w : FdCtxStore) (pre mid rest : List (FdEvent τ))
    (e : FdEvent τ), es = pre ++ e :: (mid ++ (.store t a w, none) :: rest) →
    (∀ d ∈ mid, ¬ d.Deletes fd) → (∀ d ∈ rest, ¬ d.Deletes fd) →
    (∀ d ∈ rest, ¬ d.Overwrites a w) → e.Gives fd a →
    ∃ a' ctx, s.fds.at? fd = some a' ∧ s.fds.ctxs[a']? = some ctx ∧ w.Shown ctx

/-- Nobody has stored a context for the descriptor since this thread looked. -/
def StillMissing (s : FdThreads τ) (e : FdEvent τ) : Prop :=
  ∀ t fd, e.1 = .create t → s.pending t = some fd → s.fds.at? fd = none

/-! ## One section -/

/-- The table is long enough for every number about to be stored, and its objects exist. -/
structure Sound (s : FdThreads τ) : Prop where
  long : 64 ≤ s.fds.data.length
  pending : ∀ t fd, s.pending t = some fd → 0 ≤ fd
  allocated : ∀ fd a, s.fds.at? fd = some a → a < s.fds.ctxs.length

end FdThreads

namespace FdManager

theorem find_ctx {m : FdManager} {fd : Int} {autoCreate : Bool} {a : FdCtxAddr}
    (h : m.find fd autoCreate = some (.ctx a)) : m.at? fd = some a := by
  have hfd : 0 ≤ fd := by
    unfold find at h
    split at h
    · cases h
    · split at h
      · cases autoCreate <;> cases h
      · split at h
        · cases h
        · omega
  cases autoCreate with
  | false =>
    unfold at?
    rw [h]
  | true =>
    rw [find_true hfd] at h
    cases hat : m.at? fd with
    | none =>
      rw [hat] at h
      cases h
    | some b =>
      rw [hat] at h
      cases h
      rfl

theorem nonneg_of_missing {m : FdManager} {fd : Int} {autoCreate : Bool}
    (h : m.find fd autoCreate = some .missing) : 0 ≤ fd := by
  unfold find at h
  split at h
  · cases h
  · split at h
    · omega
    · split at h
      · cases h
      · omega

theorem ctxs_del {m m' : FdManager} {fd : Int} (h : m.del fd = some m') :
    m'.ctxs = m.ctxs ∧ m'.data.length = m.data.length := by
  unfold del at h
  split at h
  · rw [← Option.some.inj h]
    exact ⟨rfl, rfl⟩
  · split at h
    · cases h
    · rw [← Option.some.inj h]
      exact ⟨rfl, List.length_set ..⟩

theorem at?_del {m m' : FdManager} {fd : Int} (h : m.del fd = some m') (n : Int) :
    m'.at? n = if n = fd then none else m.at? n := by
  unfold del at h
  split at h
  · next hle =>
    cases h
    split
    · next heq =>
      subst heq
      rw [at?_eq, if_neg (by omega), List.getElem?_eq_none (by omega)]
      rfl
    · rfl
  · split at h
    · cases h
    · next hle hneg =>
      cases h
      rw [at?_eq, at?_eq]
      by_cases hn : n < 0
      · rw [if_pos hn, if_pos hn, ite_self]
      · rw [if_neg hn, if_neg hn, List.getElem?_set]
        by_cases heq : n = fd
        · subst heq
          rw [if_pos rfl, if_pos rfl]
          split <;> rfl
        · rw [if_neg (by omega), if_neg heq]

end FdManager

namespace FdThreads

variable {τ : Type} [DecidableEq τ]

omit [DecidableEq τ] in
theorem sound_new : Sound ({} : FdThreads τ) where
  long := Nat.le_of_eq (List.length_replicate ..).symm
  pending t fd h := by cases h
  allocated fd a h := by
    rw [FdManager.at?_eq] at h
    split at h
    · cases h
    · have hnone : ∀ i : Nat, ((List.replicate 64 none : List (Option FdCtxAddr))[i]?).join = none := by
        intro i
        rw [List.getElem?_replicate]
        split <;> rfl
      exact absurd (h.symm.trans (hnone _)) (Option.some_ne_none a)

/-- What a section does to the table: it stores a new context and returns it, it deletes one, or it
leaves the table as it is. -/
inductive Change (s : FdThreads τ) (e : FdEvent τ) (s' : FdThreads τ) : Prop
  | creates (t : τ) (fd : Int) (ctx : FdCtx) (hact : e.1 = .create t) (hpending : s.pending t = some fd)
      (hret : e.2 = some (fd, s.fds.ctxs.length)) (hfds : s'.fds = s.fds.create ctx fd)
  | deletes (fd : Int) (hact : e.Deletes fd) (hret : e.2 = none) (hfds : s.fds.del fd = some s'.fds)
  | keeps (hfds : s'.fds = s.fds) (hret : ∀ fd a, e.2 = some (fd, a) → s.fds.at? fd = some a)
      (hother : (∀ fd, ¬ e.Deletes fd) ∧ ∀ t a w, e.1 ≠ .store t a w)
  | stores (t : τ) (a : FdCtxAddr) (w : FdCtxStore) (hact : e.1 = .store t a w) (hret : e.2 = none)
      (ha : a < s.fds.ctxs.length) (hfds : s'.fds = s.fds.update a w.apply)

theorem change_of_step {s s' : FdThreads τ} {e : FdEvent τ} (h : s.Step e s') : Change s e s' := by
  rcases e with ⟨a, ret⟩
  unfold Step at h
  cases a with
  | get t fd autoCreate =>
    have hother : (∀ n, ¬ FdEvent.Deletes n (FdAction.get t fd autoCreate, ret)) ∧
        ∀ (u : τ) a w, FdAction.get t fd autoCreate ≠ .store u a w := by
      constructor
      · rintro n ⟨u, hu⟩
        cases hu
      · intro u a w hu
        cases hu
    simp only [act] at h
    split at h
    · cases h
      exact .keeps rfl (fun _ _ heq => by cases heq) hother
    · next a _ hfind =>
      cases h
      refine .keeps rfl (fun fd' a' heq => ?_) hother
      cases heq
      exact FdManager.find_ctx hfind
    · cases h
      exact .keeps rfl (fun _ _ heq => by cases heq) hother
    · cases h
  | create t =>
    simp only [act] at h
    split at h
    · cases h
    · next fd hfd =>
      cases h
      exact .creates t fd _ rfl hfd rfl rfl
  | del t fd =>
    simp only [act] at h
    split at h
    · rcases Option.map_eq_some_iff.mp h with ⟨fds, hdel, heq⟩
      cases heq
      exact .deletes fd ⟨t, rfl⟩ rfl hdel
    · cases h
  | store t a w =>
    simp only [act] at h
    split at h
    · split at h
      · next ha =>
        cases h
        exact .stores t a w rfl rfl ha rfl
      · cases h
    · cases h
  | kernel k =>
    cases h
    exact .keeps rfl (fun _ _ heq => by cases heq)
      ⟨fun _ ⟨_, heq⟩ => (by cases heq), fun _ _ _ heq => (by cases heq)⟩

/-- A thread goes on to make a context only for a number that it has found none for. -/
theorem pending_of_step {s s' : FdThreads τ} {e : FdEvent τ} (hstep : s.Step e s') {t : τ}
    {fd : Int} (ht : s'.pending t = some fd) :
    s.pending t = some fd ∨ ∃ autoCreate, s.fds.find fd autoCreate = some .missing := by
  rcases e with ⟨a, ret⟩
  unfold Step at hstep
  cases a with
  | get u n autoCreate =>
    simp only [act] at hstep
    split at hstep
    · cases hstep
      exact .inl ht
    · cases hstep
      exact .inl ht
    · next hfind =>
      cases hstep
      have hnow : Function.update s.pending u (some n) t = some fd := ht
      rw [Function.update_apply] at hnow
      split at hnow
      · rw [← Option.some.inj hnow]
        exact .inr ⟨autoCreate, hfind⟩
      · exact .inl hnow
    · cases hstep
  | create u =>
    simp only [act] at hstep
    split at hstep
    · cases hstep
    · cases hstep
      have hnow : Function.update s.pending u none t = some fd := ht
      rw [Function.update_apply] at hnow
      split at hnow
      · cases hnow
      · exact .inl hnow
  | del u n =>
    simp only [act] at hstep
    split at hstep
    · rcases Option.map_eq_some_iff.mp hstep with ⟨fds, -, heq⟩
      cases heq
      exact .inl ht
    · cases hstep
  | store u a w =>
    simp only [act] at hstep
    split at hstep
    · split at hstep
      · cases hstep
        exact .inl ht
      · cases hstep
    · cases hstep
  | kernel k =>
    cases hstep
    exact .inl ht

theorem Sound.step {s s' : FdThreads τ} (h : s.Sound) {e : FdEvent τ} (hstep : s.Step e s') :
    s'.Sound where
  long := by
    cases change_of_step hstep with
    | creates t fd ctx _ _ _ hfds =>
      rw [hfds]
      exact FdManager.length_data_create h.long ctx fd
    | deletes fd _ _ hfds =>
      rw [(FdManager.ctxs_del hfds).2]
      exact h.long
    | keeps hfds =>
      rw [hfds]
      exact h.long
    | stores t a w _ _ _ hfds =>
      rw [hfds]
      exact h.long
  pending t fd ht := by
    cases pending_of_step hstep ht with
    | inl hold => exact h.pending t fd hold
    | inr hmissing => exact FdManager.nonneg_of_missing hmissing.choose_spec
  allocated fd a ha := by
    cases change_of_step hstep with
    | creates t n ctx _ hpending _ hfds =>
      have hgrown : s'.fds.ctxs.length = s.fds.ctxs.length + 1 := by
        rw [hfds]
        exact List.length_append
      rw [hgrown]
      rw [hfds, FdManager.at?_create h.long ctx (h.pending t n hpending)] at ha
      split at ha
      · rw [← Option.some.inj ha]
        exact Nat.lt_succ_self _
      · exact Nat.lt_succ_of_lt (h.allocated fd a ha)
    | deletes n _ _ hfds =>
      rw [FdManager.at?_del hfds] at ha
      split at ha
      · cases ha
      · rw [(FdManager.ctxs_del hfds).1]
        exact h.allocated fd a ha
    | keeps hfds =>
      rw [hfds] at ha ⊢
      exact h.allocated fd a ha
    | stores t b w _ _ _ hfds =>
      rw [hfds, FdManager.at?_update] at ha
      rw [hfds]
      show a < (s.fds.ctxs.modify b w.apply).length
      rw [List.length_modify]
      exact h.allocated fd a ha

theorem sound_of_run {es : List (FdEvent τ)} {s : FdThreads τ}
    (hrun : Run Step ({} : FdThreads τ) es s) : s.Sound :=
  hrun.invariant Sound sound_new fun _ _ _ h hstep => h.step hstep

/-! ## The context in the table -/

/-- What a `get` returns is in the table when it returns. -/
theorem at?_of_gives {s s' : FdThreads τ} (h : s.Sound) {e : FdEvent τ} (hstep : s.Step e s')
    {fd : Int} {a : FdCtxAddr} (hgives : e.Gives fd a) : s'.fds.at? fd = some a := by
  cases change_of_step hstep with
  | creates t n ctx _ hpending hret hfds =>
    have heq : some (n, s.fds.ctxs.length) = some (fd, a) := hret.symm.trans hgives
    cases heq
    rw [hfds, FdManager.at?_create h.long ctx (h.pending t fd hpending), if_pos rfl]
  | deletes n _ hret => exact absurd (hret.symm.trans hgives) (Option.some_ne_none _).symm
  | keeps hfds hret =>
    rw [hfds]
    exact hret fd a hgives
  | stores t b w _ hret => exact absurd (hret.symm.trans hgives) (Option.some_ne_none _).symm

/-- The context of a descriptor stays until the descriptor is deleted, when the creators look
first. -/
theorem at?_kept {s s' : FdThreads τ} (h : s.Sound) {e : FdEvent τ} (hstep : s.Step e s')
    (hmissing : s.StillMissing e) {fd : Int} {a : FdCtxAddr} (hdel : ¬ e.Deletes fd)
    (hat : s.fds.at? fd = some a) : s'.fds.at? fd = some a := by
  cases change_of_step hstep with
  | creates t n ctx hact hpending _ hfds =>
    have hnone := hmissing t n hact hpending
    rw [hfds, FdManager.at?_create h.long ctx (h.pending t n hpending), if_neg]
    · exact hat
    · intro heq
      rw [heq, hnone] at hat
      cases hat
  | deletes n hact _ hfds =>
    rw [FdManager.at?_del hfds, if_neg]
    · exact hat
    · intro heq
      exact hdel (heq ▸ hact)
  | keeps hfds =>
    rw [hfds]
    exact hat
  | stores t b w _ _ _ hfds =>
    rw [hfds, FdManager.at?_update]
    exact hat

/-- A `get` returns the context that is in the table, when the creators look first. -/
theorem gives_same {s s' : FdThreads τ} {e : FdEvent τ} (hstep : s.Step e s')
    (hmissing : s.StillMissing e) {fd : Int} {a b : FdCtxAddr} (hat : s.fds.at? fd = some a)
    (hgives : e.Gives fd b) : a = b := by
  cases change_of_step hstep with
  | creates t n ctx hact hpending hret hfds =>
    have heq : some (n, s.fds.ctxs.length) = some (fd, b) := hret.symm.trans hgives
    cases heq
    rw [hmissing t fd hact hpending] at hat
    cases hat
  | deletes n _ hret => exact absurd (hret.symm.trans hgives) (Option.some_ne_none _).symm
  | keeps hfds hret => exact Option.some.inj (hat.symm.trans (hret fd b hgives))
  | stores t c w _ hret => exact absurd (hret.symm.trans hgives) (Option.some_ne_none _).symm

/-! ## Runs -/

def Held (es : List (FdEvent τ)) (s : FdThreads τ) : Prop :=
  ∀ (fd : Int) (a : FdCtxAddr) (pre mid : List (FdEvent τ)) (e : FdEvent τ),
    es = pre ++ e :: mid → (∀ d ∈ mid, ¬ d.Deletes fd) → e.Gives fd a → s.fds.at? fd = some a

def Filled (es : List (FdEvent τ)) (s : FdThreads τ) : Prop :=
  ∀ (fd : Int) (a : FdCtxAddr), s.fds.at? fd = some a →
    ∃ (pre mid : List (FdEvent τ)) (e : FdEvent τ),
      es = pre ++ e :: mid ∧ (∀ d ∈ mid, ¬ d.Deletes fd) ∧ e.Gives fd a

def Kept (es : List (FdEvent τ)) (s : FdThreads τ) : Prop :=
  ∀ (a : FdCtxAddr) (t : τ) (w : FdCtxStore) (pre rest : List (FdEvent τ)),
    es = pre ++ (.store t a w, none) :: rest → (∀ d ∈ rest, ¬ d.Overwrites a w) →
    ∃ ctx, s.fds.ctxs[a]? = some ctx ∧ w.Shown ctx

theorem Held.snoc {es : List (FdEvent τ)} {s s' : FdThreads τ} {x : FdEvent τ} (h : Held es s)
    (hsound : s.Sound) (hstep : s.Step x s') (hmissing : s.StillMissing x) :
    Held (es ++ [x]) s' := by
  intro fd a pre mid e hes hmid hgives
  rcases snoc_eq_split hes with ⟨rfl, rfl, rfl⟩ | ⟨mid', rfl, hes'⟩
  · exact at?_of_gives hsound hstep hgives
  · have hat := h fd a pre mid' e hes' (fun d hd => hmid d (List.mem_append_left _ hd)) hgives
    have hx := hmid x (List.mem_append_right _ (List.mem_singleton_self x))
    exact at?_kept hsound hstep hmissing hx hat

theorem OneContext.snoc {es : List (FdEvent τ)} {s s' : FdThreads τ} {x : FdEvent τ}
    (h : OneContext es) (hheld : Held es s) (hstep : s.Step x s') (hmissing : s.StillMissing x) :
    OneContext (es ++ [x]) := by
  intro fd a a' pre mid post e e' hes hmid hgives hgives'
  rw [← List.cons_append, ← List.append_assoc] at hes
  rcases snoc_eq_split hes with ⟨rfl, hes', rfl⟩ | ⟨post', rfl, hes'⟩
  · exact gives_same hstep hmissing (hheld fd a pre mid e hes'.symm hmid hgives) hgives'
  · apply h fd a a' pre mid post' e e' _ hmid hgives hgives'
    rw [hes', List.append_assoc, List.cons_append]

omit [DecidableEq τ] in
theorem OneContext.of_snoc {es : List (FdEvent τ)} {x : FdEvent τ} (h : OneContext (es ++ [x])) :
    OneContext es := by
  intro fd a a' pre mid post e e' hes
  apply h fd a a' pre mid (post ++ [x]) e e'
  rw [hes]
  simp

theorem Filled.snoc {es : List (FdEvent τ)} {s s' : FdThreads τ} {x : FdEvent τ} (h : Filled es s)
    (hsound : s.Sound) (hstep : s.Step x s') : Filled (es ++ [x]) s' := by
  -- the context was in the table before, and is not deleted now
  have hold : ∀ fd a, s.fds.at? fd = some a → ¬ x.Deletes fd →
      ∃ (pre mid : List (FdEvent τ)) (e : FdEvent τ), es ++ [x] = pre ++ e :: mid ∧
        (∀ d ∈ mid, ¬ d.Deletes fd) ∧ e.Gives fd a := by
    intro fd a hat hx
    rcases h fd a hat with ⟨pre, mid, e, hes, hmid, hgives⟩
    refine ⟨pre, mid ++ [x], e, by rw [hes, List.append_assoc, List.cons_append], ?_, hgives⟩
    intro d hd
    rcases List.mem_append.mp hd with hd | hd
    · exact hmid d hd
    · rwa [List.mem_singleton.mp hd]
  intro fd a hat
  cases change_of_step hstep with
  | creates t n ctx hact hpending hret hfds =>
    rw [hfds, FdManager.at?_create hsound.long ctx (hsound.pending t n hpending)] at hat
    split at hat
    · next heq =>
      rw [← Option.some.inj hat, heq]
      exact ⟨es, [], x, rfl, fun d hd => absurd hd List.not_mem_nil, hret⟩
    · apply hold fd a hat
      rintro ⟨u, hu⟩
      rw [hact] at hu
      cases hu
  | deletes n hact _ hfds =>
    rw [FdManager.at?_del hfds] at hat
    split at hat
    · cases hat
    · next hne =>
      apply hold fd a hat
      rintro ⟨u, hu⟩
      rcases hact with ⟨t, ht⟩
      rw [ht] at hu
      cases hu
      exact hne rfl
  | keeps hfds hret hother =>
    rw [hfds] at hat
    exact hold fd a hat (hother.1 fd)
  | stores t b w hact _ _ hfds =>
    rw [hfds, FdManager.at?_update] at hat
    apply hold fd a hat
    rintro ⟨u, hu⟩
    rw [hact] at hu
    cases hu

theorem Kept.snoc {es : List (FdEvent τ)} {s s' : FdThreads τ} {x : FdEvent τ} (h : Kept es s)
    (hstep : s.Step x s') : Kept (es ++ [x]) s' := by
  intro a t w pre rest hes hrest
  rcases snoc_eq_split hes with ⟨rfl, rfl, rfl⟩ | ⟨rest', rfl, hes'⟩
  · -- the store itself
    cases change_of_step hstep with
    | creates u n ctx hact => cases hact
    | deletes n hact =>
      rcases hact with ⟨u, hu⟩
      cases hu
    | keeps _ _ hother => exact absurd rfl (hother.2 t a w)
    | stores u b w' hact _ hb hfds =>
      cases hact
      rw [hfds]
      refine ⟨w.apply s.fds.ctxs[a], ?_, w.shown_apply _⟩
      show (s.fds.ctxs.modify a w.apply)[a]? = _
      rw [List.getElem?_modify_eq, List.getElem?_eq_getElem hb]
      rfl
  · rcases h a t w pre rest' hes' fun d hd => hrest d (List.mem_append_left _ hd) with
      ⟨ctx, hctx, hshown⟩
    have hx := hrest x (List.mem_append_right _ (List.mem_singleton_self x))
    cases change_of_step hstep with
    | creates u n ctx' _ _ _ hfds =>
      rw [hfds]
      refine ⟨ctx, ?_, hshown⟩
      rcases List.getElem?_eq_some_iff.mp hctx with ⟨ha, -⟩
      exact (List.getElem?_append_left ha).trans hctx
    | deletes n _ _ hfds =>
      rw [(FdManager.ctxs_del hfds).1]
      exact ⟨ctx, hctx, hshown⟩
    | keeps hfds =>
      rw [hfds]
      exact ⟨ctx, hctx, hshown⟩
    | stores u b w' hact _ _ hfds =>
      rw [hfds]
      show ∃ ctx, (s.fds.ctxs.modify b w'.apply)[a]? = some ctx ∧ w.Shown ctx
      by_cases hba : b = a
      · subst hba
        rw [List.getElem?_modify_eq, hctx]
        refine ⟨w'.apply ctx, rfl, FdCtxStore.shown_apply_of_other hshown fun hsame => ?_⟩
        exact hx ⟨u, w', hact, hsame⟩
      · rw [List.getElem?_modify_ne _ _ hba]
        exact ⟨ctx, hctx, hshown⟩

/-- The objects in the table and those handed out, in a run whose creators look first. -/
theorem held_of_run {es : List (FdEvent τ)} {s : FdThreads τ}
    (hrun : Run (Guarded StillMissing Step) ({} : FdThreads τ) es s) :
    s.Sound ∧ Held es s ∧ OneContext es := by
  apply hrun.history_invariant fun es s => s.Sound ∧ Held es s ∧ OneContext es
  · refine ⟨sound_new, ?_, ?_⟩
    · intro fd a pre mid e hes
      exact absurd hes.symm (List.append_ne_nil_of_right_ne_nil _ (List.cons_ne_nil _ _))
    · intro fd a a' pre mid post e e' hes
      exact absurd hes.symm (List.append_ne_nil_of_right_ne_nil _ (List.cons_ne_nil _ _))
  · rintro es s x s' ⟨hsound, hheld, hone⟩ ⟨hmissing, hstep⟩
    exact ⟨hsound.step hstep, hheld.snoc hsound hstep hmissing, hone.snoc hheld hstep hmissing⟩

theorem kept_of_run {es : List (FdEvent τ)} {s : FdThreads τ}
    (hrun : Run Step ({} : FdThreads τ) es s) : Kept es s := by
  apply hrun.history_invariant Kept
  · intro a t w pre rest hes
    exact absurd hes.symm (List.append_ne_nil_of_right_ne_nil _ (List.cons_ne_nil _ _))
  · exact fun _ _ _ _ h hstep => h.snoc hstep

theorem filled_of_run {es : List (FdEvent τ)} {s : FdThreads τ}
    (hrun : Run Step ({} : FdThreads τ) es s) : s.Sound ∧ Filled es s := by
  apply hrun.history_invariant fun es s => s.Sound ∧ Filled es s
  · refine ⟨sound_new, fun fd a hat => ?_⟩
    exact absurd (sound_new.allocated fd a hat) (Nat.not_lt_zero a)
  · rintro es s x s' ⟨hsound, hfilled⟩ hstep
    exact ⟨hsound.step hstep, hfilled.snoc hsound hstep⟩

/-- A second context for a descriptor is another object. -/
theorem stillMissing_of_oneContext {es : List (FdEvent τ)} {s s' : FdThreads τ} {x : FdEvent τ}
    (hsound : s.Sound) (hfilled : Filled es s) (hstep : s.Step x s')
    (hone : OneContext (es ++ [x])) : s.StillMissing x := by
  intro t fd hact hpending
  cases hat : s.fds.at? fd with
  | none => rfl
  | some a =>
    rcases hfilled fd a hat with ⟨pre, mid, e, hes, hmid, hgives⟩
    have hnew : x.Gives fd s.fds.ctxs.length := by
      rcases x with ⟨y, ret⟩
      cases hact
      unfold Step at hstep
      simp only [act, hpending] at hstep
      cases hstep
      rfl
    have heq : a = s.fds.ctxs.length := by
      apply hone fd a s.fds.ctxs.length pre mid [] e x _ hmid hgives hnew
      rw [hes, List.append_assoc, List.cons_append]
    have hlt := hsound.allocated fd a hat
    rw [heq] at hlt
    exact absurd hlt (Nat.lt_irrefl _)

/-- The runs in which a descriptor has one context between deletions are those in which no context
is stored over another. -/
theorem oneContext_iff (es : List (FdEvent τ)) (s : FdThreads τ) :
    (Run Step ({} : FdThreads τ) es s ∧ OneContext es ∧ NeverLost es s) ↔
      Run (Guarded StillMissing Step) ({} : FdThreads τ) es s := by
  constructor
  · rintro ⟨hrun, hone, -⟩
    induction hrun with
    | nil => exact .nil _
    | snoc hprev hstep ih =>
      rcases filled_of_run hprev with ⟨hsound, hfilled⟩
      exact .snoc (ih hone.of_snoc)
        ⟨stillMissing_of_oneContext hsound hfilled hstep hone, hstep⟩
  · intro hrun
    have hplain : Run Step ({} : FdThreads τ) es s := hrun.unguarded
    rcases held_of_run hrun with ⟨-, hheld, hone⟩
    refine ⟨hplain, hone, ?_⟩
    intro fd a t w pre mid rest e hes hmid hrest hover hgives
    -- the context set is still the one in the table
    have hat : s.fds.at? fd = some a := by
      apply hheld fd a pre (mid ++ (.store t a w, none) :: rest) e hes _ hgives
      intro d hd
      rcases List.mem_append.mp hd with hd | hd
      · exact hmid d hd
      · rcases List.mem_cons.mp hd with rfl | hd
        · rintro ⟨u, hu⟩
          cases hu
        · exact hrest d hd
    have hkept := kept_of_run hplain a t w (pre ++ e :: mid) rest
      (by rw [hes, List.append_assoc, List.cons_append]) hover
    rcases hkept with ⟨ctx, hctx, hshown⟩
    exact ⟨a, ctx, hat, hctx, hshown⟩

/-- Two threads have looked before either of them stores a context. -/
theorem two_contexts :
    ¬ ∀ (es : List (FdEvent Bool)) (s : FdThreads Bool), Run Step ({} : FdThreads Bool) es s →
      OneContext es ∧ NeverLost es s := by
  intro h
  have hrun := ((((Run.nil ({} : FdThreads Bool)).snoc
    (show Step _ (.get false 5 true, none) _ from rfl)).snoc
    (show Step _ (.get true 5 true, none) _ from rfl)).snoc
    (show Step _ (.create false, some (5, 0)) _ from rfl)).snoc
    (show Step _ (.create true, some (5, 1)) _ from rfl)
  have hsame := (h _ _ hrun).1 5 0 1 [(.get false 5 true, none), (.get true 5 true, none)] [] []
    (.create false, some (5, 0)) (.create true, some (5, 1)) rfl
    (fun d hd => absurd hd List.not_mem_nil) rfl rfl
  exact absurd hsame (by decide)

end FdThreads

end Azure
