import Azure.Hook.Descriptors
import Azure.IOManager.Events
import Azure.Reasoning.Runs
import Azure.Stream.Transfer

/-!
# The indices of the two tables (`fdmanager.cpp`, `iomanager.cpp`)

`m_data` and `m_fdContexts` are indexed by descriptors.  Every function compares the descriptor with
the size of its table as an `int`, and from above only; two of them resize the table to `fd * 1.5` in
a second section.  Only the sizes are kept here, and what a call does with an index.
-/

namespace Azure

open Reasoning

inductive TableCall where
  | get (fd : Int) (autoCreate : Bool)
  | del (fd : Int)
  | addEvent (fd : Int)
  | delEvent (fd : Int)
  | cancelEvent (fd : Int)
  | cancelAll (fd : Int)
  deriving DecidableEq, Repr

namespace Socket

/-! `m_sockfd` is passed on as it is, and it is -1 in a socket that is closed. -/

def cancelAll (sockfd : Int) : TableCall := .cancelAll sockfd

end Socket

inductive Lookup where
  /-- the call returns: a null pointer, or false -/
  | failure
  /-- the call goes on to the section that resizes the table -/
  | goesOn
  /-- the entry at `fd` of a table with `size` entries -/
  | entry (fd : Int) (size : Nat)
  /-- `fd * 1.5` is no `size_t` -/
  | undefined
  deriving DecidableEq, Repr

def Lookup.InBounds : Lookup → Prop
  | .failure | .goesOn => True
  | .entry fd size => 0 ≤ fd ∧ fd < size
  | .undefined => False

/-- The descriptor is one of the kernel's, and the table for it has no more than `INT_MAX` entries;
`get` also takes -1. -/
def TableCall.Moderate : TableCall → Prop
  | .get fd _ => fd = -1 ∨ 0 ≤ fd ∧ fd < 1431655766
  | .del fd | .addEvent fd | .delEvent fd | .cancelEvent fd | .cancelAll fd =>
    0 ≤ fd ∧ fd < 1431655766

inductive TableCaller where
  | out
  /-- in `get`, before the write lock -/
  | create (fd : Int)
  /-- in `addEvent`, before the write lock -/
  | resize (fd : Int)
  deriving DecidableEq, Repr

structure TableSizes (τ : Type) where
  data : Nat := 64
  fdContexts : Nat := 32
  caller : τ → TableCaller := fun _ => .out

inductive TableSection (τ : Type) where
  /-- the first section of a call; `null` says that `get` finds an empty entry -/
  | call (t : τ) (call : TableCall) (null : Bool)
  /-- the section under the write lock -/
  | resize (t : τ)
  deriving DecidableEq, Repr

namespace TableSizes

variable {τ : Type} [DecidableEq τ]

def setCaller (s : TableSizes τ) (t : τ) (c : TableCaller) : TableSizes τ :=
  { s with caller := Function.update s.caller t c }

/-- The comparison of `delEvent`, `cancelEvent` and `cancelAll`. -/
def lookup (s : TableSizes τ) (fd : Int) : Lookup :=
  if intOfSize s.fdContexts ≤ fd then .failure else .entry fd s.fdContexts

def find (s : TableSizes τ) (t : τ) (null : Bool) : TableCall → Lookup × TableSizes τ
  | .get fd autoCreate =>
    if fd = -1 then (.failure, s)
    else if intOfSize s.data ≤ fd then
      if autoCreate then (.goesOn, s.setCaller t (.create fd)) else (.failure, s)
    else if !null || !autoCreate then (.entry fd s.data, s)
    else (.entry fd s.data, s.setCaller t (.create fd))
  | .del fd => (if intOfSize s.data ≤ fd then .failure else .entry fd s.data, s)
  | .addEvent fd =>
    if intOfSize s.fdContexts > fd then (.entry fd s.fdContexts, s)
    else (.goesOn, s.setCaller t (.resize fd))
  | .delEvent fd => (s.lookup fd, s)
  | .cancelEvent fd => (s.lookup fd, s)
  | .cancelAll fd => (s.lookup fd, s)

/-- `fd * 1.5` as a `size_t`; a negative number is out of range. -/
def grown (fd : Int) : Option Nat := if fd < 0 then none else some (fd * 3 / 2).toNat

def grow (s : TableSizes τ) (t : τ) : TableCaller → Option (Lookup × TableSizes τ)
  | .out => none
  | .create fd =>
    if fd ≥ intOfSize s.data then
      match grown fd with
      | none => some (.undefined, s.setCaller t .out)
      | some size => some (.entry fd size, { s with data := size }.setCaller t .out)
    else some (.entry fd s.data, s.setCaller t .out)
  | .resize fd =>
    match grown fd with
    | none => some (.undefined, s.setCaller t .out)
    | some size => some (.entry fd size, { s with fdContexts := size }.setCaller t .out)

def act (s : TableSizes τ) : TableSection τ → Option (Lookup × TableSizes τ)
  | .call t call null =>
    match s.caller t with
    | .out => some (s.find t null call)
    | _ => none
  | .resize t => s.grow t (s.caller t)

def Step (s : TableSizes τ) (e : TableSection τ × Lookup) (s' : TableSizes τ) : Prop :=
  s.act e.1 = some (e.2, s')

/-- A table is indexed from above only. -/
def FromAbove (size : Nat) (fd : Int) : Prop := fd < intOfSize size → 0 ≤ fd

/-- When the index of a section is in bounds: it is not negative, unless the size is not greater
either, and a table that is resized holds `fd` from 2 on. -/
def Meets (s : TableSizes τ) (e : TableSection τ × Lookup) : Prop :=
  match e.1 with
  | .call _ (.get fd _) _ => fd = -1 ∨ FromAbove s.data fd
  | .call _ (.del fd) _ => FromAbove s.data fd
  | .call _ (.addEvent fd) _ => FromAbove s.fdContexts fd
  | .call _ (.delEvent fd) _ => FromAbove s.fdContexts fd
  | .call _ (.cancelEvent fd) _ => FromAbove s.fdContexts fd
  | .call _ (.cancelAll fd) _ => FromAbove s.fdContexts fd
  | .resize t =>
    match s.caller t with
    | .out => True
    | .create fd => FromAbove s.data fd ∧ (intOfSize s.data ≤ fd → 2 ≤ fd)
    | .resize fd => 2 ≤ fd

/-! ## One section -/

/-- The size as an `int` is never more than the size. -/
theorem intOfSize_le (n : Nat) : intOfSize n ≤ n := by
  unfold intOfSize
  by_cases hn : n < 2 ^ 31
  · have hself : (n : Int).bmod (2 ^ 32) = n := Int.bmod_eq_of_le (by omega) (by omega)
    exact Int.le_of_eq hself
  · have hlt := Int.bmod_lt (x := (n : Int)) (m := 2 ^ 32) (by decide)
    omega

theorem inBounds_entry_iff {size : Nat} {fd : Int} (h : fd < intOfSize size) :
    (Lookup.entry fd size).InBounds ↔ FromAbove size fd := by
  have hle := intOfSize_le size
  constructor
  · exact fun hin _ => hin.1
  · exact fun habove => ⟨habove h, by omega⟩

/-- A comparison that fails returns, and one that holds leads to an entry. -/
theorem inBounds_ite_iff {size : Nat} {fd : Int} :
    (if intOfSize size ≤ fd then Lookup.failure else .entry fd size).InBounds ↔
      FromAbove size fd := by
  split
  · next hle => exact iff_of_true trivial fun hlt => absurd hlt (Int.not_lt.mpr hle)
  · next hle => exact inBounds_entry_iff (Int.not_le.mp hle)

/-- The entry that a table was resized for. -/
theorem inBounds_grown_iff {fd : Int} {size : Nat} (h : grown fd = some size) :
    (Lookup.entry fd size).InBounds ↔ 2 ≤ fd := by
  unfold grown at h
  split at h
  · cases h
  · cases h
    simp only [Lookup.InBounds]
    omega

theorem grown_isSome {fd : Int} (h : 2 ≤ fd) : grown fd ≠ none := by
  unfold grown
  rw [if_neg (by omega)]
  exact Option.some_ne_none _

/-- What the first section of a call comes to. -/
theorem find_inBounds_iff (s : TableSizes τ) (t : τ) (call : TableCall) (null : Bool) :
    (s.find t null call).1.InBounds ↔ s.Meets (.call t call null, (s.find t null call).1) := by
  cases call with
  | get fd autoCreate =>
    simp only [find, Meets]
    split
    · next hfd => exact iff_of_true trivial (.inl hfd)
    · next hfd =>
      rw [or_iff_right hfd]
      split
      · next hle =>
        have habove : FromAbove s.data fd := fun hlt => absurd hlt (Int.not_lt.mpr hle)
        split <;> exact iff_of_true trivial habove
      · next hle =>
        split <;> exact inBounds_entry_iff (Int.not_le.mp hle)
  | addEvent fd =>
    simp only [find, Meets]
    split
    · next hlt => exact inBounds_entry_iff hlt
    · next hle => exact iff_of_true trivial fun hlt => absurd hlt hle
  | del fd => exact inBounds_ite_iff
  | delEvent fd => exact inBounds_ite_iff
  | cancelEvent fd => exact inBounds_ite_iff
  | cancelAll fd => exact inBounds_ite_iff

/-- What the section under the write lock comes to. -/
theorem grow_inBounds_iff {s s' : TableSizes τ} {t : τ} {l : Lookup}
    (h : s.grow t (s.caller t) = some (l, s')) : l.InBounds ↔ s.Meets (.resize t, l) := by
  show l.InBounds ↔ match s.caller t with
    | .out => True
    | .create fd => FromAbove s.data fd ∧ (intOfSize s.data ≤ fd → 2 ≤ fd)
    | .resize fd => 2 ≤ fd
  -- a resize, to a size that is none for a negative number
  have hgrown : ∀ fd, (grown fd = none → l = .undefined) →
      (∀ size, grown fd = some size → l = .entry fd size) → (l.InBounds ↔ 2 ≤ fd) := by
    intro fd hundef hentry
    cases hg : grown fd with
    | none =>
      rw [hundef hg]
      exact iff_of_false id fun hfd => grown_isSome hfd hg
    | some size =>
      rw [hentry size hg]
      exact inBounds_grown_iff hg
  cases hcaller : s.caller t with
  | out =>
    rw [hcaller] at h
    cases h
  | create fd =>
    rw [hcaller, grow] at h
    split at h
    · next hle =>
      have hl : l.InBounds ↔ 2 ≤ fd := by
        apply hgrown
        · intro hg
          rw [hg] at h
          cases h
          rfl
        · intro size hg
          rw [hg] at h
          cases h
          rfl
      rw [hl]
      constructor
      · exact fun hfd => ⟨fun hlt => absurd hlt (Int.not_lt.mpr hle), fun _ => hfd⟩
      · exact fun hmeets => hmeets.2 hle
    · next hlt =>
      cases h
      rw [inBounds_entry_iff (Int.not_le.mp hlt)]
      exact ⟨fun habove => ⟨habove, fun hle => absurd hle hlt⟩, fun hmeets => hmeets.1⟩
  | resize fd =>
    rw [hcaller, grow] at h
    apply hgrown
    · intro hg
      rw [hg] at h
      cases h
      rfl
    · intro size hg
      rw [hg] at h
      cases h
      rfl

theorem step_inBounds_iff {s s' : TableSizes τ} {e : TableSection τ × Lookup} (h : s.Step e s') :
    e.2.InBounds ↔ s.Meets e := by
  rcases e with ⟨a, l⟩
  cases a with
  | call t call null =>
    have hact : (match s.caller t with
      | .out => some (s.find t null call)
      | _ => none) = some (l, s') := h
    split at hact
    · have hl : l = (s.find t null call).1 := (congrArg Prod.fst (Option.some.inj hact)).symm
      rw [hl]
      exact find_inBounds_iff s t call null
    · cases hact
  | resize t => exact grow_inBounds_iff h

/-! ## Runs -/

/-- The runs whose sections all stay in bounds are those whose sections all meet the condition. -/
theorem run_inBounds_iff (es : List (TableSection τ × Lookup)) (s : TableSizes τ) :
    (Run Step ({} : TableSizes τ) es s ∧ ∀ e ∈ es, e.2.InBounds) ↔
      Run (Guarded Meets Step) ({} : TableSizes τ) es s := by
  constructor
  · rintro ⟨hrun, hall⟩
    -- each section meets the condition in the state in which it runs
    induction hrun with
    | nil => exact .nil _
    | snoc _ hstep ih =>
      have hlast := hall _ (List.mem_append_right _ (List.mem_singleton_self _))
      exact .snoc (ih fun e he => hall e (List.mem_append_left _ he))
        ⟨(step_inBounds_iff hstep).mp hlast, hstep⟩
  · intro hrun
    refine ⟨hrun.unguarded, ?_⟩
    apply hrun.history_invariant (fun as _ => ∀ e ∈ as, e.2.InBounds)
    · exact fun e he => absurd he List.not_mem_nil
    · intro as u a v hinv hstep e he
      rcases List.mem_append.mp he with hmem | hmem
      · exact hinv e hmem
      · rw [List.mem_singleton.mp hmem]
        exact (step_inBounds_iff hstep.2).mpr hstep.1

/-- A closed socket is cancelled: -1 is less than any size. -/
theorem cancelAll_not_inBounds :
    ¬ ∀ (es : List (TableSection Unit × Lookup)) (s : TableSizes Unit),
      Run Step ({} : TableSizes Unit) es s → ∀ e ∈ es, e.2.InBounds := by
  intro h
  have hstep : Step ({} : TableSizes Unit)
      (.call () (Socket.cancelAll (-1)) false, .entry (-1) 32) {} := rfl
  have hin := h _ _ (Run.single hstep) _ (List.mem_singleton_self _)
  exact absurd hin.1 (by decide)

/-! ## Descriptors as the kernel hands them out -/

/-- The sizes are `int`s, and a table that is about to grow has been found too small. -/
structure Settled (s : TableSizes τ) : Prop where
  data : 64 ≤ s.data ∧ s.data < 2 ^ 31
  fdContexts : 32 ≤ s.fdContexts ∧ s.fdContexts < 2 ^ 31
  create : ∀ t fd, s.caller t = .create fd → 0 ≤ fd ∧ fd < 1431655766
  resize : ∀ t fd, s.caller t = .resize fd → 32 ≤ fd ∧ fd < 1431655766

theorem intOfSize_eq {n : Nat} (h : n < 2 ^ 31) : intOfSize n = n :=
  (Stream.intOfSize_eq_iff (by omega)).mpr h

/-- The caller of one thread changes. -/
theorem Settled.setCaller {s : TableSizes τ} (h : s.Settled) (t : τ) {c : TableCaller}
    (hcreate : ∀ fd, c = .create fd → 0 ≤ fd ∧ fd < 1431655766)
    (hresize : ∀ fd, c = .resize fd → 32 ≤ fd ∧ fd < 1431655766) : (s.setCaller t c).Settled where
  data := h.data
  fdContexts := h.fdContexts
  create u fd hu := by
    by_cases hut : u = t
    · subst hut
      exact hcreate fd ((Function.update_self ..).symm.trans hu)
    · exact h.create u fd ((Function.update_of_ne hut ..).symm.trans hu)
  resize u fd hu := by
    by_cases hut : u = t
    · subst hut
      exact hresize fd ((Function.update_self ..).symm.trans hu)
    · exact h.resize u fd ((Function.update_of_ne hut ..).symm.trans hu)

theorem Settled.out {s : TableSizes τ} (h : s.Settled) (t : τ) : (s.setCaller t .out).Settled :=
  h.setCaller t (fun _ heq => by cases heq) fun _ heq => by cases heq

theorem Settled.find {s : TableSizes τ} (h : s.Settled) (t : τ) {call : TableCall}
    (hcall : call.Moderate) (null : Bool) : (s.find t null call).2.Settled := by
  have hcreate : ∀ fd : Int, fd ≠ -1 → TableCall.Moderate (.get fd true) →
      (s.setCaller t (.create fd)).Settled := by
    intro fd hfd hmod
    apply h.setCaller t
    · intro fd' heq
      cases heq
      exact hmod.resolve_left hfd
    · intro fd' heq
      cases heq
  cases call with
  | get fd autoCreate =>
    simp only [TableSizes.find]
    split
    · exact h
    · next hfd =>
      split
      · split
        · exact hcreate fd hfd hcall
        · exact h
      · split
        · exact h
        · exact hcreate fd hfd hcall
  | addEvent fd =>
    simp only [TableSizes.find]
    split
    · exact h
    · next hle =>
      have hsize := h.fdContexts
      rw [intOfSize_eq hsize.2] at hle
      have hmod : 0 ≤ fd ∧ fd < 1431655766 := hcall
      apply h.setCaller t
      · intro fd' heq
        cases heq
      · intro fd' heq
        cases heq
        omega
  | del fd => exact h
  | delEvent fd => exact h
  | cancelEvent fd => exact h
  | cancelAll fd => exact h

theorem Settled.grow {s s' : TableSizes τ} (h : s.Settled) {t : τ} {l : Lookup}
    (hgrow : s.grow t (s.caller t) = some (l, s')) : s'.Settled := by
  have hgrown : ∀ fd : Int, 0 ≤ fd → grown fd = some (fd * 3 / 2).toNat := fun fd hfd =>
    if_neg (Int.not_lt.mpr hfd)
  cases hcaller : s.caller t with
  | out =>
    rw [hcaller] at hgrow
    cases hgrow
  | create fd =>
    have hfd := h.create t fd hcaller
    have hdata := h.data
    rw [hcaller, TableSizes.grow] at hgrow
    split at hgrow
    · next hle =>
      rw [intOfSize_eq hdata.2] at hle
      rw [hgrown fd hfd.1] at hgrow
      cases hgrow
      have hsize : 64 ≤ (fd * 3 / 2).toNat ∧ (fd * 3 / 2).toNat < 2 ^ 31 := by omega
      exact Settled.out (s := { s with data := (fd * 3 / 2).toNat })
        ⟨hsize, h.fdContexts, h.create, h.resize⟩ t
    · cases hgrow
      exact h.out t
  | resize fd =>
    have hfd := h.resize t fd hcaller
    rw [hcaller, TableSizes.grow, hgrown fd (by omega)] at hgrow
    cases hgrow
    have hsize : 32 ≤ (fd * 3 / 2).toNat ∧ (fd * 3 / 2).toNat < 2 ^ 31 := by omega
    exact Settled.out (s := { s with fdContexts := (fd * 3 / 2).toNat })
      ⟨h.data, hsize, h.create, h.resize⟩ t

theorem Settled.meets {s s' : TableSizes τ} (h : s.Settled) {e : TableSection τ × Lookup}
    (hstep : s.Step e s') (hcall : ∀ t call null, e.1 = .call t call null → call.Moderate) :
    s.Meets e := by
  rcases e with ⟨a, l⟩
  cases a with
  | call t call null =>
    have hmod := hcall t call null rfl
    cases call with
    | get fd autoCreate =>
      exact hmod.imp id fun hfd _ => hfd.1
    | del fd | addEvent fd | delEvent fd | cancelEvent fd | cancelAll fd => exact fun _ => hmod.1
  | resize t =>
    show match s.caller t with
      | .out => True
      | .create fd => FromAbove s.data fd ∧ (intOfSize s.data ≤ fd → 2 ≤ fd)
      | .resize fd => 2 ≤ fd
    have hdata := h.data
    cases hcaller : s.caller t with
    | out => trivial
    | create fd =>
      have hfd := h.create t fd hcaller
      rw [intOfSize_eq hdata.2]
      exact ⟨fun _ => hfd.1, fun hle => by omega⟩
    | resize fd =>
      have hfd := h.resize t fd hcaller
      show 2 ≤ fd
      omega

/-- Whatever the threads do with such descriptors, every index is in bounds. -/
theorem run_inBounds_of_moderate {es : List (TableSection τ × Lookup)} {s : TableSizes τ}
    (hrun : Run Step ({} : TableSizes τ) es s)
    (hcalls : ∀ e ∈ es, ∀ t call null, e.1 = .call t call null → call.Moderate) :
    ∀ e ∈ es, e.2.InBounds := by
  have hinit : Settled ({} : TableSizes τ) :=
    ⟨show 64 ≤ 64 ∧ 64 < 2 ^ 31 by decide, show 32 ≤ 32 ∧ 32 < 2 ^ 31 by decide,
      fun _ _ h => TableCaller.noConfusion h, fun _ _ h => TableCaller.noConfusion h⟩
  have hinv := hrun.history_invariant (fun as s =>
    (∀ e ∈ as, ∀ t call null, e.1 = .call t call null → call.Moderate) →
      s.Settled ∧ ∀ e ∈ as, e.2.InBounds) (fun _ => ⟨hinit, fun e he => absurd he List.not_mem_nil⟩)
  refine (hinv ?_ hcalls).2
  intro as u e v ih hstep hmod
  rcases ih (fun e he => hmod e (List.mem_append_left _ he)) with ⟨hsettled, hall⟩
  have hlast := hmod e (List.mem_append_right _ (List.mem_singleton_self _))
  refine ⟨?_, fun e' he' => ?_⟩
  · rcases e with ⟨a, l⟩
    cases a with
    | call t call null =>
      have hact : (match u.caller t with
        | .out => some (u.find t null call)
        | _ => none) = some (l, v) := hstep
      split at hact
      · have hv : v = (u.find t null call).2 := (congrArg Prod.snd (Option.some.inj hact)).symm
        rw [hv]
        exact hsettled.find t (hlast t call null rfl) null
      · cases hact
    | resize t => exact hsettled.grow hstep
  · rcases List.mem_append.mp he' with hmem | hmem
    · exact hall e' hmem
    · rw [List.mem_singleton.mp hmem]
      exact (step_inBounds_iff hstep).mpr (hsettled.meets hstep hlast)

/-! ## The tables themselves -/

/-- `get` looks outside of `m_data` exactly when the condition fails. -/
theorem find_isSome_iff {m : FdManager} (h : m.data.length < 2 ^ 31) (fd : Int) (autoCreate : Bool) :
    (m.find fd autoCreate).isSome ↔ fd = -1 ∨ FromAbove m.data.length fd := by
  unfold FdManager.find FromAbove
  rw [intOfSize_eq h]
  by_cases hfd : fd = -1
  · rw [if_pos hfd]
    exact iff_of_true rfl (.inl hfd)
  · rw [if_neg hfd, or_iff_right hfd]
    by_cases hle : (m.data.length : Int) ≤ fd
    · rw [if_pos hle]
      exact iff_of_true rfl fun hlt => absurd hlt (Int.not_lt.mpr hle)
    · rw [if_neg hle]
      by_cases hneg : fd < 0
      · rw [if_pos hneg]
        exact iff_of_false (by decide) fun habove => by have := habove (by omega); omega
      · rw [if_neg hneg]
        refine iff_of_true ?_ fun _ => Int.not_lt.mp hneg
        split <;> rfl

theorem del_isSome_iff {m : FdManager} (h : m.data.length < 2 ^ 31) (fd : Int) :
    (m.del fd).isSome ↔ FromAbove m.data.length fd := by
  unfold FdManager.del FromAbove
  rw [intOfSize_eq h]
  by_cases hle : (m.data.length : Int) ≤ fd
  · rw [if_pos hle]
    exact iff_of_true rfl fun hlt => absurd hlt (Int.not_lt.mpr hle)
  · rw [if_neg hle]
    by_cases hneg : fd < 0
    · rw [if_pos hneg]
      exact iff_of_false (by decide) fun habove => by have := habove (by omega); omega
    · rw [if_neg hneg]
      exact iff_of_true rfl fun _ => Int.not_lt.mp hneg

/-- `m_data` has the size that `get` leaves it with. -/
theorem length_create {m : FdManager} {fd : Int} {t : τ} {s s' : TableSizes τ} {l : Lookup}
    (h : m.data.length < 2 ^ 31) (hsize : s.data = m.data.length) (hfd : 0 ≤ fd)
    (hgrow : s.grow t (.create fd) = some (l, s')) (ctx : FdCtx) :
    s'.data = (m.create ctx fd).data.length := by
  unfold FdManager.create
  rw [TableSizes.grow, grown, hsize, intOfSize_eq h, if_neg (Int.not_lt.mpr hfd)] at hgrow
  rw [List.length_set]
  by_cases hle : fd ≥ (m.data.length : Int)
  · rw [if_pos hle] at hgrow
    cases hgrow
    rw [if_pos hle, List.length_append, List.length_replicate]
    show (fd * 3 / 2).toNat = _
    omega
  · rw [if_neg hle] at hgrow
    cases hgrow
    rw [if_neg hle]
    exact hsize

/-- A call on the event table looks outside of it exactly when the condition fails. -/
theorem eventTable_find_isSome_iff {S C : Type} {s : EventTable S C τ}
    (h : s.fdContexts.length < 2 ^ 31) (t : τ) (call : IoCall S C) :
    (s.find t call).isSome ↔ FromAbove s.fdContexts.length call.fd := by
  unfold EventTable.find EventTable.lockOf EventTable.fdContext FromAbove
  rw [intOfSize_eq h]
  by_cases hlt : call.fd < (s.fdContexts.length : Int)
  · rw [if_pos hlt, Option.isSome_map]
    by_cases hneg : call.fd < 0
    · rw [if_pos hneg]
      exact iff_of_false (by decide) fun habove => by have := habove hlt; omega
    · rw [if_neg hneg, List.getElem?_eq_getElem (by omega)]
      exact iff_of_true rfl fun _ => Int.not_lt.mp hneg
  · rw [if_neg hlt]
    refine iff_of_true ?_ fun h => absurd h hlt
    cases call <;> rfl

end TableSizes

end Azure
