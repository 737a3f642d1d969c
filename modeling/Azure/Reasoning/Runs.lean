import Mathlib.Data.List.Induction

/-!
# Runs of labelled transition systems

A component is a step relation `σ → α → σ → Prop` whose labels name the operation taken, so that a
run carries its own history.  `Run` is the finite runs, `Guarded` restricts a relation to the steps
whose label meets a condition on the state before them.  The rules below carry facts along runs: an
invariant of the state or of the history, two relations that agree on the states of an invariant, and
a property that holds all along the runs of a restricted relation and of no others.
-/

namespace Azure.Reasoning

variable {σ τ α : Type*}

inductive Run (step : σ → α → σ → Prop) : σ → List α → σ → Prop
  | nil (s : σ) : Run step s [] s
  | snoc {s t u : σ} {as : List α} {a : α} :
      Run step s as t → step t a u → Run step s (as ++ [a]) u

/-- The steps of `step` whose label is allowed in the state they start from. -/
def Guarded (guard : σ → α → Prop) (step : σ → α → σ → Prop) : σ → α → σ → Prop :=
  fun s a t => guard s a ∧ step s a t

def Steps (step : σ → α → Option σ) : σ → α → σ → Prop :=
  fun s a t => step s a = some t

variable {step : σ → α → σ → Prop}

/-- A property of the history and the state that holds at the start and that every step extends
holds of the whole run. -/
theorem Run.history_invariant (inv : List α → σ → Prop) {s t : σ} {as : List α}
    (hrun : Run step s as t) (hinit : inv [] s)
    (hstep : ∀ as s a t, inv as s → step s a t → inv (as ++ [a]) t) : inv as t := by
  induction hrun with
  | nil => exact hinit
  | snoc _ hs ih => exact hstep _ _ _ _ ih hs

/-- A property of the state that every step preserves is preserved by every run. -/
theorem Run.invariant (inv : σ → Prop) {s t : σ} {as : List α}
    (hrun : Run step s as t) (hinit : inv s)
    (hstep : ∀ s a t, inv s → step s a t → inv t) : inv t :=
  hrun.history_invariant (fun _ => inv) hinit fun _ s a t => hstep s a t

theorem Run.mono {step' : σ → α → σ → Prop} {s t : σ} {as : List α}
    (hrun : Run step s as t) (hle : ∀ s a t, step s a t → step' s a t) : Run step' s as t := by
  induction hrun with
  | nil => exact .nil _
  | snoc _ hs ih => exact .snoc ih (hle _ _ _ hs)

/-- A run whose labels are all allowed is a run. -/
theorem Run.unguarded {guard : σ → α → Prop} {s t : σ} {as : List α}
    (hrun : Run (Guarded guard step) s as t) : Run step s as t :=
  hrun.mono fun _ _ _ h => h.2

theorem Run.append {s t u : σ} {as bs : List α}
    (hst : Run step s as t) (htu : Run step t bs u) : Run step s (as ++ bs) u := by
  induction htu with
  | nil => simpa using hst
  | snoc _ hs ih => rw [← List.append_assoc]; exact .snoc ih hs

/-- Where a history with one more event is split: at that event, or before it. -/
theorem snoc_eq_split {es pre mid : List α} {x e : α} (h : es ++ [x] = pre ++ e :: mid) :
    (mid = [] ∧ pre = es ∧ e = x) ∨ ∃ mid', mid = mid' ++ [x] ∧ es = pre ++ e :: mid' := by
  rcases List.eq_nil_or_concat mid with rfl | ⟨mid', y, rfl⟩
  · have heq := List.append_inj' h rfl
    exact .inl ⟨rfl, heq.1.symm, (List.singleton_inj.mp heq.2).symm⟩
  · rw [List.concat_eq_append, ← List.cons_append, ← List.append_assoc] at h
    have heq := List.append_inj' h rfl
    have hy := List.singleton_inj.mp heq.2
    exact .inr ⟨mid', by rw [List.concat_eq_append, hy], heq.1⟩

theorem Run.single {s t : σ} {a : α} (h : step s a t) : Run step s [a] t :=
  .snoc (.nil s) h

def runAll (step : σ → α → Option σ) (s : σ) : List α → Option σ
  | [] => some s
  | a :: as => (step s a).bind fun t => runAll step t as

theorem run_of_runAll {step : σ → α → Option σ} {s t : σ} {as : List α}
    (h : runAll step s as = some t) : Run (Steps step) s as t := by
  induction as generalizing s with
  | nil =>
    cases h
    exact .nil _
  | cons a as ih =>
    rcases Option.bind_eq_some_iff.mp h with ⟨u, hu, hrest⟩
    exact (Run.single hu).append (ih hrest)

-- The labels are checked as the run is evaluated; `ok` may be stricter than the guard.
theorem run_of_runAll_guarded {guard : σ → α → Prop} {step : σ → α → Option σ} (ok : σ → α → Bool)
    (hok : ∀ s a, ok s a = true → guard s a) {s t : σ} {as : List α}
    (h : runAll (fun s a => if ok s a then step s a else none) s as = some t) :
    Run (Guarded guard (Steps step)) s as t := by
  apply (run_of_runAll h).mono
  intro s a t hs
  simp only [Steps] at hs
  split at hs
  · next hguard => exact ⟨hok s a hguard, hs⟩
  · cases hs

/-- The same for a step function that also has an effect, which becomes part of the label. -/
def runActs {ε : Type*} (act : σ → α → Option (ε × σ)) (s : σ) :
    List α → Option (List (α × ε) × σ)
  | [] => some ([], s)
  | a :: as =>
    (act s a).bind fun r => (runActs act r.2 as).map fun q => ((a, r.1) :: q.1, q.2)

theorem run_of_runActs {ε : Type*} (guard : σ → α → Prop) {act : σ → α → Option (ε × σ)}
    (ok : σ → α → Bool) (hok : ∀ s a, ok s a = true → guard s a) {s t : σ} {as : List α}
    {hist : List (α × ε)}
    (h : runActs (fun s a => if ok s a then act s a else none) s as = some (hist, t)) :
    Run (Guarded (fun s e => guard s e.1) fun s e t => act s e.1 = some (e.2, t)) s hist t := by
  induction as generalizing s hist with
  | nil =>
    cases h
    exact .nil _
  | cons a as ih =>
    rcases Option.bind_eq_some_iff.mp h with ⟨⟨e, u⟩, hu, hrest⟩
    rcases Option.map_eq_some_iff.mp hrest with ⟨⟨hist', t'⟩, hmore, heq⟩
    cases heq
    dsimp only at hu
    split at hu
    · next hguard =>
      exact (Run.single (show Guarded (fun s e => guard s e.1) _ s (a, e) u from
        ⟨hok s a hguard, hu⟩)).append (ih hmore)
    · cases hu

/-- A run followed by one more step splits back into the two. -/
theorem Run.snoc_inv {s u : σ} {as : List α} {a : α} (hrun : Run step s (as ++ [a]) u) :
    ∃ t, Run step s as t ∧ step t a u := by
  generalize hl : as ++ [a] = l at hrun
  cases hrun with
  | nil => simp at hl
  | snoc h hs =>
    obtain ⟨rfl, rfl⟩ := List.append_singleton_inj.mp hl
    exact ⟨_, h, hs⟩

/-- A run over a longer history passes through a state reached by the shorter one. -/
theorem Run.append_inv {s u : σ} {as bs : List α} (hrun : Run step s (as ++ bs) u) :
    ∃ t, Run step s as t ∧ Run step t bs u := by
  induction bs using List.reverseRecOn generalizing u with
  | nil => exact ⟨u, by simpa using hrun, .nil u⟩
  | append_singleton bs b ih =>
    rw [← List.append_assoc] at hrun
    obtain ⟨v, hv, hb⟩ := hrun.snoc_inv
    obtain ⟨t, hst, htv⟩ := ih hv
    exact ⟨t, hst, .snoc htv hb⟩

/-- A property that holds at the end of a run and not at its start begins to hold at some step. -/
theorem Run.crossing (p : σ → Prop) {s t : σ} {as : List α} (hrun : Run step s as t) (hs : ¬ p s)
    (ht : p t) : ∃ before a after u v, as = before ++ a :: after ∧ Run step s before u ∧
      step u a v ∧ Run step v after t ∧ ¬ p u ∧ p v := by
  induction hrun with
  | nil => exact absurd ht hs
  | @snoc t u as a hrun hstep ih =>
    by_cases hp : p t
    · obtain ⟨before, b, after, v, w, rfl, hv, hb, hw, hnot, hyes⟩ := ih hp
      exact ⟨before, b, after ++ [a], v, w, by simp, hv, hb, .snoc hw hstep, hnot, hyes⟩
    · exact ⟨as, a, [], t, u, rfl, hrun, hstep, .nil u, hp, ht⟩

/-- A run whose steps all meet a condition is a run of the restricted relation. -/
theorem Run.guarded {guard : σ → α → Prop} {s t : σ} {as : List α} (hrun : Run step s as t)
    (h : ∀ before a after u v, as = before ++ a :: after → Run step s before u → step u a v →
      Run step v after t → guard u a) : Run (Guarded guard step) s as t := by
  induction hrun with
  | nil => exact .nil _
  | @snoc t u as a hrun hstep ih =>
    have hlast := h as a [] t u rfl hrun hstep (.nil u)
    refine .snoc (ih fun before b after v w has hv hb hw => ?_) ⟨hlast, hstep⟩
    exact h before b (after ++ [a]) v w (by rw [has, List.append_assoc]; rfl) hv hb (.snoc hw hstep)

/-- When the label determines the step, the history determines where a run leads. -/
theorem Run.unique (hstep : ∀ s a t t', step s a t → step s a t' → t = t') {s t t' : σ}
    {as : List α} (h : Run step s as t) (h' : Run step s as t') : t = t' := by
  induction h generalizing t' with
  | nil =>
    generalize hl : [] = l at h'
    cases h' with
    | nil => rfl
    | snoc => simp at hl
  | snoc _ hs ih =>
    obtain ⟨u, hu, hlast⟩ := h'.snoc_inv
    rw [← ih hu] at hlast
    exact hstep _ _ _ _ hs hlast

/-- When the label determines the step, what a restricted run has reached by a part of its history is
what every run of that part reaches. -/
theorem Run.initial {step' : σ → α → σ → Prop} (hle : ∀ s a t, step' s a t → step s a t)
    (hstep : ∀ s a t t', step s a t → step s a t' → t = t') {s t u : σ} {as bs : List α}
    (hrun : Run step' s as t) (hbs : bs <+: as) (hu : Run step s bs u) : Run step' s bs u := by
  rcases hbs with ⟨cs, rfl⟩
  rcases hrun.append_inv with ⟨v, hv, -⟩
  have hsame : v = u := (hv.mono hle).unique hstep hu
  rw [← hsame]
  exact hv

/-- A property holds all along a run if and only if the run is one of the restricted relation, when
restricted runs have the property and a step that is not restricted loses it. -/
theorem Run.always_iff {step' : σ → α → σ → Prop} (p : List α → σ → Prop)
    (hle : ∀ s a t, step' s a t → step s a t)
    (hstep : ∀ s a t t', step s a t → step s a t' → t = t') {s t : σ} {as : List α}
    (hrun : Run step s as t) (hholds : ∀ bs u, Run step' s bs u → p bs u)
    (honly : ∀ bs u a v, Run step' s bs u → step u a v → p (bs ++ [a]) v → step' u a v) :
    (∀ bs u, bs <+: as → Run step s bs u → p bs u) ↔ Run step' s as t := by
  constructor
  · intro hall
    induction hrun with
    | nil => exact .nil _
    | @snoc t u as a hrun hlast ih =>
      have hbefore := ih fun bs v hbs => hall bs v (hbs.trans (List.prefix_append _ _))
      have hend := hall _ u List.prefix_rfl (hrun.snoc hlast)
      exact .snoc hbefore (honly as t a u hbefore hlast hend)
  · intro hrun' bs u hbs hu
    exact hholds bs u (hrun'.initial hle hstep hbs hu)

/-- Two step relations that agree on the states of an invariant have the same runs. -/
theorem Run.iff_of_invariant {step' : σ → α → σ → Prop} (inv : σ → Prop) {s t : σ} {as : List α}
    (hinit : inv s) (hinv : ∀ s a t, inv s → step' s a t → inv t)
    (hiff : ∀ s a t, inv s → (step s a t ↔ step' s a t)) :
    Run step s as t ↔ Run step' s as t := by
  have hkept : ∀ {as t}, Run step' s as t → inv t := fun hrun => hrun.invariant inv hinit hinv
  constructor
  · intro hrun
    induction hrun with
    | nil => exact .nil _
    | snoc _ hs ih => exact .snoc ih ((hiff _ _ _ (hkept ih)).mp hs)
  · intro hrun
    induction hrun with
    | nil => exact .nil _
    | snoc hbefore hs ih => exact .snoc ih ((hiff _ _ _ (hkept hbefore)).mpr hs)

/-- Forward simulation: when every step from related states is matched by a step with the same
label into related states, every run is matched by a run with the same history. -/
theorem Run.simulation {step' : τ → α → τ → Prop} (rel : σ → τ → Prop) {s t : σ} {as : List α}
    {s' : τ} (hrun : Run step s as t) (hinit : rel s s')
    (hsim : ∀ s a t s', rel s s' → step s a t → ∃ t', step' s' a t' ∧ rel t t') :
    ∃ t', Run step' s' as t' ∧ rel t t' := by
  induction hrun with
  | nil => exact ⟨s', .nil s', hinit⟩
  | snoc _ hs ih =>
    obtain ⟨t', hrun', hrel⟩ := ih
    obtain ⟨u', hs', hrel'⟩ := hsim _ _ _ _ hrel hs
    exact ⟨u', .snoc hrun' hs', hrel'⟩

end Azure.Reasoning
