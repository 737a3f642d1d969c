import Azure.Config.Model

/-!
# Updates of a configuration variable

An update is made as a whole or not at all, unless a listener throws: those called before it, and it
itself, have heard of a value that the variable never takes.
-/

namespace Azure

namespace ConfigVar

variable {T σ : Type} [BEq T]

/-- The current value is set without a word to the listeners. -/
theorem setValue_of_eq {v : ConfigVar T σ} {value : T} {s : σ} (h : (value == v.val) = true) :
    v.setValue value s = { var := v, world := s, notices := [], thrown := none } := by
  unfold setValue
  rw [if_pos h]

theorem setValue_of_quiet {v : ConfigVar T σ} {value : T} {s : σ} (h : (value == v.val) = false)
    (hquiet : Quiet v.val value v.cbs s) :
    v.setValue value s = {
      var := { v with val := value }
      world := (notify v.val value v.cbs s).2.2
      notices := v.allNotices value
      thrown := none } := by
  have hall : (notify v.val value v.cbs s).1 = v.allNotices value := notify_eq_iff.mpr hquiet.dropLast
  have hthrown := notify_thrown_iff.mpr hquiet
  unfold setValue
  rw [if_neg (by rw [h]; decide)]
  generalize hn : notify v.val value v.cbs s = r at hall hthrown ⊢
  cases r with
  | mk notices rest =>
    cases rest with
    | mk thrown s' =>
      cases hthrown
      cases hall
      rfl

/-- After an exception the variable is as it was, and the listeners called are still the listeners
called. -/
theorem setValue_of_not_quiet {v : ConfigVar T σ} {value : T} {s : σ}
    (h : (value == v.val) = false) (hthrows : ¬ Quiet v.val value v.cbs s) :
    (v.setValue value s).var = v ∧
      (v.setValue value s).notices = (notify v.val value v.cbs s).1 := by
  have hthrown : ¬ (notify v.val value v.cbs s).2.1 = none := fun hn =>
    hthrows (notify_thrown_iff.mp hn)
  unfold setValue
  rw [if_neg (by rw [h]; decide)]
  generalize notify v.val value v.cbs s = r at hthrown ⊢
  cases r with
  | mk notices rest =>
    cases rest with
    | mk thrown s' =>
      cases thrown with
      | none => exact absurd rfl hthrown
      | some what => exact ⟨rfl, rfl⟩

/-- `setValue` with another value. -/
theorem allOrNothing_setValue_iff {v : ConfigVar T σ} {value : T} {s : σ}
    (h : (value == v.val) = false) (thrown : Option String) :
    AllOrNothing v (.ok value) { v.setValue value s with thrown := thrown } ↔
      Quiet v.val value v.cbs s ∨ (value = v.val ∧ Quiet v.val value v.cbs.dropLast s) := by
  have hother : ∀ value', (Except.ok value : Except String T) = .ok value' →
      (value' == v.val) = true → False := by
    intro value' heq hsame
    cases heq
    rw [h] at hsame
    cases hsame
  by_cases hquiet : Quiet v.val value v.cbs s
  · rw [setValue_of_quiet h hquiet]
    constructor
    · intro _
      exact .inl hquiet
    · intro _
      exact ⟨.inr ⟨value, rfl, rfl, rfl⟩, fun value' heq hsame => (hother value' heq hsame).elim⟩
  · rcases setValue_of_not_quiet h hquiet with ⟨hvar, hnotices⟩
    have hcalled := notify_ne_nil hquiet
    constructor
    · rintro ⟨hkept | ⟨value', heq, hval, hall⟩, -⟩
      · exact absurd (hnotices.symm.trans hkept.2) hcalled
      · cases heq
        dsimp only at hval hall
        rw [hvar] at hval
        rw [hnotices] at hall
        exact .inr ⟨hval.symm, notify_eq_iff.mp hall⟩
    · rintro (hq | ⟨hsame, hinit⟩)
      · exact absurd hq hquiet
      · refine ⟨.inr ⟨value, rfl, ?_, ?_⟩, fun value' heq hs => (hother value' heq hs).elim⟩
        · dsimp only
          rw [hvar, hsame]
        · dsimp only
          rw [hnotices]
          exact notify_eq_iff.mpr hinit

/-- What a text does to a variable and its listeners. -/
theorem fromString_allOrNothing_iff (fromStr : String → Except String T) (v : ConfigVar T σ)
    (str : String) (s : σ) :
    AllOrNothing v (fromStr str) (v.fromString fromStr str s).2 ↔
      Completes v (fromStr str) s := by
  unfold fromString Completes
  cases hparsed : fromStr str with
  | error what =>
    constructor
    · intro _ value heq
      cases heq
    · intro _
      exact ⟨.inl ⟨rfl, rfl⟩, fun _ _ _ => rfl⟩
  | ok value =>
    -- `setValue` calls no listener for a value that is there already
    cases hsame : value == v.val with
    | true =>
      dsimp only
      rw [setValue_of_eq hsame]
      constructor
      · intro _ value' heq hother
        cases heq
        rw [hsame] at hother
        cases hother
      · intro _
        exact ⟨.inl ⟨rfl, rfl⟩, fun _ _ _ => rfl⟩
    | false =>
      dsimp only
      rw [allOrNothing_setValue_iff hsame]
      constructor
      · intro hquiet value' heq _
        cases heq
        exact hquiet
      · intro hall
        exact hall value rfl hsame

/-- One listener has copied the new value when the next one throws. -/
theorem fromString_not_allOrNothing :
    ¬ ∀ (fromStr : String → Except String Nat) (v : ConfigVar Nat Nat) (str : String) (s : Nat),
      AllOrNothing v (fromStr str) (v.fromString fromStr str s).2 := by
  intro h
  rcases h (fun _ => .ok 2)
    ⟨1, [(1, fun _ new_value _ => (none, new_value)), (2, fun _ _ s => (some "rejected", s))],
      by decide⟩ "2" 1 with ⟨hkept | ⟨value, heq, hval, -⟩, -⟩
  · cases hkept.2
  · cases heq
    cases hval

/-! ## The variable of the loggers -/

omit [BEq T] in
/-- The listener of the loggers never throws, and the variable with this listener is the one the
loggers are configured by. -/
theorem setValue_logDefines (c : LogConfig) (value : LogDefines) :
    let listener : OnChangeCb LogDefines LoggerManager := fun old_value new_value m =>
      (none, LoggerManager.listener old_value new_value m)
    let u := setValue ⟨c.val, [(1, listener)], List.pairwise_singleton _ _⟩ value c.manager
    (⟨u.var.val, u.world⟩ : LogConfig) = c.setValue value ∧ u.thrown = none := by
  intro listener u
  by_cases hsame : value = c.val
  · have heq : (value == c.val) = true := beq_iff_eq.mpr hsame
    have hu : u = _ := setValue_of_eq heq
    rw [hu, LogConfig.setValue, if_pos hsame]
    exact ⟨rfl, rfl⟩
  · have hne : (value == c.val) = false := beq_eq_false_iff_ne.mpr hsame
    have hu : u = _ := setValue_of_quiet hne ⟨rfl, trivial⟩
    rw [hu, LogConfig.setValue, if_neg hsame]
    exact ⟨rfl, rfl⟩

end ConfigVar

end Azure
