import Azure.Log.Model

/-!
# Configuration variables (`ConfigVar` of `config.h`)

A variable that is given another value first tells its listeners and then stores the value.  A
listener acts on the rest of the program, of type `σ`, such as the settings it copies the value into.
-/

namespace Azure

/-- `on_change_cb`, called with the old and the new value; it may throw. -/
abbrev OnChangeCb (T σ : Type) : Type := T → T → σ → Option String × σ

structure Notice (T : Type) where
  id : Nat
  oldValue : T
  newValue : T
  deriving DecidableEq, Repr

/-- The listeners stand in the order of their ids, as in a `std::map`. -/
structure ConfigVar (T σ : Type) where
  val : T
  cbs : List (Nat × OnChangeCb T σ)
  sorted : (cbs.map Prod.fst).Pairwise (· < ·)

/-- What a call leaves behind: the variable, the rest of the program, the listeners called, and the
exception that is on its way. -/
structure Updated (T σ : Type) where
  var : ConfigVar T σ
  world : σ
  notices : List (Notice T)
  thrown : Option String

namespace ConfigVar

variable {T σ : Type}

def new (default_value : T) : ConfigVar T σ := ⟨default_value, [], .nil⟩

/-- `++s_fun_id; m_cbs[s_fun_id] = cb;`: the counter has passed all ids given so far. -/
def addListener (s_fun_id : Nat) (cb : OnChangeCb T σ) (v : ConfigVar T σ)
    (h : ∀ i ∈ v.cbs.map Prod.fst, i ≤ s_fun_id) : Nat × ConfigVar T σ :=
  (s_fun_id + 1, { v with
    cbs := v.cbs ++ [(s_fun_id + 1, cb)]
    sorted := by
      rw [List.map_append, List.pairwise_append]
      refine ⟨v.sorted, List.pairwise_singleton _ _, fun i hi j hj => ?_⟩
      rw [List.mem_singleton.mp hj]
      exact Nat.lt_succ_of_le (h i hi) })

def notify (old_value new_value : T) :
    List (Nat × OnChangeCb T σ) → σ → List (Notice T) × Option String × σ
  | [], s => ([], none, s)
  | (id, cb) :: cbs, s =>
    match cb old_value new_value s with
    | (some what, s') => ([⟨id, old_value, new_value⟩], some what, s')
    | (none, s') =>
      let rest := notify old_value new_value cbs s'
      (⟨id, old_value, new_value⟩ :: rest.1, rest.2)

def setValue [BEq T] (v : ConfigVar T σ) (value : T) (s : σ) : Updated T σ :=
  if value == v.val then { var := v, world := s, notices := [], thrown := none }
  else
    match notify v.val value v.cbs s with
    | (notices, some what, s') => { var := v, world := s', notices, thrown := some what }
    | (notices, none, s') =>
      { var := { v with val := value }, world := s', notices, thrown := none }

/-- `fromString`: whatever is thrown is caught here, and the result is false in any case. -/
def fromString [BEq T] (fromStr : String → Except String T) (v : ConfigVar T σ) (str : String)
    (s : σ) : Bool × Updated T σ :=
  match fromStr str with
  | .error _ => (false, { var := v, world := s, notices := [], thrown := none })
  | .ok value => (false, { v.setValue value s with thrown := none })

def allNotices (v : ConfigVar T σ) (value : T) : List (Notice T) :=
  v.cbs.map fun cb => ⟨cb.1, v.val, value⟩

/-- The update was made as a whole, with every listener told, or not at all. -/
def AllOrNothing [BEq T] (v : ConfigVar T σ) (parsed : Except String T) (u : Updated T σ) : Prop :=
  ((u.var.val = v.val ∧ u.notices = []) ∨
      ∃ value, parsed = .ok value ∧ u.var.val = value ∧ u.notices = v.allNotices value) ∧
    ∀ value, parsed = .ok value → (value == v.val) = true → u.notices = []

def Quiet (old_value new_value : T) : List (Nat × OnChangeCb T σ) → σ → Prop
  | [], _ => True
  | (_, cb) :: cbs, s =>
    (cb old_value new_value s).1 = none ∧
      Quiet old_value new_value cbs (cb old_value new_value s).2

/-- The text does not parse, or its value is the current one, or no listener throws.  A value that is
not equal to itself may be set once more, and there the last listener can do no harm. -/
def Completes [BEq T] (v : ConfigVar T σ) (parsed : Except String T) (s : σ) : Prop :=
  ∀ value, parsed = .ok value → (value == v.val) = false →
    Quiet v.val value v.cbs s ∨ (value = v.val ∧ Quiet v.val value v.cbs.dropLast s)

/-! ## The loop over the listeners -/

variable {old_value new_value : T} {cbs : List (Nat × OnChangeCb T σ)} {s : σ}

theorem notify_thrown_iff :
    (notify old_value new_value cbs s).2.1 = none ↔ Quiet old_value new_value cbs s := by
  induction cbs generalizing s with
  | nil => exact ⟨fun _ => trivial, fun _ => rfl⟩
  | cons cb cbs ih =>
    unfold notify Quiet
    cases hcb : cb.2 old_value new_value s with
    | mk thrown s' =>
      cases thrown with
      | some what => simp
      | none => simp [ih]

/-- The listeners called are all of them exactly when none but the last throws. -/
theorem notify_eq_iff :
    (notify old_value new_value cbs s).1 = cbs.map (fun cb => ⟨cb.1, old_value, new_value⟩) ↔
      Quiet old_value new_value cbs.dropLast s := by
  induction cbs generalizing s with
  | nil => exact ⟨fun _ => trivial, fun _ => rfl⟩
  | cons cb cbs ih =>
    unfold notify
    cases hcb : cb.2 old_value new_value s with
    | mk thrown s' =>
      cases cbs with
      | nil => cases thrown <;> simp [notify, Quiet]
      | cons next rest =>
        rw [List.dropLast_cons_cons, Quiet]
        cases thrown with
        | some what => simp [hcb]
        | none => simpa [hcb] using ih

/-- A listener that throws has been called. -/
theorem notify_ne_nil (h : ¬ Quiet old_value new_value cbs s) :
    (notify old_value new_value cbs s).1 ≠ [] := by
  cases cbs with
  | nil => exact absurd trivial h
  | cons cb cbs =>
    unfold notify
    cases hcb : cb.2 old_value new_value s with
    | mk thrown s' => cases thrown <;> simp

theorem Quiet.dropLast (h : Quiet old_value new_value cbs s) :
    Quiet old_value new_value cbs.dropLast s := by
  induction cbs generalizing s with
  | nil => trivial
  | cons cb cbs ih =>
    cases cbs with
    | nil => trivial
    | cons next rest =>
      rw [List.dropLast_cons_cons]
      exact ⟨h.1, ih h.2⟩

end ConfigVar

end Azure
