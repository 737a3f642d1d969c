import Azure.Http.Message
import Mathlib.Data.List.Induction

/-!
# The maps of a request and the accessors that convert

A request has three maps.  The accessors that convert a value are instances of two templates, and those
for parameters and cookies are given the map of the headers.
-/

namespace Azure

/-! ## Maps -/

namespace HeaderMap

def same (key key' : Bytes) : Prop := (cStr key).map tolower = (cStr key').map tolower

instance (key key' : Bytes) : Decidable (same key key') :=
  inferInstanceAs (Decidable ((cStr key).map tolower = (cStr key').map tolower))

theorem not_less_iff (key key' : Bytes) :
    (!caseInsensitiveLess key key' && !caseInsensitiveLess key' key) = decide (same key key') := by
  rw [Bool.eq_iff_iff]
  simp only [caseInsensitiveLess, Bool.and_eq_true, Bool.not_eq_true', decide_eq_false_iff_not,
    decide_eq_true_iff]
  constructor
  · exact fun h => List.le_antisymm (List.not_lt.mp h.2) (List.not_lt.mp h.1)
  · intro h
    rw [same] at h
    rw [h]
    exact ⟨List.lt_irrefl _, List.lt_irrefl _⟩

theorem not_same_of_less {key key' : Bytes} (h : caseInsensitiveLess key key' = true) :
    ¬ same key key' := by
  intro hsame
  have hneither := not_less_iff key key'
  rw [h, decide_eq_true hsame] at hneither
  cases hneither

theorem find_cons (key : Bytes) (e : Bytes × Bytes) (m : HeaderMap) :
    find key (e :: m) = if same e.1 key then some e.2 else find key m := by
  rw [find, List.find?_cons, not_less_iff]
  by_cases h : same e.1 key <;> simp only [h, decide_true, decide_false, if_true, if_false]
  · rfl
  · rfl

/-- A key is found where it was set. -/
theorem find_set (key key' val : Bytes) (m : HeaderMap) :
    find key (set key' val m) = if same key' key then some val else find key m := by
  induction m with
  | nil => rw [set, find_cons]
  | cons e m ih =>
    obtain ⟨k, v⟩ := e
    rw [set]
    split
    · next hless =>
      rw [find_cons, ih, find_cons]
      -- the new key comes later in the map
      have hne := not_same_of_less hless
      by_cases hkey : same key' key
      · have hnot : ¬ same k key := fun h => hne (h.trans hkey.symm)
        simp only [hkey, hnot, if_true, if_false]
      · simp only [hkey, if_false]
    · split
      · rw [find_cons]
      · -- the keys are the same
        next hnot hnot' =>
        have hsame : same k key' := by
          have hneither := not_less_iff k key'
          rw [Bool.eq_false_iff.mpr hnot, Bool.eq_false_iff.mpr hnot'] at hneither
          exact of_decide_eq_true hneither.symm
        have hiff : same k key ↔ same key' key :=
          ⟨fun h => hsame.symm.trans h, fun h => hsame.trans h⟩
        rw [find_cons, find_cons]
        by_cases hkey : same key' key <;> simp only [hiff, hkey, if_true, if_false]

/-- A key that was erased is not found. -/
theorem find_erase (key key' : Bytes) (m : HeaderMap) :
    find key (erase key' m) = if same key' key then none else find key m := by
  have hkeep : ∀ e : Bytes × Bytes,
      (caseInsensitiveLess e.1 key' || caseInsensitiveLess key' e.1) = !decide (same e.1 key') := by
    intro e
    rw [← not_less_iff, Bool.not_and, Bool.not_not, Bool.not_not]
  simp only [erase, hkeep]
  induction m with
  | nil => by_cases h : same key' key <;> simp only [h, if_true, if_false] <;> rfl
  | cons e m ih =>
    rw [List.filter_cons]
    by_cases hsame : same e.1 key'
    · have hiff : same e.1 key ↔ same key' key :=
        ⟨fun h => hsame.symm.trans h, fun h => hsame.trans h⟩
      simp only [hsame, decide_true, Bool.not_true, Bool.false_eq_true, if_false, ih, find_cons, hiff]
      by_cases hkey : same key' key <;> simp only [hkey, if_true, if_false]
    · simp only [hsame, decide_false, Bool.not_false, if_true, find_cons, ih]
      by_cases hkey : same key' key
      · have hnot : ¬ same e.1 key := fun h => hsame (h.trans hkey.symm)
        simp only [hkey, hnot, if_true, if_false]
      · simp only [hkey, if_false]

end HeaderMap

/-! ## The templates -/

section
variable {T : Type} (cast : Bytes → Option T) (m : HeaderMap) (key : Bytes) (def_ : T)

/-- `checkGetAs`, with what it leaves in `val`; `cast` is `boost::lexical_cast<T>`, `none` when it
throws. -/
def checkGetAs : Bool × T :=
  match m.find key with
  | none => (false, def_)
  | some str =>
    match cast str with
    | some val => (true, val)
    | none => (false, def_)

def getAs : T :=
  match m.find key with
  | none => def_
  | some str => (cast str).getD def_

end

namespace HttpRequest

/-! ## The accessors -/

section
variable (r : HttpRequest) (key : Bytes)

def getHeader (def_ : Bytes) : Bytes := (r.headers.find key).getD def_
def getParam (def_ : Bytes) : Bytes := (r.params.find key).getD def_
def getCookie (def_ : Bytes) : Bytes := (r.cookies.find key).getD def_

def setHeader (val : Bytes) : HttpRequest := { r with headers := r.headers.set key val }
def setParam (val : Bytes) : HttpRequest := { r with params := r.params.set key val }
def setCookie (val : Bytes) : HttpRequest := { r with cookies := r.cookies.set key val }

def delHeader : HttpRequest := { r with headers := r.headers.erase key }
def delParam : HttpRequest := { r with params := r.params.erase key }
def delCookie : HttpRequest := { r with cookies := r.cookies.erase key }

def hasHeader : Bool := (r.headers.find key).isSome
def hasParam : Bool := (r.params.find key).isSome
def hasCookie : Bool := (r.cookies.find key).isSome

variable {T : Type} (cast : Bytes → Option T) (def_ : T)

def checkGetHeaderAs : Bool × T := checkGetAs cast r.headers key def_
def getHeaderAs : T := getAs cast r.headers key def_

-- the map of these four is `m_headers` too
def checkGetParamAs : Bool × T := checkGetAs cast r.headers key def_
def getParamAs : T := getAs cast r.headers key def_
def checkGetCookieAs : Bool × T := checkGetAs cast r.headers key def_
def getCookieAs : T := getAs cast r.headers key def_

end

/-! ## Histories -/

inductive Named where
  | header
  | param
  | cookie
  deriving DecidableEq, Repr

inductive Call where
  | set (map : Named) (key val : Bytes)
  | del (map : Named) (key : Bytes)

def Call.map : Call → Named
  | set map _ _ => map
  | del map _ => map

def call (r : HttpRequest) : Call → HttpRequest
  | .set .header key val => r.setHeader key val
  | .set .param key val => r.setParam key val
  | .set .cookie key val => r.setCookie key val
  | .del .header key => r.delHeader key
  | .del .param key => r.delParam key
  | .del .cookie key => r.delCookie key

def run (calls : List Call) : HttpRequest := calls.foldl call {}

def wrote (map : Named) (key : Bytes) (before : Option Bytes) : Call → Option Bytes
  | .set map' key' val => if map' = map ∧ HeaderMap.same key' key then some val else before
  | .del map' key' => if map' = map ∧ HeaderMap.same key' key then none else before

def written (map : Named) (key : Bytes) (calls : List Call) : Option Bytes :=
  calls.foldl (wrote map key) none

def named (r : HttpRequest) : Named → HeaderMap
  | .header => r.headers
  | .param => r.params
  | .cookie => r.cookies

theorem find_call (r : HttpRequest) (map : Named) (key : Bytes) (c : Call) :
    ((r.call c).named map).find key = wrote map key ((r.named map).find key) c := by
  cases c with
  | set map' key' val =>
    by_cases heq : map' = map
    · subst heq
      simp only [wrote, true_and]
      cases map' <;> exact HeaderMap.find_set key key' val _
    · simp only [wrote, heq, false_and, if_false]
      cases map' <;> cases map <;> first | rfl | exact absurd rfl heq
  | del map' key' =>
    by_cases heq : map' = map
    · subst heq
      simp only [wrote, true_and]
      cases map' <;> exact HeaderMap.find_erase key key' _
    · simp only [wrote, heq, false_and, if_false]
      cases map' <;> cases map <;> first | rfl | exact absurd rfl heq

theorem run_append (calls : List Call) (c : Call) : run (calls ++ [c]) = (run calls).call c := by
  rw [run, List.foldl_append]
  rfl

/-- The maps hold what was written last. -/
theorem find_run (map : Named) (key : Bytes) (calls : List Call) :
    ((run calls).named map).find key = written map key calls := by
  induction calls using List.reverseRecOn with
  | nil => cases map <;> rfl
  | append_singleton calls c ih =>
    rw [run_append, find_call, ih, written, written, List.foldl_append]
    rfl

/-! ## What the accessors give -/

section
variable {T : Type} (cast : Bytes → Option T) (key : Bytes) (def_ : T) (r : HttpRequest)

/-- The accessors of a name: whether a value is there, what it is, and the two that convert. -/
def has : Named → Bool
  | .header => r.hasHeader key
  | .param => r.hasParam key
  | .cookie => r.hasCookie key

def get : Named → Bytes
  | .header => r.getHeader key []
  | .param => r.getParam key []
  | .cookie => r.getCookie key []

def converted : Named → (Bool × T) × T
  | .header => (r.checkGetHeaderAs key cast def_, r.getHeaderAs key cast def_)
  | .param => (r.checkGetParamAs key cast def_, r.getParamAs key cast def_)
  | .cookie => (r.checkGetCookieAs key cast def_, r.getCookieAs key cast def_)

def Converts (map : Named) : Prop :=
  r.converted cast key def_ map =
    if r.has key map then
      match cast (r.get key map) with
      | some val => ((true, val), val)
      | none => ((false, def_), def_)
    else ((false, def_), def_)

def conversion (v : Option T) : (Bool × T) × T :=
  match v with
  | some val => ((true, val), val)
  | none => ((false, def_), def_)

theorem conversion_inj {def_ : T} {v w : Option T} (h : conversion def_ v = conversion def_ w) : v = w := by
  cases v with
  | none =>
    cases w with
    | none => rfl
    | some b => exact absurd (congrArg (fun p => p.1.1) h) Bool.false_ne_true
  | some a =>
    cases w with
    | none => exact absurd (congrArg (fun p => p.1.1) h.symm) Bool.false_ne_true
    | some b => exact congrArg some (congrArg Prod.snd h)

/-- All of them look for the key among the headers. -/
theorem converted_eq (map : Named) :
    r.converted cast key def_ map = conversion def_ ((r.headers.find key).bind cast) := by
  have hcheck : checkGetAs cast r.headers key def_ =
      (conversion def_ ((r.headers.find key).bind cast)).1 := by
    rw [checkGetAs]
    cases r.headers.find key with
    | none => rfl
    | some str => cases hcast : cast str <;> simp only [Option.bind_some, hcast, conversion]
  have hget : getAs cast r.headers key def_ =
      (conversion def_ ((r.headers.find key).bind cast)).2 := by
    rw [getAs]
    cases r.headers.find key with
    | none => rfl
    | some str => cases hcast : cast str <;> simp only [Option.bind_some, hcast, conversion] <;> rfl
  cases map <;> exact Prod.ext hcheck hget

theorem converts_iff (map : Named) :
    r.Converts cast key def_ map ↔
      (r.headers.find key).bind cast = ((r.named map).find key).bind cast := by
  have hspec : (if r.has key map then
      match cast (r.get key map) with
      | some val => ((true, val), val)
      | none => ((false, def_), def_)
    else ((false, def_), def_)) = conversion def_ (((r.named map).find key).bind cast) := by
    have hhas : r.has key map = ((r.named map).find key).isSome := by cases map <;> rfl
    have hget : r.get key map = ((r.named map).find key).getD [] := by cases map <;> rfl
    rw [hhas, hget]
    cases (r.named map).find key with
    | none => rfl
    | some str => rfl
  rw [Converts, hspec, converted_eq]
  exact ⟨conversion_inj, fun h => by rw [h]⟩

end

/-- The accessors for headers are right after every history, the others when the headers hold what
converts to the same; and only a call for a header can touch the accessors of another name. -/
theorem accessors_iff {T : Type} (cast : Bytes → Option T) (key : Bytes) (def_ : T)
    (calls : List Call) :
    (run calls).Converts cast key def_ .header ∧
    (∀ map, (run calls).Converts cast key def_ map ↔
      (written .header key calls).bind cast = (written map key calls).bind cast) ∧
    ∀ c map, c.map ≠ map →
      ((run (calls ++ [c])).converted cast key def_ map = (run calls).converted cast key def_ map ↔
        map = .header ∨ c.map ≠ .header ∨
          (written .header key (calls ++ [c])).bind cast = (written .header key calls).bind cast) := by
  have hheader : ∀ calls, (run calls).headers.find key = written .header key calls :=
    find_run .header key
  refine ⟨?_, fun map => ?_, fun c map hne => ?_⟩
  · rw [converts_iff]
    rfl
  · rw [converts_iff, hheader, find_run]
  · rw [converted_eq, converted_eq, hheader, hheader]
    -- only a call for a header changes what was written to the headers
    have hother : c.map ≠ .header → written .header key (calls ++ [c]) = written .header key calls := by
      intro hmap
      rw [written, written, List.foldl_append]
      cases c with
      | set map' key' val => exact if_neg fun h => hmap h.1
      | del map' key' => exact if_neg fun h => hmap h.1
    constructor
    · exact fun h => Or.inr (Or.inr (conversion_inj h))
    · rintro (rfl | hmap | hsame)
      · rw [hother hne]
      · rw [hother hmap]
      · rw [hsame]

/-- A parameter that was set is not found. -/
theorem param_not_converted :
    ¬ (run [.set .param (ascii ['a']) (ascii ['1'])]).Converts some (ascii ['a']) [] .param := by
  unfold Converts
  decide

end HttpRequest

end Azure
