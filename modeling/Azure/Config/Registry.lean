import Azure.Config.Updates
import Azure.Log.Define

/-!
# The configuration (`Config` of `config.h` and `config.cpp`)

`Lookup` gives a name its variable, once and for all; `LoadFromYaml` walks through a document and hands each
node to the variable whose name is its path.  Seen from outside this is a map from names to values of
fixed types, and a document sets each of them to the last of its nodes that can be read.
-/

namespace Azure

/-! ## Documents -/

namespace YamlNode

mutual

/-- `ListAllMember`; a name that is no name is only logged. -/
def listAllMember (pre : String) : YamlNode → List (String × YamlNode)
  | map entries =>
    (if pre = "" then [] else [(pre, map entries)]) ++ listEntries pre entries
  | node => if pre = "" then [] else [(pre, node)]

def listEntries (pre : String) : List (String × YamlNode) → List (String × YamlNode)
  | [] => []
  | (key, node) :: entries =>
    listAllMember (if pre = "" then key else pre ++ "." ++ key) node ++ listEntries pre entries

end

/-- What `fromString` is given of a node; `emit` is what `<<` prints. -/
def text (emit : YamlNode → String) : YamlNode → String
  | scalar s => s
  | node => emit node

end YamlNode

/-! ## Variables -/

/-- `ConfigVarBase`, with the type that `dynamic_pointer_cast` asks for. -/
structure ConfigVarBase {ι : Type} (Ty : ι → Type) (σ : Type) where
  type : ι
  var : ConfigVar (Ty type) σ

def isNameChar (c : Char) : Bool :=
  'a' ≤ c ∧ c ≤ 'z' ∨ c = '.' ∨ c = '_' ∨ '0' ≤ c ∧ c ≤ '9'

/-- `s_data`: the variables in the order in which they were created, so that a place in the list is a
pointer.  Only `Visit` would see the order of the map. -/
structure Config {ι : Type} (Ty : ι → Type) (σ : Type) where
  entries : List (String × ConfigVarBase Ty σ)
  distinct : (entries.map Prod.fst).Nodup
  valid : ∀ name ∈ entries.map Prod.fst, name.toList.all isNameChar = true

inductive Looked where
  | ptr (p : Nat)
  | null
  /-- `std::invalid_argument(name)` -/
  | invalidArgument (name : String)
  deriving DecidableEq, Repr

namespace Config

variable {ι : Type} {Ty : ι → Type} {σ : Type}

/-- `GetData().find(name)` -/
def lookupBase (name : String) (c : Config Ty σ) : Option Nat :=
  c.entries.findIdx? fun e => e.1 = name

/-- `GetData()[name] = v` for a name that is not there. -/
def create (name : String) (v : ConfigVarBase Ty σ) (c : Config Ty σ)
    (hnew : name ∉ c.entries.map Prod.fst) (hname : name.toList.all isNameChar = true) : Config Ty σ where
  entries := c.entries ++ [(name, v)]
  distinct := by
    rw [List.map_append, List.map_singleton, List.nodup_append]
    refine ⟨c.distinct, by simp, fun a ha b hb heq => ?_⟩
    rw [List.mem_singleton] at hb
    rw [heq, hb] at ha
    exact hnew ha
  valid := by
    intro a ha
    rw [List.map_append, List.mem_append, List.map_singleton, List.mem_singleton] at ha
    rcases ha with ha | rfl
    · exact c.valid a ha
    · exact hname

theorem map_fst_modify {α β : Type} (f : β → β) (xs : List (α × β)) (p : Nat) :
    (xs.modify p fun e => (e.1, f e.2)).map Prod.fst = xs.map Prod.fst := by
  induction xs generalizing p with
  | nil => rw [List.modify_nil]
  | cons e xs ih =>
    cases p with
    | zero => rfl
    | succ p => rw [List.modify_succ_cons, List.map_cons, List.map_cons, ih]

/-- The first of some entries under a name, after a change of it. -/
theorem find?_modify {β : Type} {xs : List (String × β)} {name : String} {p : Nat}
    (h : (xs.findIdx? fun e => e.1 = name) = some p) (w : β) (other : String) :
    ((xs.modify p fun e => (e.1, w)).find? fun e => e.1 = other) =
      if other = name then some (name, w) else xs.find? fun e => e.1 = other := by
  induction xs generalizing p with
  | nil => cases h
  | cons e xs ih =>
    rw [List.findIdx?_cons] at h
    by_cases hname : e.1 = name
    · rw [if_pos (by simp [hname])] at h
      obtain rfl := Option.some.inj h
      rw [List.modify_zero_cons]
      by_cases hother : other = name
      · rw [if_pos hother, List.find?_cons_of_pos (by simp [hname, hother]), hname]
      · rw [if_neg hother, List.find?_cons_of_neg (by simp [hname, Ne.symm hother]),
          List.find?_cons_of_neg (by simp [hname, Ne.symm hother])]
    · rw [if_neg (by simp [hname])] at h
      obtain ⟨q, hq, rfl⟩ := Option.map_eq_some_iff.mp h
      rw [List.modify_succ_cons]
      by_cases hhead : e.1 = other
      · rw [List.find?_cons_of_pos (by simp [hhead]), List.find?_cons_of_pos (by simp [hhead]),
          if_neg fun heq => hname (hhead.trans heq)]
      · rw [List.find?_cons_of_neg (by simp [hhead]), List.find?_cons_of_neg (by simp [hhead]), ih hq]

def assign (p : Nat) (v : ConfigVarBase Ty σ) (c : Config Ty σ) : Config Ty σ where
  entries := c.entries.modify p fun e => (e.1, v)
  distinct := by
    rw [map_fst_modify fun _ => v]
    exact c.distinct
  valid := by
    rw [map_fst_modify fun _ => v]
    exact c.valid

theorem not_mem_of_lookupBase {name : String} {c : Config Ty σ} (h : c.lookupBase name = none) :
    name ∉ c.entries.map Prod.fst := by
  rw [lookupBase, List.findIdx?_eq_none_iff] at h
  intro hmem
  obtain ⟨e, he, rfl⟩ := List.mem_map.mp hmem
  exact absurd (h e he) (by simp)

def lookup [DecidableEq ι] (i : ι) (name : String) (default_value : Ty i) (c : Config Ty σ) :
    Looked × Config Ty σ :=
  match h : c.lookupBase name with
  | some p =>
    if (c.entries[p]?.map fun e => e.2.type) = some i then (.ptr p, c) else (.null, c)
  | none =>
    if hname : name.toList.all isNameChar = true then
      (.ptr c.entries.length,
        c.create name ⟨i, .new default_value⟩ (not_mem_of_lookupBase h) hname)
    else (.invalidArgument name, c)

/-- `Lookup<T>(name)` -/
def lookupOnly [DecidableEq ι] (i : ι) (name : String) (c : Config Ty σ) : Option Nat :=
  (c.lookupBase name).filter fun p => (c.entries[p]?.map fun e => e.2.type) = some i

variable [∀ i, BEq (Ty i)] (fromStr : (i : ι) → String → Except String (Ty i))
  (emit : YamlNode → String)

def fromString (p : Nat) (str : String) (c : Config Ty σ) (s : σ) : Config Ty σ × σ :=
  match c.entries[p]? with
  | none => (c, s)
  | some (_, v) =>
    let u := (v.var.fromString (fromStr v.type) str s).2
    (c.assign p ⟨v.type, u.var⟩, u.world)

/-- `setValue` of the variable behind a pointer to a variable of this type, and the exception that a listener
has thrown. -/
def setValue [DecidableEq ι] (p : Nat) (i : ι) (value : Ty i) (c : Config Ty σ) (s : σ) :
    Option String × Config Ty σ × σ :=
  match c.entries[p]? with
  | none => (none, c, s)
  | some (_, v) =>
    if h : i = v.type then
      let u := v.var.setValue (h ▸ value) s
      (u.thrown, c.assign p ⟨v.type, u.var⟩, u.world)
    else (none, c, s)

def loadNode (cs : Config Ty σ × σ) (n : String × YamlNode) : Config Ty σ × σ :=
  let key := n.1.toLower
  if n.1 = "" then cs
  else
    match cs.1.lookupBase key with
    | none => cs
    | some p => cs.1.fromString fromStr p (n.2.text emit) cs.2

def loadFromYaml (root : YamlNode) (cs : Config Ty σ × σ) : Config Ty σ × σ :=
  (YamlNode.listAllMember "" root).foldl (loadNode fromStr emit) cs

end Config

/-! ## Paths -/

namespace YamlNode

mutual

/-- The nodes of a document with the keys that lead to them, each in front of what it holds. -/
def paths : YamlNode → List (List String × YamlNode)
  | map entries => ([], map entries) :: pathsEntries entries
  | node => [([], node)]

def pathsEntries : List (String × YamlNode) → List (List String × YamlNode)
  | [] => []
  | (key, node) :: entries =>
    (paths node).map (fun p => (key :: p.1, p.2)) ++ pathsEntries entries

end

def dotted (pre : String) (keys : List String) : String :=
  keys.foldl (fun name key => if name = "" then key else name ++ "." ++ key) pre

def named (pre : String) (ps : List (List String × YamlNode)) : List (String × YamlNode) :=
  (ps.map fun p => (dotted pre p.1, p.2)).filter fun n => n.1 ≠ ""

theorem named_cons (pre : String) (p : List String × YamlNode)
    (ps : List (List String × YamlNode)) :
    named pre (p :: ps) = (if dotted pre p.1 = "" then [] else [(dotted pre p.1, p.2)]) ++ named pre ps := by
  rw [named, List.map_cons, List.filter_cons]
  by_cases h : dotted pre p.1 = ""
  · rw [if_neg (by simp [h]), if_pos h]
    rfl
  · rw [if_pos (by simp [h]), if_neg h]
    rfl

theorem named_below (pre key : String) (ps : List (List String × YamlNode)) :
    named pre (ps.map fun p => (key :: p.1, p.2)) =
      named (if pre = "" then key else pre ++ "." ++ key) ps := by
  rw [named, named, List.map_map]
  rfl

mutual

theorem listAllMember_eq (pre : String) :
    (node : YamlNode) → listAllMember pre node = named pre node.paths
  | null => (named_cons pre ([], null) []).symm ▸ (List.append_nil _).symm
  | scalar s => (named_cons pre ([], scalar s) []).symm ▸ (List.append_nil _).symm
  | sequence items => (named_cons pre ([], sequence items) []).symm ▸ (List.append_nil _).symm
  | map entries => by
    rw [listAllMember, paths, named_cons, listEntries_eq pre entries]
    rfl

theorem listEntries_eq (pre : String) : (entries : List (String × YamlNode)) →
    listEntries pre entries = named pre (pathsEntries entries)
  | [] => rfl
  | (key, node) :: entries => by
    rw [listEntries, pathsEntries, listAllMember_eq, listEntries_eq pre entries, ← named_below, named,
      named, named, List.map_append, List.filter_append]

end

end YamlNode

/-! ## Settings -/

/-- What the configuration is for: names with values, the type of each as it was when the name was
registered. -/
abbrev Settings {ι : Type} (Ty : ι → Type) : Type := String → Option ((i : ι) × Ty i)

namespace Settings

variable {ι : Type} {Ty : ι → Type} (fromStr : (i : ι) → String → Except String (Ty i))
  (emit : YamlNode → String)

def lookup (i : ι) (name : String) (default_value : Ty i) (m : Settings Ty) : Settings Ty :=
  fun other =>
    if other = name ∧ m name = none ∧ name.toList.all isNameChar = true then some ⟨i, default_value⟩
    else m other

def setValue [DecidableEq ι] (i : ι) (name : String) (value : Ty i) (m : Settings Ty) : Settings Ty :=
  fun other =>
    if other = name then (m name).map fun v => if v.1 = i then ⟨i, value⟩ else v
    else m other

def assign (key str : String) (m : Settings Ty) : Settings Ty := fun name =>
  if name = key then
    (m name).map fun v => ⟨v.1, ((fromStr v.1 str).toOption).getD v.2⟩
  else m name

def texts (root : YamlNode) (name : String) : List String :=
  (root.paths.filter fun p =>
    YamlNode.dotted "" p.1 ≠ "" ∧ (YamlNode.dotted "" p.1).toLower = name).map fun p =>
      p.2.text emit

def lastRead (i : ι) (strs : List String) : Option (Ty i) :=
  (strs.filterMap fun str => (fromStr i str).toOption).getLast?

/-- A document sets each name to the last of its texts that can be read. -/
def load (root : YamlNode) (m : Settings Ty) : Settings Ty := fun name =>
  (m name).map fun v => ⟨v.1, (lastRead fromStr v.1 (texts emit root name)).getD v.2⟩

theorem lastRead_cons (i : ι) (str : String) (strs : List String) :
    lastRead fromStr i (str :: strs) =
      (lastRead fromStr i strs).or (fromStr i str).toOption := by
  rw [lastRead, lastRead, List.filterMap_cons]
  cases (fromStr i str).toOption with
  | none => rw [Option.or_none]
  | some v =>
    dsimp only
    rw [List.getLast?_cons]
    cases (strs.filterMap fun str => (fromStr i str).toOption).getLast? with
    | none => rfl
    | some w => rfl

/-- Text by text. -/
theorem foldl_assign (ns : List (String × String)) (m : Settings Ty) (name : String) :
    ns.foldl (fun m n => assign fromStr n.1 n.2 m) m name =
      (m name).map fun v => ⟨v.1, (lastRead fromStr v.1
        ((ns.filter fun n => n.1 = name).map Prod.snd)).getD v.2⟩ := by
  induction ns generalizing m with
  | nil =>
    have hnone (v : (i : ι) × Ty i) : (⟨v.1, (lastRead fromStr v.1 []).getD v.2⟩ : (i : ι) × Ty i) = v := rfl
    simp only [List.foldl_nil, List.filter_nil, List.map_nil, hnone, Option.map_id']
  | cons n ns ih =>
    rw [List.foldl_cons, ih, assign]
    by_cases hname : name = n.1
    · rw [if_pos hname, List.filter_cons_of_pos (by simp [hname]), List.map_cons, Option.map_map]
      congr 1
      funext v
      rw [lastRead_cons, Function.comp_apply]
      dsimp only
      cases lastRead fromStr v.1 ((ns.filter fun n => n.1 = name).map Prod.snd) with
      | none => rfl
      | some w => rfl
    · rw [if_neg hname, List.filter_cons_of_neg (by simp [Ne.symm hname])]

/-- The nodes of a document one after another. -/
theorem foldl_listAllMember (root : YamlNode) (m : Settings Ty) :
    (YamlNode.listAllMember "" root).foldl
        (fun m n => assign fromStr (n.1.toLower) (n.2.text emit) m) m =
      load fromStr emit root m := by
  funext name
  have hall := foldl_assign fromStr
    ((YamlNode.listAllMember "" root).map fun n => (n.1.toLower, n.2.text emit)) m name
  rw [List.foldl_map] at hall
  rw [hall, load]
  congr 1
  funext v
  congr 3
  rw [texts, YamlNode.listAllMember_eq, YamlNode.named, List.filter_map, List.map_map, List.filter_filter,
    List.filter_map, List.map_map]
  refine congrArg (List.map _) (List.filter_congr fun p _ => ?_)
  dsimp only [Function.comp_apply]
  rw [← Bool.decide_and, decide_eq_decide]
  exact And.comm

end Settings

/-! ## Refinement -/

namespace ConfigVar

variable {T σ : Type}

/-- No listener ever throws. -/
def Calm (v : ConfigVar T σ) : Prop :=
  ∀ cb ∈ v.cbs, ∀ old_value new_value s, (cb.2 old_value new_value s).1 = none

theorem Calm.quiet {v : ConfigVar T σ} (h : v.Calm) (old_value new_value : T) (s : σ) :
    Quiet old_value new_value v.cbs s := by
  have hall : ∀ cbs : List (Nat × OnChangeCb T σ), (∀ cb ∈ cbs, cb ∈ v.cbs) → ∀ s,
      Quiet old_value new_value cbs s := by
    intro cbs
    induction cbs with
    | nil => exact fun _ _ => trivial
    | cons cb cbs ih =>
      intro hmem s
      exact ⟨h cb (hmem cb List.mem_cons_self) old_value new_value s,
        ih (fun cb' hcb => hmem cb' (List.mem_cons_of_mem cb hcb)) _⟩
  exact hall v.cbs (fun _ hcb => hcb) s

variable [BEq T] [LawfulBEq T]

theorem Calm.setValue {v : ConfigVar T σ} (h : v.Calm) (value : T) (s : σ) :
    (v.setValue value s).var = { v with val := value } ∧ (v.setValue value s).thrown = none := by
  cases hsame : value == v.val with
  | true =>
    rw [setValue_of_eq hsame, eq_of_beq hsame]
    exact ⟨rfl, rfl⟩
  | false =>
    rw [setValue_of_quiet hsame (h.quiet v.val value s)]
    exact ⟨rfl, rfl⟩

theorem Calm.fromString {v : ConfigVar T σ} (h : v.Calm) (fromStr : String → Except String T)
    (str : String) (s : σ) :
    (v.fromString fromStr str s).2.var = { v with val := (fromStr str).toOption.getD v.val } := by
  rw [ConfigVar.fromString]
  cases fromStr str with
  | error what => rfl
  | ok value => exact (h.setValue value s).1

end ConfigVar

namespace Config

variable {ι : Type} {Ty : ι → Type} {σ : Type} {c : Config Ty σ} {name other : String} {p : Nat}

def settings (c : Config Ty σ) : Settings Ty := fun name =>
  (c.entries.find? fun e => e.1 = name).map fun e => ⟨e.2.type, e.2.var.val⟩

def Calm (c : Config Ty σ) : Prop := ∀ e ∈ c.entries, e.2.var.Calm

theorem lookupBase_eq_none_iff : c.lookupBase name = none ↔ c.settings name = none := by
  rw [lookupBase, settings, Option.map_eq_none_iff, List.findIdx?_eq_none_iff, List.find?_eq_none]
  simp

/-- The variable behind a pointer. -/
theorem entry_of_lookupBase (h : c.lookupBase name = some p) :
    ∃ v, c.entries[p]? = some (name, v) ∧ (name, v) ∈ c.entries ∧
      c.settings name = some ⟨v.type, v.var.val⟩ := by
  rw [lookupBase, List.findIdx?_eq_some_iff_getElem] at h
  obtain ⟨hp, hname, hbefore⟩ := h
  have hfst : c.entries[p].1 = name := of_decide_eq_true hname
  refine ⟨c.entries[p].2, ?_, ?_, ?_⟩
  · rw [List.getElem?_eq_getElem hp, ← hfst]
  · rw [← hfst]
    exact List.getElem_mem hp
  · have hfind : (c.entries.find? fun e => e.1 = name) = some c.entries[p] := by
      rw [List.find?_eq_some_iff_getElem]
      exact ⟨hname, p, hp, rfl, fun j hj => by simpa using hbefore j hj⟩
    rw [settings, hfind]
    rfl

theorem lookupBase_eq_findIdx : c.lookupBase name = (c.entries.map Prod.fst).findIdx? (· = name) := by
  rw [lookupBase, List.findIdx?_map]
  rfl

theorem lookupBase_assign (q : Nat) (w : ConfigVarBase Ty σ) :
    (c.assign q w).lookupBase name = c.lookupBase name := by
  rw [lookupBase_eq_findIdx, lookupBase_eq_findIdx, assign, map_fst_modify fun _ => w]

theorem lookupBase_create {w : ConfigVarBase Ty σ} (hnew : other ∉ c.entries.map Prod.fst)
    (hname : other.toList.all isNameChar = true) (h : c.lookupBase name = some p) :
    (c.create other w hnew hname).lookupBase name = some p := by
  rw [lookupBase, create, List.findIdx?_append]
  rw [lookupBase] at h
  rw [h]
  rfl

/-- Another variable behind the pointer. -/
theorem settings_assign (h : c.lookupBase name = some p) (w : ConfigVarBase Ty σ) :
    (c.assign p w).settings = fun other =>
      if other = name then some ⟨w.type, w.var.val⟩ else c.settings other := by
  funext other
  rw [settings, assign, find?_modify h]
  by_cases hother : other = name
  · rw [if_pos hother, if_pos hother]
    rfl
  · rw [if_neg hother, if_neg hother]
    rfl

theorem settings_create (w : ConfigVarBase Ty σ) (hnew : name ∉ c.entries.map Prod.fst)
    (hname : name.toList.all isNameChar = true) :
    (c.create name w hnew hname).settings = fun other =>
      if other = name then some ⟨w.type, w.var.val⟩ else c.settings other := by
  funext other
  rw [settings, create, List.find?_append]
  by_cases hother : other = name
  · have hnone : (c.entries.find? fun e => e.1 = other) = none := by
      rw [List.find?_eq_none]
      intro e he heq
      exact hnew (List.mem_map.mpr ⟨e, he, (of_decide_eq_true heq).trans hother⟩)
    rw [if_pos hother, hnone, List.find?_cons_of_pos (by simp [hother])]
    rfl
  · rw [if_neg hother, List.find?_cons_of_neg (by simp [Ne.symm hother]), List.find?_nil, Option.or_none]
    rfl

/-- After a call the configuration holds this, its listeners still do not throw, and the pointers that have
been given away are those it still finds. -/
structure Becomes (c : Config Ty σ) (m : Settings Ty) (c' : Config Ty σ) : Prop where
  settings : c'.settings = m
  calm : c'.Calm
  found : ∀ name p, c.lookupBase name = some p → c'.lookupBase name = some p

theorem Becomes.same (h : c.Calm) : Becomes c c.settings c := ⟨rfl, h, fun _ _ hp => hp⟩

theorem Becomes.assign (h : c.Calm) (hp : c.lookupBase name = some p) {w : ConfigVarBase Ty σ}
    (hw : w.var.Calm) {m : Settings Ty}
    (hm : ∀ other, m other = if other = name then some ⟨w.type, w.var.val⟩ else c.settings other) :
    Becomes c m (c.assign p w) where
  settings := (settings_assign hp w).trans (funext hm).symm
  calm := by
    intro e he
    obtain ⟨q, hq⟩ := List.mem_iff_getElem?.mp he
    rw [Config.assign, List.getElem?_modify] at hq
    obtain ⟨e', he', heq⟩ := Option.map_eq_some_iff.mp hq
    rw [← heq]
    by_cases hpq : p = q
    · rw [if_pos hpq]
      exact hw
    · rw [if_neg hpq]
      exact h e' (List.mem_of_getElem? he')
  found _ _ hother := (lookupBase_assign p w).trans hother

theorem Becomes.lookup [DecidableEq ι] (h : c.Calm) (i : ι) (name : String) (default_value : Ty i) :
    Becomes c (Settings.lookup i name default_value c.settings) (c.lookup i name default_value).2 := by
  rw [Config.lookup]
  split
  · rename_i p hp
    obtain ⟨v, hentry, hmem, hsettings⟩ := entry_of_lookupBase hp
    have hsame : Settings.lookup i name default_value c.settings = c.settings := by
      funext other
      rw [Settings.lookup, if_neg fun hall => by simp [hsettings] at hall]
    rw [hsame]
    split
    · exact .same h
    · exact .same h
  · rename_i hnone
    have hsettings : c.settings name = none := lookupBase_eq_none_iff.mp hnone
    split
    · rename_i hname
      exact {
        settings := by
          rw [settings_create]
          funext other
          rw [Settings.lookup]
          simp only [hsettings, hname, and_true]
          rfl
        calm := by
          intro e he
          rw [create, List.mem_append, List.mem_singleton] at he
          rcases he with he | rfl
          · exact h e he
          · exact fun cb hcb => absurd hcb List.not_mem_nil
        found := fun _ _ => lookupBase_create (not_mem_of_lookupBase hnone) hname }
    · rename_i hname
      have hsame : Settings.lookup i name default_value c.settings = c.settings := by
        funext other
        rw [Settings.lookup, if_neg fun hall => hname hall.2.2]
      rw [hsame]
      exact .same h

theorem Becomes.trans {c d e : Config Ty σ} {m m' : Settings Ty} (h : Becomes c m d) (h' : Becomes d m' e) :
    Becomes c m' e where
  settings := h'.settings
  calm := h'.calm
  found name p hp := h'.found name p (h.found name p hp)

variable [∀ i, BEq (Ty i)] [∀ i, LawfulBEq (Ty i)] (fromStr : (i : ι) → String → Except String (Ty i))
  (emit : YamlNode → String)

theorem Becomes.fromString (h : c.Calm) (hp : c.lookupBase name = some p) (str : String) (s : σ) :
    Becomes c (Settings.assign fromStr name str c.settings) (c.fromString fromStr p str s).1 := by
  obtain ⟨v, hentry, hmem, hsettings⟩ := entry_of_lookupBase hp
  rw [Config.fromString, hentry]
  dsimp only
  rw [(h _ hmem).fromString]
  apply Becomes.assign h hp
  · exact h _ hmem
  · intro other
    rw [Settings.assign]
    by_cases hother : other = name
    · rw [if_pos hother, if_pos hother, hother, hsettings]
      rfl
    · rw [if_neg hother, if_neg hother]

theorem Becomes.setValue [DecidableEq ι] (h : c.Calm) {i : ι} (hp : c.lookupOnly i name = some p)
    (value : Ty i) (s : σ) :
    Becomes c (Settings.setValue i name value c.settings) (c.setValue p i value s).2.1 ∧
      (c.setValue p i value s).1 = none := by
  obtain ⟨hbase, htype⟩ := Option.filter_eq_some_iff.mp hp
  obtain ⟨v, hentry, hmem, hsettings⟩ := entry_of_lookupBase hbase
  rw [hentry] at htype
  have htype : v.type = i := Option.some.inj (of_decide_eq_true htype)
  subst htype
  rw [Config.setValue, hentry]
  dsimp only
  rw [dif_pos rfl]
  dsimp only
  obtain ⟨hvar, hthrown⟩ := (h _ hmem).setValue value s
  refine ⟨?_, hthrown⟩
  rw [hvar]
  apply Becomes.assign h hbase
  · exact h _ hmem
  · intro other
    rw [Settings.setValue, hsettings]
    simp

/-- A document, node by node. -/
theorem Becomes.loadFromYaml (h : c.Calm) (root : YamlNode) (s : σ) :
    Becomes c (Settings.load fromStr emit root c.settings) (loadFromYaml fromStr emit root (c, s)).1 := by
  rw [← Settings.foldl_listAllMember, Config.loadFromYaml]
  have hnames : ∀ n ∈ YamlNode.listAllMember "" root, n.1 ≠ "" := by
    intro n hn
    rw [YamlNode.listAllMember_eq, YamlNode.named, List.mem_filter] at hn
    exact of_decide_eq_true hn.2
  generalize YamlNode.listAllMember "" root = ns at hnames ⊢
  induction ns generalizing c s with
  | nil => exact .same h
  | cons n ns ih =>
    rw [List.foldl_cons, List.foldl_cons]
    have hnode : Becomes c (Settings.assign fromStr (n.1.toLower) (n.2.text emit) c.settings)
        (loadNode fromStr emit (c, s) n).1 := by
      rw [loadNode, if_neg (hnames n List.mem_cons_self)]
      cases hp : c.lookupBase (n.1.toLower) with
      | none =>
        have hsame : Settings.assign fromStr (n.1.toLower) (n.2.text emit) c.settings =
            c.settings := by
          funext other
          rw [Settings.assign]
          split
          · rename_i heq
            rw [heq, lookupBase_eq_none_iff.mp hp]
            rfl
          · rfl
        rw [hsame]
        exact .same h
      | some p => exact .fromString fromStr h hp _ s
    rw [← hnode.settings]
    exact hnode.trans (ih hnode.calm (loadNode fromStr emit (c, s) n).2 fun n' hn =>
      hnames n' (List.mem_cons_of_mem n hn))

end Config

/-! ## Runs -/

/-- The calls of a program that has no pointers but those that `Lookup` has just given it. -/
inductive ConfigCall {ι : Type} (Ty : ι → Type) where
  | lookup (i : ι) (name : String) (default_value : Ty i)
  | setValue (i : ι) (name : String) (value : Ty i)
  | loadFromYaml (root : YamlNode)

section

variable {ι : Type} [DecidableEq ι] {Ty : ι → Type} {σ : Type}
  (fromStr : (i : ι) → String → Except String (Ty i)) (emit : YamlNode → String)

def Config.step [∀ i, BEq (Ty i)] (cs : Config Ty σ × σ) : ConfigCall Ty → Config Ty σ × σ
  | .lookup i name default_value => ((cs.1.lookup i name default_value).2, cs.2)
  | .setValue i name value =>
    match cs.1.lookupOnly i name with
    | none => cs
    | some p => (cs.1.setValue p i value cs.2).2
  | .loadFromYaml root => Config.loadFromYaml fromStr emit root cs

def Config.run [∀ i, BEq (Ty i)] (calls : List (ConfigCall Ty)) (cs : Config Ty σ × σ) :
    Config Ty σ × σ :=
  calls.foldl (Config.step fromStr emit) cs

def Settings.step (m : Settings Ty) : ConfigCall Ty → Settings Ty
  | .lookup i name default_value => m.lookup i name default_value
  | .setValue i name value => m.setValue i name value
  | .loadFromYaml root => m.load fromStr emit root

/-- The type of a name is settled when it is registered. -/
theorem Settings.type_step {m : Settings Ty} {name : String} {i : ι}
    (h : (m name).map Sigma.fst = some i) (call : ConfigCall Ty) :
    (Settings.step fromStr emit m call name).map Sigma.fst = some i := by
  obtain ⟨v, hv, rfl⟩ := Option.map_eq_some_iff.mp h
  cases call with
  | lookup j other default_value =>
    have hregistered : ¬ (name = other ∧ m other = none ∧ other.toList.all isNameChar = true) := by
      rintro ⟨rfl, hnone, -⟩
      simp [hv] at hnone
    rw [Settings.step, Settings.lookup, if_neg hregistered, hv]
    rfl
  | setValue j other value =>
    rw [Settings.step, Settings.setValue]
    by_cases hother : name = other
    · rw [if_pos hother, ← hother, hv, Option.map_some, Option.map_some]
      by_cases hj : v.1 = j
      · rw [if_pos hj, hj]
      · rw [if_neg hj]
    · rw [if_neg hother, hv]
      rfl
  | loadFromYaml root =>
    rw [Settings.step, Settings.load, hv]
    rfl

theorem Settings.type_foldl {m : Settings Ty} {name : String} {i : ι}
    (h : (m name).map Sigma.fst = some i) (calls : List (ConfigCall Ty)) :
    (calls.foldl (Settings.step fromStr emit) m name).map Sigma.fst = some i := by
  induction calls generalizing m with
  | nil => exact h
  | cons call calls ih => exact ih (Settings.type_step fromStr emit h call)

variable [∀ i, BEq (Ty i)] [∀ i, LawfulBEq (Ty i)]

theorem Config.becomes_step {c : Config Ty σ} (h : c.Calm) (call : ConfigCall Ty) (s : σ) :
    c.Becomes (Settings.step fromStr emit c.settings call) (Config.step fromStr emit (c, s) call).1 := by
  cases call with
  | lookup i name default_value => exact .lookup h i name default_value
  | setValue i name value =>
    rw [Settings.step, Config.step]
    cases hp : c.lookupOnly i name with
    | some p => exact (Becomes.setValue h hp value s).1
    | none =>
      have hsame : Settings.setValue i name value c.settings = c.settings := by
        funext other
        rw [Settings.setValue]
        split
        · rename_i heq
          rw [heq]
          cases hbase : c.lookupBase name with
          | none => rw [lookupBase_eq_none_iff.mp hbase, Option.map_none]
          | some p =>
            obtain ⟨v, hentry, -, hsettings⟩ := entry_of_lookupBase hbase
            have hother : v.type ≠ i := by
              rintro rfl
              rw [lookupOnly, hbase, Option.filter_some, hentry] at hp
              simp at hp
            rw [hsettings, Option.map_some, if_neg hother]
        · rfl
      rw [hsame]
      exact .same h
  | loadFromYaml root => exact .loadFromYaml fromStr emit h root s

theorem Config.becomes_run {c : Config Ty σ} (h : c.Calm) (calls : List (ConfigCall Ty)) (s : σ) :
    c.Becomes (calls.foldl (Settings.step fromStr emit) c.settings)
      (Config.run fromStr emit calls (c, s)).1 := by
  induction calls generalizing c s with
  | nil => exact .same h
  | cons call calls ih =>
    have hstep := Config.becomes_step fromStr emit h call s
    rw [List.foldl_cons, ← hstep.settings]
    exact hstep.trans (ih hstep.calm _)

omit [(i : ι) → BEq (Ty i)] [∀ i, LawfulBEq (Ty i)] in
/-- What `Lookup` gives for a name that is registered. -/
theorem Config.lookup_fst {c : Config Ty σ} {name : String} {p : Nat} (hp : c.lookupBase name = some p)
    (i : ι) (default_value : Ty i) :
    (c.lookup i name default_value).1 =
      if (c.settings name).map Sigma.fst = some i then .ptr p else .null := by
  obtain ⟨v, hentry, -, hsettings⟩ := entry_of_lookupBase hp
  rw [Config.lookup]
  split
  · rename_i q hq
    obtain rfl := Option.some.inj (hp.symm.trans hq)
    rw [hentry, hsettings, Option.map_some, Option.map_some]
    by_cases hi : some v.type = some i
    · rw [if_pos hi, if_pos hi]
    · rw [if_neg hi, if_neg hi]
  · rename_i hnone
    rw [hp] at hnone
    cases hnone

/-- Whatever a program does with a configuration whose listeners do not throw, the values in it are those of
the map; and for a name that has been registered `Lookup` gives ever after what it gave before, a pointer to
the value of that name or none if it has another type. -/
theorem Config.settings_run {c : Config Ty σ} (h : c.Calm) (calls : List (ConfigCall Ty)) (s : σ) :
    let c' := (Config.run fromStr emit calls (c, s)).1
    c'.settings = calls.foldl (Settings.step fromStr emit) c.settings ∧
      ∀ name p, c.lookupBase name = some p →
        (∃ v, c'.entries[p]? = some (name, v) ∧ c'.settings name = some ⟨v.type, v.var.val⟩) ∧
        ∀ i default_value, (c'.lookup i name default_value).1 = (c.lookup i name default_value).1 := by
  intro c'
  have hrun := Config.becomes_run fromStr emit h calls s
  refine ⟨hrun.settings, fun name p hp => ?_⟩
  have hp' : c'.lookupBase name = some p := hrun.found name p hp
  obtain ⟨v, hentry, -, hsettings⟩ := entry_of_lookupBase hp'
  obtain ⟨w, -, -, hold⟩ := entry_of_lookupBase hp
  refine ⟨⟨v, hentry, hsettings⟩, fun i default_value => ?_⟩
  have htype : (c'.settings name).map Sigma.fst = some w.type := by
    rw [hrun.settings]
    exact Settings.type_foldl fromStr emit (by rw [hold, Option.map_some]) calls
  rw [lookup_fst hp', lookup_fst hp, htype, hold, Option.map_some]

end

def Config.empty {ι : Type} (Ty : ι → Type) (σ : Type) : Config Ty σ := ⟨[], .nil, by simp⟩

def watched : Config (fun _ : Bool => String) (List String) where
  entries := [
    ("a.b", ⟨true, (ConfigVar.addListener 0 (fun _ new_value heard => (none, heard ++ [new_value]))
      (.new "none") (by simp [ConfigVar.new])).2⟩),
    ("n", ⟨false, .new "0"⟩)]
  distinct := by decide
  valid := by decide +kernel

def watchedCalls : List (ConfigCall fun _ : Bool => String) := [
  .loadFromYaml (.map [("A", .map [("b", .scalar "y"), ("c", .scalar "n")])]),
  .setValue false "n" "7",
  .lookup true "a.b" "other",
  .lookup false "m" "1"]

/-- A document with a section sets a variable that has a dot in its name, and a default value that comes
later does not; who has a pointer to the variable sees it. -/
theorem Config.settings_run_section :
    let c' := (Config.run (fun _ str => .ok str) (fun _ => "") watchedCalls (watched, [])).1
    watched.Calm ∧ c'.settings "a.b" = some ⟨true, "y"⟩ ∧ c'.settings "n" = some ⟨false, "7"⟩ ∧
      c'.settings "m" = some ⟨false, "1"⟩ ∧ c'.settings "a.c" = none ∧
      (c'.entries[0]?.map fun e => e.2.var.val) = some "y" ∧
      (c'.lookup true "a.b" "other").1 = .ptr 0 ∧ (c'.lookup false "a.b" "other").1 = .null := by
  intro c'
  have hcalm : watched.Calm := by
    intro e he cb hcb old_value new_value s
    rcases List.mem_pair.mp he with rfl | rfl
    · rw [List.mem_singleton.mp hcb]
    · cases hcb
  have hbase : watched.lookupBase "a.b" = some 0 := by decide +kernel
  obtain ⟨hrun, hpointer⟩ :=
    Config.settings_run (fun _ str => .ok str) (fun _ => "") hcalm watchedCalls []
  obtain ⟨⟨v, hentry, hval⟩, hlookup⟩ := hpointer "a.b" 0 hbase
  have hend : let m := watchedCalls.foldl (Settings.step (fun _ str => .ok str) fun _ => "") watched.settings
      m "a.b" = some ⟨true, "y"⟩ ∧ m "n" = some ⟨false, "7"⟩ ∧ m "m" = some ⟨false, "1"⟩ ∧
        m "a.c" = none := by
    decide +kernel
  rw [hrun] at hval
  have hsame := Option.some.inj (hval.symm.trans hend.1)
  rw [Sigma.mk.injEq] at hsame
  refine ⟨hcalm, (congrFun hrun _).trans hend.1, (congrFun hrun _).trans hend.2.1,
    (congrFun hrun _).trans hend.2.2.1, (congrFun hrun _).trans hend.2.2.2, ?_, ?_, ?_⟩
  · rw [hentry, Option.map_some, eq_of_heq hsame.2]
  · rw [hlookup]
    decide +kernel
  · rw [hlookup]
    decide +kernel

end Azure
