import Azure.Log.Model

/-!
# Log definitions as text (`LexicalCast` of `LogDefine` in `log.cpp`)

The YAML library is a parameter: a node is emitted as a text, and a text is loaded as a node.  The
writer and the reader of a definition are compared on the node between them.
-/

namespace Azure

inductive YamlNode where
  | null
  | scalar (s : String)
  | sequence (items : List YamlNode)
  | map (entries : List (String × YamlNode))

namespace YamlNode

/-- `node[key] = value`, for a node that is not a scalar or a sequence. -/
def set (node : YamlNode) (key : String) (value : YamlNode) : YamlNode :=
  match node with
  | map entries =>
    if entries.any fun e => e.1 = key then
      map (entries.map fun e => if e.1 = key then (key, value) else e)
    else map (entries ++ [(key, value)])
  | _ => map [(key, value)]

/-- `node.push_back(value)`, for a node that is not a scalar or a map; it need not be defined. -/
def pushBack (node : Option YamlNode) (value : YamlNode) : YamlNode :=
  match node with
  | some (sequence items) => sequence (items ++ [value])
  | _ => sequence [value]

/-- `node[key]`: a scalar has no entries to ask for and throws; otherwise what is found need not be
defined. -/
def get (key : String) : YamlNode → Option (Option YamlNode)
  | scalar _ => none
  | map entries => some (entries.lookup key)
  | _ => some none

/-- `node.size()` -/
def size : YamlNode → Nat
  | sequence items => items.length
  | map entries => entries.length
  | _ => 0

/-- `node[i]`; a map is asked for the number as a key. -/
def index (i : Nat) : YamlNode → Option (Option YamlNode)
  | sequence items => some items[i]?
  | node => node.get (toString i)

/-- `node.as<std::string>()` throws for anything but a scalar. -/
def asString : Option YamlNode → Option String
  | some (scalar s) => some s
  | _ => none

def stringIfDefined (node : Option YamlNode) : Option String :=
  if node.isSome then asString node else some ""

theorem stringIfDefined_ite (p : Prop) [Decidable p] (s : String) :
    stringIfDefined (if p then some (scalar s) else none) = some (if p then s else "") := by
  split <;> rfl

end YamlNode

namespace LogDefine

def typeNode (a : LogAppenderDefine) : YamlNode :=
  let na : YamlNode := .null
  if a.type = 1 then (na.set "type" (.scalar "FileLogAppender")).set "file" (.scalar a.file)
  else if a.type = 2 then na.set "type" (.scalar "StdoutAppender")
  else na

def appenderNode (ld : LogDefine) (a : LogAppenderDefine) : YamlNode :=
  let na := typeNode a
  let na := if a.level ≠ .unknown then na.set "level" (.scalar ld.level.toString) else na
  if a.formatter ≠ "" then na.set "formatter" (.scalar a.formatter) else na

def headNode (ld : LogDefine) : YamlNode :=
  let node : YamlNode := YamlNode.null.set "name" (.scalar ld.name)
  let node := if ld.level ≠ .unknown then node.set "level" (.scalar ld.level.toString) else node
  if ld.formatter ≠ "" then node.set "formatter" (.scalar ld.formatter) else node

def node (ld : LogDefine) : YamlNode :=
  ld.appenders.foldl (fun node a =>
    node.set "appenders" (.pushBack ((node.get "appenders").getD none) (ld.appenderNode a)))
    ld.headNode

/-- One turn of the loop over the nodes of the appenders: nothing when it throws, and no definition
when it goes on to the next one. -/
def readAppender (a : YamlNode) : Option (Option LogAppenderDefine) := do
  let type ← a.get "type"
  if type.isNone then some none
  else
    let type ← YamlNode.asString type
    if type = "FileLogAppender" then do
      let file ← a.get "file"
      if file.isNone then some none
      else
        let file ← YamlNode.asString file
        let formatter ← a.get "formatter"
        let formatter ← YamlNode.stringIfDefined formatter
        some (some { type := 1, file, formatter })
    else if type = "StdoutLogAppender" then some (some { type := 2 })
    else some none

/-- The loop over the nodes of the appenders; a node that is not defined has no entries to ask for
and throws. -/
def readAppenders (appenders : YamlNode) : Nat → Nat → Option (List LogAppenderDefine)
  | _, 0 => some []
  | i, n + 1 => do
    let a ← appenders.index i
    let a ← a
    let lad ← readAppender a
    let rest ← readAppenders appenders (i + 1) n
    some (lad.toList ++ rest)

def ofNode (node : YamlNode) : Option LogDefine := do
  let name ← node.get "name"
  let name ← YamlNode.asString name
  let level ← node.get "level"
  let level ← YamlNode.stringIfDefined level
  let formatter ← node.get "formatter"
  let formatter ← YamlNode.stringIfDefined formatter
  let appenders ← node.get "appenders"
  let appenders ←
    match appenders with
    | some appenders => readAppenders appenders 0 appenders.size
    | none => some []
  some { name, level := .fromString level, formatter, appenders }

/-- `LexicalCast<LogDefine, std::string>` -/
def toText (emit : YamlNode → String) (ld : LogDefine) : String := emit ld.node

/-- `LexicalCast<std::string, LogDefine>` -/
def ofText (load : String → Option YamlNode) (str : String) : Option LogDefine :=
  (load str).bind ofNode

end LogDefine

theorem LogLevel.fromString_toString (level : LogLevel) : fromString level.toString = level := by
  cases level <;> decide

/-! ## Nodes -/

namespace YamlNode

def Open : YamlNode → Prop
  | null | map _ => True
  | _ => False

theorem open_set (node : YamlNode) (key : String) (value : YamlNode) :
    (node.set key value).Open := by
  cases node with
  | map entries =>
    unfold set
    dsimp only
    split <;> exact trivial
  | _ => exact trivial

theorem lookup_replace (key key' : String) (value : YamlNode) (entries : List (String × YamlNode)) :
    (entries.map fun e => if e.1 = key then (key, value) else e).lookup key' =
      if key' = key then (entries.lookup key).map fun _ => value else entries.lookup key' := by
  induction entries with
  | nil => simp
  | cons e entries ih =>
    rcases e with ⟨k, v⟩
    rw [List.map_cons]
    by_cases hk : k = key
    · subst hk
      by_cases hkey : key' = k
      · simp [hkey]
      · simp [hkey, ih, List.lookup_cons, beq_eq_false_iff_ne.mpr hkey]
    · rw [if_neg hk, List.lookup_cons, ih, List.lookup_cons]
      by_cases hkey : key' = k
      · subst hkey
        simp [hk]
      · by_cases hsame : key' = key
        · subst hsame
          simp [beq_eq_false_iff_ne.mpr hkey]
        · simp [beq_eq_false_iff_ne.mpr hkey, hsame, List.lookup_cons]

/-- What is found behind a `set`. -/
theorem get_set {node : YamlNode} (h : node.Open) (key key' : String) (value : YamlNode) :
    (node.set key value).get key' = if key' = key then some (some value) else node.get key' := by
  cases node with
  | null =>
    show some (List.lookup key' [(key, value)]) = _
    by_cases hkey : key' = key
    · simp [hkey]
    · simp [hkey, List.lookup_cons, get, beq_eq_false_iff_ne.mpr hkey]
  | map entries =>
    unfold set
    dsimp only
    split
    · next hany =>
      -- the entry is replaced where it stands
      show some (List.lookup key' _) = _
      rw [lookup_replace]
      rcases List.any_eq_true.mp hany with ⟨e, he, hkey⟩
      have hfound : (entries.lookup key).isSome := by
        rw [List.lookup_isSome_iff]
        exact ⟨e, he, beq_iff_eq.mpr (of_decide_eq_true hkey).symm⟩
      rcases Option.isSome_iff_exists.mp hfound with ⟨v, hv⟩
      split
      · rw [hv]
        rfl
      · rfl
    · next hany =>
      show some (List.lookup key' (entries ++ [(key, value)])) = _
      rw [List.lookup_append]
      by_cases hkey : key' = key
      · subst hkey
        have hnone : entries.lookup key' = none := by
          rw [List.lookup_eq_none_iff]
          intro e he
          simp only [List.any_eq_true, not_exists, not_and] at hany
          have hne : ¬ e.1 = key' := by simpa using hany e he
          exact bne_iff_ne.mpr (Ne.symm hne)
        simp [hnone]
      · simp [hkey, List.lookup_cons, get, beq_eq_false_iff_ne.mpr hkey]
  | scalar s => cases h
  | sequence items => cases h

theorem open_set_if {node : YamlNode} (h : node.Open) (p : Prop) [Decidable p] (key : String)
    (value : YamlNode) : (if p then node.set key value else node).Open := by
  split
  · exact open_set _ _ _
  · exact h

theorem get_set_if {node : YamlNode} (h : node.Open) (p : Prop) [Decidable p]
    (key key' : String) (value : YamlNode) :
    (if p then node.set key value else node).get key' =
      if key' = key ∧ p then some (some value) else node.get key' := by
  by_cases hp : p
  · simp only [hp, if_true, and_true, get_set h]
  · simp only [hp, if_false, and_false]

end YamlNode

namespace LogDefine

/-! ## What is read back -/

def readBack (a : LogAppenderDefine) : Option LogAppenderDefine :=
  if a.type = 1 then some { type := 1, file := a.file, formatter := a.formatter } else none

theorem open_typeNode (a : LogAppenderDefine) : (typeNode a).Open := by
  unfold typeNode
  dsimp only
  split
  · exact YamlNode.open_set _ _ _
  · exact YamlNode.open_set_if (show YamlNode.null.Open from trivial) _ _ _

theorem get_appenderNode (ld : LogDefine) (a : LogAppenderDefine) (key : String) :
    (ld.appenderNode a).get key =
      if key = "formatter" ∧ a.formatter ≠ "" then some (some (.scalar a.formatter))
      else if key = "level" ∧ a.level ≠ .unknown then some (some (.scalar ld.level.toString))
      else (typeNode a).get key := by
  unfold appenderNode
  dsimp only
  rw [YamlNode.get_set_if (YamlNode.open_set_if (open_typeNode a) _ _ _),
    YamlNode.get_set_if (open_typeNode a)]

theorem readAppender_node (ld : LogDefine) (a : LogAppenderDefine) :
    readAppender (ld.appenderNode a) = some (readBack a) := by
  have htype : (ld.appenderNode a).get "type" = (typeNode a).get "type" := by
    rw [get_appenderNode, if_neg (by simp), if_neg (by simp)]
  have hfile : (ld.appenderNode a).get "file" = (typeNode a).get "file" := by
    rw [get_appenderNode, if_neg (by simp), if_neg (by simp)]
  have hformatter : (ld.appenderNode a).get "formatter" =
      if a.formatter ≠ "" then some (some (.scalar a.formatter))
      else (typeNode a).get "formatter" := by
    rw [get_appenderNode]
    simp
  unfold readAppender readBack
  rw [htype, hfile, hformatter]
  unfold typeNode
  by_cases hone : a.type = 1
  · have hopen := YamlNode.open_set YamlNode.null "type" (.scalar "FileLogAppender")
    have hnull : YamlNode.null.Open := trivial
    simp only [hone, if_true, YamlNode.get_set hopen, YamlNode.get_set hnull]
    by_cases hempty : a.formatter = ""
    · simp [hempty, YamlNode.asString, YamlNode.stringIfDefined, YamlNode.get]
    · simp [hempty, YamlNode.asString, YamlNode.stringIfDefined]
  · by_cases htwo : a.type = 2
    · -- the type is written under a name that the reader does not know
      have htype : (YamlNode.null.set "type" (.scalar "StdoutAppender")).get "type" =
          some (some (.scalar "StdoutAppender")) := rfl
      simp [htwo, htype, YamlNode.asString]
    · simp [hone, htwo, YamlNode.get]

theorem readAppenders_sequence (ld : LogDefine) (as : List LogAppenderDefine)
    (before : List YamlNode) :
    readAppenders (.sequence (before ++ as.map ld.appenderNode)) before.length as.length =
      some (as.filterMap readBack) := by
  induction as generalizing before with
  | nil => rfl
  | cons a as ih =>
    have hindex : YamlNode.index before.length
        (.sequence (before ++ (a :: as).map ld.appenderNode)) = some (some (ld.appenderNode a)) := by
      simp [YamlNode.index]
    have hrest := ih (before ++ [ld.appenderNode a])
    rw [List.append_assoc, List.singleton_append, ← List.map_cons, List.length_append,
      List.length_singleton] at hrest
    rw [List.length_cons, readAppenders, hindex]
    simp only [Option.bind_eq_bind, Option.bind_some]
    rw [readAppender_node, hrest, List.filterMap_cons]
    cases readBack a <;> rfl

/-- The loop that writes the appenders sets one entry and leaves the others. -/
theorem get_appenders (ld : LogDefine) (as : List LogAppenderDefine) {node : YamlNode}
    (hopen : node.Open) {done : List YamlNode}
    (hdone : node.get "appenders" = some (if done = [] then none else some (.sequence done))) :
    let node' := as.foldl (fun node a =>
      node.set "appenders" (.pushBack ((node.get "appenders").getD none) (ld.appenderNode a))) node
    (∀ key, key ≠ "appenders" → node'.get key = node.get key) ∧
      node'.get "appenders" = some (if done ++ as.map ld.appenderNode = [] then none
        else some (.sequence (done ++ as.map ld.appenderNode))) := by
  induction as generalizing node done with
  | nil =>
    rw [List.map_nil, List.append_nil]
    exact ⟨fun _ _ => rfl, hdone⟩
  | cons a as ih =>
    have hpush : YamlNode.pushBack ((node.get "appenders").getD none) (ld.appenderNode a) =
        .sequence (done ++ [ld.appenderNode a]) := by
      rw [hdone]
      cases done with
      | nil => rfl
      | cons d done => rfl
    have hset : (node.set "appenders" (.sequence (done ++ [ld.appenderNode a]))).get "appenders" =
        some (if done ++ [ld.appenderNode a] = [] then none
          else some (.sequence (done ++ [ld.appenderNode a]))) := by
      rw [YamlNode.get_set hopen, if_pos rfl, if_neg (by simp)]
    rcases ih (YamlNode.open_set node "appenders" _) hset with ⟨hothers, hentry⟩
    dsimp only
    rw [List.foldl_cons, hpush]
    refine ⟨?_, ?_⟩
    · intro key hkey
      rw [hothers key hkey, YamlNode.get_set hopen, if_neg hkey]
    · rw [hentry, List.map_cons, List.append_assoc, List.singleton_append]

theorem open_headNode (ld : LogDefine) : ld.headNode.Open :=
  YamlNode.open_set_if (YamlNode.open_set_if (YamlNode.open_set _ _ _) _ _ _) _ _ _

theorem get_headNode (ld : LogDefine) (key : String) :
    ld.headNode.get key =
      if key = "formatter" ∧ ld.formatter ≠ "" then some (some (.scalar ld.formatter))
      else if key = "level" ∧ ld.level ≠ .unknown then some (some (.scalar ld.level.toString))
      else if key = "name" then some (some (.scalar ld.name))
      else some none := by
  have hname := YamlNode.open_set YamlNode.null "name" (.scalar ld.name)
  have hnull : YamlNode.null.Open := trivial
  unfold headNode
  dsimp only
  rw [YamlNode.get_set_if (YamlNode.open_set_if hname _ _ _), YamlNode.get_set_if hname,
    YamlNode.get_set hnull]
  rfl

/-- A definition as it is read back. -/
theorem ofNode_node (ld : LogDefine) :
    ofNode ld.node = some { ld with appenders := ld.appenders.filterMap readBack } := by
  have hdone : ld.headNode.get "appenders" =
      some (if ([] : List YamlNode) = [] then none else some (.sequence [])) := by
    rw [get_headNode]
    simp
  rcases get_appenders ld ld.appenders (open_headNode ld) hdone with ⟨hothers, happenders⟩
  have hname : ld.node.get "name" = some (some (.scalar ld.name)) := by
    rw [node, hothers _ (by decide), get_headNode]
    simp
  have hlevel : ld.node.get "level" =
      some (if ld.level ≠ .unknown then some (.scalar ld.level.toString) else none) := by
    rw [node, hothers _ (by decide), get_headNode]
    by_cases h : ld.level = .unknown <;> simp [h]
  have hformatter : ld.node.get "formatter" =
      some (if ld.formatter ≠ "" then some (.scalar ld.formatter) else none) := by
    rw [node, hothers _ (by decide), get_headNode]
    by_cases h : ld.formatter = "" <;> simp [h]
  have hlevelText : LogLevel.fromString (if ld.level ≠ .unknown then ld.level.toString else "") =
      ld.level := by
    by_cases h : ld.level = .unknown
    · rw [h]
      decide
    · rw [if_pos h, LogLevel.fromString_toString]
  have hformatterText : (if ld.formatter ≠ "" then ld.formatter else "") = ld.formatter := by
    by_cases h : ld.formatter = "" <;> simp [h]
  unfold ofNode
  rw [hname, hlevel, hformatter, node, happenders]
  simp only [Option.bind_eq_bind, Option.bind_some, YamlNode.asString,
    YamlNode.stringIfDefined_ite, hlevelText, hformatterText, List.nil_append]
  cases happ : ld.appenders with
  | nil => rfl
  | cons a as =>
    have hall := readAppenders_sequence ld (a :: as) []
    rw [List.nil_append, List.length_nil] at hall
    rw [if_neg (by simp)]
    simp only [YamlNode.size, List.length_map]
    rw [hall]
    rfl

/-- A definition comes back as it was exactly when all its appenders are file ones without a
level: the type of the others is not recognised, and levels of appenders are not read. -/
theorem round_trip_iff {emit : YamlNode → String} {load : String → Option YamlNode} (ld : LogDefine)
    (hload : load (emit ld.node) = some ld.node) :
    ofText load (ld.toText emit) = some ld ↔
      ∀ a ∈ ld.appenders, a.type = 1 ∧ a.level = .unknown := by
  have hback : ofText load (ld.toText emit) =
      some { ld with appenders := ld.appenders.filterMap readBack } := by
    rw [ofText, toText, hload, Option.bind_some, ofNode_node]
  rw [hback]
  constructor
  · intro heq a ha
    -- an appender that is in the list again has come out of `readBack`
    have happenders := congrArg LogDefine.appenders (Option.some.inj heq)
    have ha : a ∈ ld.appenders.filterMap readBack := by
      rw [show ld.appenders.filterMap readBack = ld.appenders from happenders]
      exact ha
    rcases List.mem_filterMap.mp ha with ⟨b, -, hb⟩
    unfold readBack at hb
    split at hb
    · cases hb
      exact ⟨rfl, rfl⟩
    · cases hb
  · intro hall
    have hsame : ∀ a ∈ ld.appenders, readBack a = some a := by
      intro a ha
      rcases a with ⟨type, level, formatter, file⟩
      rcases hall _ ha with ⟨htype, hlevel⟩
      dsimp only at htype hlevel
      rw [htype, hlevel]
      rfl
    rw [List.filterMap_congr hsame, List.filterMap_some]

def fileDefine : LogDefine where
  name := "root"
  level := .info
  appenders := [{ type := 1, file := "root.txt" }]

def fileText : String :=
  "name: root\nlevel: INFO\nappenders:\n  - type: FileLogAppender\n    file: root.txt"

theorem round_trip_iff_file :
    ofText (fun str => if str = fileText then some fileDefine.node else none)
      (fileDefine.toText fun _ => fileText) = some fileDefine :=
  (round_trip_iff fileDefine (if_pos rfl)).mpr (by decide)

def stdoutDefine : LogDefine where
  name := "root"
  level := .info
  appenders := [{ type := 2 }]

/-- The writer calls the appender `StdoutAppender`, and the reader drops it. -/
theorem stdout_dropped : stdoutDefine.appenders = [{ type := 2 }] ∧
    ∀ (emit : YamlNode → String) (load : String → Option YamlNode),
      load (emit stdoutDefine.node) = some stdoutDefine.node →
        ofText load (stdoutDefine.toText emit) ≠ some stdoutDefine := by
  refine ⟨rfl, fun emit load hload heq => ?_⟩
  rw [ofText, toText, hload, Option.bind_some, ofNode_node] at heq
  exact absurd (congrArg LogDefine.appenders (Option.some.inj heq)) (by decide)

end LogDefine

end Azure
