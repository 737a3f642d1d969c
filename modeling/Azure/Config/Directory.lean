import Azure.Config.Registry
import Azure.Reasoning.Stamps

/-!
# Configuration directories (`FSUtil::ListAllFile` of `util.cpp`, `Config::LoadFromConfDir` of `config.cpp`)

`LoadFromConfDir` may be called again and again.  It reads the files whose modification time is not the one it
has on record, so a file that has been read, or could not be, is passed over until it changes.
-/

namespace Azure

open Reasoning

/-! ## Files -/

/-- A file under its path, with its modification time and what `YAML::LoadFile` makes of it, unless that
throws. -/
abbrev ConfFile : Type := Stamped String Int (Option YamlNode)

/-- What `readdir` gives, with what stands behind it.  A directory that cannot be opened has no entries. -/
inductive DirEntry where
  /-- `DT_DIR` -/
  | dir (d_name : String) (entries : List DirEntry)
  /-- `DT_REG` -/
  | reg (d_name : String) (st_mtime : Int) (root : Option YamlNode)
  | other (d_name : String)

mutual

def DirEntry.listFiles (path subfix : String) : DirEntry → List ConfFile
  | .dir d_name entries =>
    if d_name = "." ∨ d_name = ".." then []
    else listAllFile (path ++ "/" ++ d_name) subfix entries
  | .reg d_name st_mtime root =>
    if subfix = "" then [⟨path ++ "/" ++ d_name, st_mtime, root⟩]
    else if d_name.length < subfix.length then []
    else if d_name.toList.drop (d_name.length - subfix.length) = subfix.toList then
      [⟨path ++ "/" ++ d_name, st_mtime, root⟩]
    else []
  | .other _ => []

def listAllFile (path subfix : String) : List DirEntry → List ConfFile
  | [] => []
  | entry :: entries => entry.listFiles path subfix ++ listAllFile path subfix entries

end

namespace Config

variable {ι : Type} {Ty : ι → Type} {σ : Type} [∀ i, BEq (Ty i)]
  (fromStr : (i : ι) → String → Except String (Ty i)) (emit : YamlNode → String)

/-- `LoadFromYaml(YAML::LoadFile(f))`; whatever is thrown is caught. -/
def loadFile (root : Option YamlNode) (cs : Config Ty σ × σ) : Config Ty σ × σ :=
  match root with
  | none => cs
  | some root => loadFromYaml fromStr emit root cs

/-- A turn of the loop of `LoadFromConfDir`, with `s_file2modifytime`. -/
def loadConfFile (st : (String → Int) × Config Ty σ × σ) (f : ConfFile) :
    (String → Int) × Config Ty σ × σ :=
  if st.1 f.key = f.stamp then st
  else (Function.update st.1 f.key f.stamp, loadFile fromStr emit f.val st.2)

def loadFromConfDir (absolute_path : String) (entries : List DirEntry)
    (st : (String → Int) × Config Ty σ × σ) : (String → Int) × Config Ty σ × σ :=
  (listAllFile absolute_path ".yml" entries).foldl (loadConfFile fromStr emit) st

def loadAllFiles (absolute_path : String) (entries : List DirEntry) (cs : Config Ty σ × σ) :
    Config Ty σ × σ :=
  (listAllFile absolute_path ".yml" entries).foldl
    (fun cs f => loadFile fromStr emit f.val cs) cs

end Config

/-! ## Settings -/

namespace Settings

variable {ι : Type} {Ty : ι → Type} (fromStr : (i : ι) → String → Except String (Ty i))
  (emit : YamlNode → String) {m : Settings Ty} {root root' : YamlNode} {name : String}

def loadFile (root : Option YamlNode) (m : Settings Ty) : Settings Ty :=
  match root with
  | none => m
  | some root => m.load fromStr emit root

variable {fromStr emit}

theorem load_of_texts (h : texts emit root name = []) : load fromStr emit root m name = m name := by
  rw [load, h]
  have hsame (v : (i : ι) × Ty i) : (⟨v.1, (lastRead fromStr v.1 []).getD v.2⟩ : (i : ι) × Ty i) = v := rfl
  simp only [hsame, Option.map_id']

theorem load_load : load fromStr emit root (load fromStr emit root m) = load fromStr emit root m := by
  funext name
  rw [load, load, Option.map_map]
  congr 1
  funext v
  rw [Function.comp_apply]
  dsimp only
  cases lastRead fromStr v.1 (texts emit root name) with
  | none => rfl
  | some w => rfl

/-- A document that changes nothing still does not after one that has no text for the same variable. -/
theorem load_load_of_apart
    (hapart : ∀ name, m name ≠ none → texts emit root name = [] ∨ texts emit root' name = [])
    (h : load fromStr emit root m = m) :
    load fromStr emit root (load fromStr emit root' m) = load fromStr emit root' m := by
  funext name
  cases hname : m name with
  | none => rw [load, load, hname, Option.map_none, Option.map_none]
  | some v =>
    rcases hapart name (by rw [hname]; exact Option.some_ne_none v) with hnil | hnil
    · exact load_of_texts hnil
    · rw [load, load_of_texts hnil, ← load, h]

end Settings

namespace Config

variable {ι : Type} {Ty : ι → Type} {σ : Type} {c : Config Ty σ}

/-- What the modification times are good for: none is the one that stands for a file that has not been seen, a
file that changes gets another, and no variable is set by two files. -/
structure Orderly (emit : YamlNode → String) (c : Config Ty σ) (files : List ConfFile) : Prop where
  fresh : ∀ f ∈ files, f.stamp ≠ 0
  same : ∀ f ∈ files, ∀ f' ∈ files, f.key = f'.key → f.stamp = f'.stamp → f.val = f'.val
  apart : ∀ f ∈ files, ∀ f' ∈ files, f.key ≠ f'.key → ∀ root ∈ f.val, ∀ root' ∈ f'.val,
    ∀ name ∈ c.entries.map Prod.fst, Settings.texts emit root name = [] ∨ Settings.texts emit root' name = []

theorem settings_ne_none_iff {name : String} :
    c.settings name ≠ none ↔ name ∈ c.entries.map Prod.fst := by
  rw [settings, ne_eq, Option.map_eq_none_iff, List.find?_eq_none]
  simp

variable (fromStr : (i : ι) → String → Except String (Ty i)) {emit : YamlNode → String}
  {files : List ConfFile}

/-- Files of a directory that is kept in this way may be passed over. -/
theorem Orderly.settling (h : Orderly emit c files) :
    Stamped.Settling (Settings.loadFile fromStr emit)
      (fun m => ∀ name, c.settings name = none → m name = none) 0 files where
  kept f _ m hm name hname := by
    cases f.val with
    | none => exact hm name hname
    | some root => rw [Settings.loadFile, Settings.load, hm name hname, Option.map_none]
  fresh := h.fresh
  same := h.same
  idem f _ m _ := by
    cases f.val with
    | none => rfl
    | some root => exact Settings.load_load
  apart f hf f' hf' hkey m hm hsame := by
    cases hroot : f.val with
    | none => rfl
    | some root =>
      rw [hroot] at hsame
      cases hroot' : f'.val with
      | none => exact hsame
      | some root' =>
        apply Settings.load_load_of_apart _ hsame
        intro name hname
        apply h.apart f hf f' hf' hkey root hroot root' hroot' name
        exact settings_ne_none_iff.mp fun hnone => hname (hm name hnone)

variable [∀ i, BEq (Ty i)] [∀ i, LawfulBEq (Ty i)] (emit)

theorem Becomes.loadFile (h : c.Calm) (root : Option YamlNode) (s : σ) :
    c.Becomes (Settings.loadFile fromStr emit root c.settings) (loadFile fromStr emit root (c, s)).1 := by
  cases root with
  | none => exact .same h
  | some root => exact .loadFromYaml fromStr emit h root s

/-- One file after another. -/
theorem Becomes.loadAll (h : c.Calm) (files : List ConfFile) (s : σ) :
    c.Becomes (Stamped.replay (Settings.loadFile fromStr emit) files c.settings)
      (files.foldl (fun cs f => Config.loadFile fromStr emit f.val cs) (c, s)).1 := by
  induction files generalizing c s with
  | nil => exact .same h
  | cons f files ih =>
    have hfile := Becomes.loadFile fromStr emit h f.val s
    have hrest := ih hfile.calm (Config.loadFile fromStr emit f.val (c, s)).2
    rw [hfile.settings] at hrest
    exact hfile.trans hrest

/-- All files of all snapshots. -/
theorem Becomes.loadAllFiles (h : c.Calm) (absolute_path : String) (snapshots : List (List DirEntry))
    (s : σ) :
    c.Becomes
      (Stamped.replay (Settings.loadFile fromStr emit)
        (snapshots.flatMap (listAllFile absolute_path ".yml")) c.settings)
      (snapshots.foldl (fun cs entries => Config.loadAllFiles fromStr emit absolute_path entries cs)
        (c, s)).1 := by
  have hall := Becomes.loadAll fromStr emit h (snapshots.flatMap (listAllFile absolute_path ".yml")) s
  rw [List.foldl_flatMap] at hall
  exact hall

/-- What is on record, and what has been made of the configuration. -/
theorem Becomes.loadConfFiles (h : c.Calm) (files : List ConfFile) (t : String → Int) (s : σ) :
    let st := files.foldl (loadConfFile fromStr emit) (t, c, s)
    let abstract := Stamped.refresh (Settings.loadFile fromStr emit) files (t, c.settings)
    st.1 = abstract.1 ∧ c.Becomes abstract.2 st.2.1 := by
  induction files generalizing c t s with
  | nil => exact ⟨rfl, .same h⟩
  | cons f files ih =>
    dsimp only
    rw [List.foldl_cons, Stamped.refresh, List.foldl_cons, loadConfFile, Stamped.refreshStep]
    dsimp only
    by_cases hseen : t f.key = f.stamp
    · rw [if_pos hseen, if_pos hseen]
      exact ih h t s
    · rw [if_neg hseen, if_neg hseen]
      have hfile := Becomes.loadFile fromStr emit h f.val s
      have hrest := ih hfile.calm (Function.update t f.key f.stamp)
        (Config.loadFile fromStr emit f.val (c, s)).2
      rw [hfile.settings] at hrest
      exact ⟨hrest.1, hfile.trans hrest.2⟩

/-- However often a directory is loaded, and whatever has happened to its files meanwhile, the variables have
the values that they would have if every file were read every time; and what a file on record says is what
they have. -/
theorem settings_loadFromConfDir (h : c.Calm) (absolute_path : String) (snapshots : List (List DirEntry))
    (horderly : Orderly emit c (snapshots.flatMap (listAllFile absolute_path ".yml"))) (s : σ) :
    let st := snapshots.foldl (fun st entries => loadFromConfDir fromStr emit absolute_path entries st)
      (fun _ => 0, c, s)
    let cs := snapshots.foldl (fun cs entries => loadAllFiles fromStr emit absolute_path entries cs) (c, s)
    st.2.1.settings = cs.1.settings ∧
      ∀ f ∈ snapshots.flatMap (listAllFile absolute_path ".yml"), st.1 f.key = f.stamp →
        ∀ root ∈ f.val, ∀ name v, st.2.1.settings name = some v →
          ∀ w ∈ Settings.lastRead fromStr v.1 (Settings.texts emit root name), v.2 = w := by
  intro st cs
  have hst : st = (snapshots.flatMap (listAllFile absolute_path ".yml")).foldl
      (loadConfFile fromStr emit) (fun _ => 0, c, s) := by
    rw [List.foldl_flatMap]
    rfl
  have hreplay : c.Becomes _ cs.1 := .loadAllFiles fromStr emit h absolute_path snapshots s
  -- from here on the snapshots are one list of files
  generalize snapshots.flatMap (listAllFile absolute_path ".yml") = files at horderly hst hreplay ⊢
  obtain ⟨htimes, hrefresh⟩ := Becomes.loadConfFiles fromStr emit h files (fun _ => 0) s
  rw [← hst] at htimes hrefresh
  obtain ⟨heq, hsettled⟩ :=
    Stamped.refresh_eq_replay (horderly.settling fromStr) (m := c.settings) fun _ hnone => hnone
  have hsame : st.2.1.settings = cs.1.settings := by rw [hrefresh.settings, heq, hreplay.settings]
  refine ⟨hsame, fun f hf hseen root hroot name v hv w hw => ?_⟩
  rw [htimes] at hseen
  -- a file whose stamp is on record would change nothing
  have hkeeps := congrFun (hsettled f hf hseen) name
  rw [← hreplay.settings, ← hsame, hroot, Settings.loadFile, Settings.load, hv, Option.map_some, hw] at hkeeps
  have hval := Option.some.inj hkeeps
  rw [Option.getD_some, Sigma.mk.injEq] at hval
  exact (eq_of_heq hval.2).symm

def oneSetting (val : String) : Option YamlNode := some (.map [("X", .scalar val)])

/-- A directory with this setting, a file that cannot be read, and one that is not asked for. -/
def oneSettingDir (st_mtime : Int) (val : String) : List DirEntry := [
  .dir "d" [.reg "b.yml" 6 none],
  .reg "a.yml" st_mtime (oneSetting val),
  .reg "c" 8 (oneSetting "3")]

/-- A file that has changed between two calls. -/
theorem settings_loadFromConfDir_changed :
    let c := ((Config.empty (fun _ : Unit => String) Unit).lookup () "x" "0").2
    let st := [oneSettingDir 5 "1", oneSettingDir 7 "2"].foldl
      (fun st entries => loadFromConfDir (fun _ str => .ok str) (fun _ => "") "/" entries st)
      (fun _ => 0, c, ())
    c.Calm ∧ st.2.1.settings "x" = some ⟨(), "2"⟩ := by
  intro c st
  have hlookup := Becomes.lookup (c := Config.empty (fun _ : Unit => String) Unit)
    (fun e he => absurd he List.not_mem_nil) () "x" "0"
  have hfiles : [oneSettingDir 5 "1", oneSettingDir 7 "2"].flatMap (listAllFile "/" ".yml") = [
      ⟨"//d/b.yml", 6, none⟩, ⟨"//a.yml", 5, oneSetting "1"⟩, ⟨"//d/b.yml", 6, none⟩,
      ⟨"//a.yml", 7, oneSetting "2"⟩] := by
    have hlength : "a.yml".length = 5 ∧ "b.yml".length = 5 ∧ "c".length = 1 ∧ ".yml".length = 4 := by
      decide +kernel
    simp [oneSettingDir, listAllFile, DirEntry.listFiles, hlength]
  have horderly : Orderly (fun _ => "") c
      ([oneSettingDir 5 "1", oneSettingDir 7 "2"].flatMap (listAllFile "/" ".yml")) := by
    rw [hfiles]
    exact ⟨by simp, by simp, by simp [oneSetting]⟩
  have hsame := (settings_loadFromConfDir (fun _ str => .ok str) (fun _ => "") hlookup.calm "/" _
    horderly ()).1
  have hall := (Becomes.loadAllFiles (fun _ str => .ok str) (fun _ => "") hlookup.calm "/"
    [oneSettingDir 5 "1", oneSettingDir 7 "2"] ()).settings
  rw [hfiles, hlookup.settings] at hall
  refine ⟨hlookup.calm, (congrFun (hsame.trans hall) "x").trans ?_⟩
  decide +kernel

end Config

end Azure
