import Mathlib.Data.List.Induction
import Mathlib.Tactic.Common

/-!
# Tables of what was registered under a key

A key that is registered once more moves to the end of the table, and one that is taken out leaves it.
After any history the table lists, in the order in which they came, the registrations that nothing
later has touched.
-/

namespace Azure.Reasoning.Registry

variable {K V : Type*} [DecidableEq K]

def drop (key : K) (table : List (K × V)) : List (K × V) := table.eraseP fun e => e.1 = key

def put (key : K) (val : V) (table : List (K × V)) : List (K × V) := drop key table ++ [(key, val)]

def find (key : K) (table : List (K × V)) : Option V := (table.find? fun e => e.1 = key).map Prod.snd

inductive Op (K V : Type*) where
  | put (key : K) (val : V)
  | drop (key : K)

def Op.key : Op K V → K
  | put key _ => key
  | drop key => key

def step (table : List (K × V)) : Op K V → List (K × V)
  | .put key val => put key val table
  | .drop key => drop key table

def run (table : List (K × V)) (ops : List (Op K V)) : List (K × V) := ops.foldl step table

def untouched (ops : List (Op K V)) (key : K) : Bool := ops.all fun o => o.key ≠ key

def surviving : List (Op K V) → List (K × V)
  | [] => []
  | .put key val :: ops =>
    if untouched ops key then (key, val) :: surviving ops else surviving ops
  | .drop _ :: ops => surviving ops

def latest (ops : List (Op K V)) (key : K) : Option V :=
  ops.foldl (fun v o =>
    match o with
    | .put key' val => if key' = key then some val else v
    | .drop key' => if key' = key then none else v) none

/-! ## The table -/

variable {table : List (K × V)} {key : K} {val : V} {ops : List (Op K V)}

def Distinct (table : List (K × V)) : Prop := (table.map Prod.fst).Nodup

theorem Distinct.drop (h : Distinct table) : Distinct (drop key table) :=
  List.Nodup.sublist (List.eraseP_sublist.map Prod.fst) h

theorem drop_eq_filter (h : Distinct table) : drop key table = table.filter fun e => e.1 ≠ key := by
  induction table with
  | nil => rfl
  | cons e table ih =>
    rw [Distinct, List.map_cons, List.nodup_cons] at h
    rw [Registry.drop, List.eraseP_cons, List.filter_cons]
    by_cases hkey : e.1 = key
    · -- none of the others has the key of the first
      have hrest : table.filter (fun e' => decide (e'.1 ≠ key)) = table := by
        rw [List.filter_eq_self]
        intro e' he'
        rw [decide_eq_true_iff]
        intro heq
        exact h.1 (List.mem_map.mpr ⟨e', he', heq.trans hkey.symm⟩)
      simp only [hkey, ne_eq, not_true_eq_false, decide_true, decide_false, cond_true, if_false,
        Bool.false_eq_true]
      exact hrest.symm
    · have hrest := ih h.2
      rw [Registry.drop] at hrest
      simp only [hkey, decide_false, cond_false, ne_eq, not_false_eq_true, decide_true, if_true, hrest]

theorem not_mem_drop (h : Distinct table) : key ∉ (drop key table).map Prod.fst := by
  rw [drop_eq_filter h]
  intro hmem
  obtain ⟨e, he, heq⟩ := List.mem_map.mp hmem
  have hne := (List.mem_filter.mp he).2
  rw [decide_eq_true_iff] at hne
  exact hne heq

theorem Distinct.put (h : Distinct table) : Distinct (put key val table) := by
  rw [Distinct, Registry.put, List.map_append, List.nodup_append]
  refine ⟨h.drop, by simp, ?_⟩
  rintro a ha b hb rfl
  rw [List.map_singleton, List.mem_singleton] at hb
  exact not_mem_drop h (hb ▸ ha)

theorem Distinct.step (h : Distinct table) (o : Op K V) : Distinct (step table o) := by
  cases o with
  | put key val => exact h.put
  | drop key => exact h.drop

theorem Distinct.run (h : Distinct table) : Distinct (run table ops) := by
  induction ops generalizing table with
  | nil => exact h
  | cons o ops ih => exact ih (h.step o)

/-- The table after a history: the entries it had that were not touched, and then those of the history
that nothing later has touched. -/
theorem run_eq (h : Distinct table) :
    run table ops = table.filter (fun e => untouched ops e.1) ++ surviving ops := by
  induction ops generalizing table with
  | nil =>
    have hall : table.filter (fun e => untouched ([] : List (Op K V)) e.1) = table :=
      List.filter_eq_self.mpr fun _ _ => rfl
    rw [hall, surviving, List.append_nil]
    rfl
  | cons o ops ih =>
    show run (step table o) ops = _
    rw [ih (h.step o)]
    -- an entry is touched by `o` or by what comes later
    have hsplit : ∀ key, o.key = key →
        (table.filter fun e => e.1 ≠ key).filter (fun e => untouched ops e.1) =
          table.filter fun e => untouched (o :: ops) e.1 := by
      rintro key rfl
      rw [List.filter_filter]
      apply List.filter_congr
      intro e _
      rw [untouched, untouched, List.all_cons, Bool.and_comm]
      congr 1
      exact decide_eq_decide.mpr ⟨fun hne heq => hne heq.symm, fun hne heq => hne heq.symm⟩
    cases o with
    | put key val =>
      rw [Registry.step, Registry.put, drop_eq_filter h, List.filter_append, hsplit key rfl,
        List.append_assoc, surviving]
      congr 1
      rw [List.filter_cons, List.filter_nil]
      by_cases hkey : untouched ops key = true
      · rw [if_pos hkey, if_pos hkey]
        rfl
      · rw [if_neg hkey, if_neg hkey]
        rfl
    | drop key => rw [Registry.step, drop_eq_filter h, hsplit key rfl, surviving]

theorem run_nil (ops : List (Op K V)) : run [] ops = surviving ops := by
  rw [run_eq (show Distinct [] from List.nodup_nil)]
  rfl

/-! ## What stands under a key -/

theorem find_drop (h : Distinct table) (key' : K) :
    find key (drop key' table) = if key' = key then none else find key table := by
  rw [drop_eq_filter h, find, List.find?_filter]
  split_ifs with hkey
  · rw [List.find?_eq_none.mpr, Option.map_none]
    intro e _ heq
    rw [decide_eq_true_eq] at heq
    exact of_decide_eq_true heq.1 ((of_decide_eq_true heq.2).trans hkey.symm)
  · rw [find]
    congr 2
    funext e
    by_cases heq : e.1 = key
    · have hne : ¬ key = key' := fun heq' => hkey heq'.symm
      simp [heq, hne]
    · simp [heq]

theorem find_put (h : Distinct table) (key' : K) :
    find key (put key' val table) = if key' = key then some val else find key table := by
  have hdrop : find key (drop key' table) = if key' = key then none else find key table :=
    find_drop h key'
  rw [find] at hdrop ⊢
  rw [put, List.find?_append]
  split_ifs at hdrop ⊢ with hkey
  · rw [Option.map_eq_none_iff.mp hdrop]
    simp [hkey]
  · rw [List.find?_singleton, if_neg (by simpa using hkey), Option.or_none, hdrop]

theorem latest_append (ops : List (Op K V)) (o : Op K V) :
    latest (ops ++ [o]) key =
      match o with
      | .put key' val => if key' = key then some val else latest ops key
      | .drop key' => if key' = key then none else latest ops key := by
  rw [latest, List.foldl_append]
  rfl

/-- What stands under a key is what was done to it last. -/
theorem find_run (ops : List (Op K V)) : find key (run [] ops) = latest ops key := by
  induction ops using List.reverseRecOn with
  | nil => rfl
  | append_singleton ops o ih =>
    have hdistinct : Distinct (run ([] : List (K × V)) ops) := Distinct.run List.nodup_nil
    rw [run, List.foldl_append, latest_append]
    show find key (step (run [] ops) o) = _
    cases o with
    | put key' val => rw [Registry.step, find_put hdistinct, ih]
    | drop key' => rw [Registry.step, find_drop hdistinct, ih]

end Azure.Reasoning.Registry
