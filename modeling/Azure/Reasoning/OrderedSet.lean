import Mathlib.Data.List.Basic
import Mathlib.Data.List.InsertIdx

/-!
# Ordered sets with an external comparator

A `std::set` is modelled by its in-order sequence.  An iterator is a position in that sequence and
`end()` is its length.  The comparator is an argument of every operation, because the elements are
pointers and the comparator reads the objects behind them: the same sequence can be ordered for one
heap and not for another.
-/

namespace Azure.Reasoning.OrderedSet

variable {α : Type*}

structure StrictTotal (lt : α → α → Bool) : Prop where
  irrefl : ∀ a, lt a a = false
  trans : ∀ a b c, lt a b = true → lt b c = true → lt a c = true
  total : ∀ a b, a ≠ b → lt a b = true ∨ lt b a = true

def Sorted (lt : α → α → Bool) (xs : List α) : Prop :=
  xs.Pairwise fun a b => lt a b = true

def lowerBound (lt : α → α → Bool) (key : α) : List α → Nat
  | [] => 0
  | x :: xs => if lt x key then lowerBound lt key xs + 1 else 0

def upperBound (lt : α → α → Bool) (key : α) : List α → Nat
  | [] => 0
  | x :: xs => if lt key x then 0 else upperBound lt key xs + 1

def find (lt : α → α → Bool) (key : α) (xs : List α) : Nat :=
  let i := lowerBound lt key xs
  match xs[i]? with
  | some x => if lt key x then xs.length else i
  | none => xs.length

/-- Insert the key unless an equivalent element is there; the position is that of the inserted or
of the existing element. -/
def insert (lt : α → α → Bool) (key : α) (xs : List α) : Nat × List α :=
  let i := lowerBound lt key xs
  match xs[i]? with
  | some x => if lt key x then (i, xs.insertIdx i key) else (i, xs)
  | none => (i, xs.insertIdx i key)

variable {lt : α → α → Bool}

theorem StrictTotal.asymm (h : StrictTotal lt) {a b : α} (hab : lt a b = true) :
    lt b a = false := by
  by_contra hba
  have haa := h.trans a b a hab (by simpa using hba)
  rw [h.irrefl a] at haa
  exact Bool.false_ne_true haa

theorem StrictTotal.ne (h : StrictTotal lt) {a b : α} (hab : lt a b = true) : a ≠ b := by
  rintro rfl
  rw [h.irrefl a] at hab
  exact Bool.false_ne_true hab

theorem Sorted.nodup (h : StrictTotal lt) {xs : List α} (hs : Sorted lt xs) : xs.Nodup :=
  List.Pairwise.imp (fun hab => h.ne hab) hs

theorem Sorted.sublist {xs ys : List α} (hs : Sorted lt xs) (hsub : ys.Sublist xs) :
    Sorted lt ys :=
  List.Pairwise.sublist hsub hs

/-- Two comparators that agree on the members order the sequence alike. -/
theorem Sorted.congr {lt' : α → α → Bool} {xs : List α} (hs : Sorted lt xs)
    (heq : ∀ a ∈ xs, ∀ b ∈ xs, lt' a b = lt a b) : Sorted lt' xs :=
  List.Pairwise.imp_of_mem (fun ha hb hab => by rw [heq _ ha _ hb]; exact hab) hs

/-! ## Bounds -/

theorem lowerBound_append (key : α) (pre post : List α) (hpre : ∀ x ∈ pre, lt x key = true) :
    lowerBound lt key (pre ++ post) = pre.length + lowerBound lt key post := by
  induction pre with
  | nil => simp
  | cons x pre ih =>
    rw [List.cons_append, lowerBound, if_pos (hpre x (by simp)),
      ih fun y hy => hpre y (by simp [hy]), List.length_cons]
    omega

/-- The lower bound splits the sequence into the elements less than the key and the rest. -/
theorem lowerBound_split (h : StrictTotal lt) (key : α) {xs : List α} (hs : Sorted lt xs) :
    ∃ pre post, xs = pre ++ post ∧ pre.length = lowerBound lt key xs ∧
      (∀ x ∈ pre, lt x key = true) ∧ ∀ x ∈ post, lt x key = false := by
  induction xs with
  | nil => exact ⟨[], [], rfl, rfl, by simp, by simp⟩
  | cons x xs ih =>
    by_cases hx : lt x key = true
    · obtain ⟨pre, post, rfl, hlen, hpre, hpost⟩ := ih (List.Pairwise.of_cons hs)
      refine ⟨x :: pre, post, rfl, ?_, ?_, hpost⟩
      · rw [lowerBound, if_pos hx, List.length_cons, hlen]
      · intro y hy
        rcases List.mem_cons.mp hy with rfl | hy
        · exact hx
        · exact hpre y hy
    · refine ⟨[], x :: xs, rfl, ?_, by simp, ?_⟩
      · rw [lowerBound, if_neg hx, List.length_nil]
      · intro y hy
        rcases List.mem_cons.mp hy with rfl | hy
        · simpa using hx
        · by_contra hlt
          have hxy := List.rel_of_pairwise_cons hs hy
          exact hx (h.trans x y key hxy (by simpa using hlt))

/-- The upper bound splits the sequence into the elements not greater than the key and the rest. -/
theorem upperBound_split (h : StrictTotal lt) (key : α) {xs : List α} (hs : Sorted lt xs) :
    (∀ x ∈ xs.take (upperBound lt key xs), lt key x = false) ∧
      ∀ x ∈ xs.drop (upperBound lt key xs), lt key x = true := by
  induction xs with
  | nil => simp
  | cons x xs ih =>
    by_cases hx : lt key x = true
    · rw [upperBound, if_pos hx]
      refine ⟨by simp, fun y hy => ?_⟩
      rcases List.mem_cons.mp hy with rfl | hy
      · exact hx
      · exact h.trans key x y hx (List.rel_of_pairwise_cons hs hy)
    · obtain ⟨htake, hdrop⟩ := ih (List.Pairwise.of_cons hs)
      rw [upperBound, if_neg hx]
      refine ⟨fun y hy => ?_, by simpa using hdrop⟩
      rw [List.take_succ_cons] at hy
      rcases List.mem_cons.mp hy with rfl | hy
      · simpa using hx
      · exact htake y hy

/-! ## `find` and `erase` -/

/-- In an ordered sequence `find` reaches a member at its own position. -/
theorem find_of_mem (h : StrictTotal lt) {key : α} {pre post : List α}
    (hs : Sorted lt (pre ++ key :: post)) : find lt key (pre ++ key :: post) = pre.length := by
  have hpre : ∀ x ∈ pre, lt x key = true := fun x hx =>
    (List.pairwise_append.mp hs).2.2 x hx key (by simp)
  have hlb : lowerBound lt key (pre ++ key :: post) = pre.length := by
    rw [lowerBound_append key pre _ hpre, lowerBound, if_neg (by simp [h.irrefl]), Nat.add_zero]
  simp [find, hlb, h.irrefl]

theorem find_lt_length (h : StrictTotal lt) {key : α} {xs : List α} (hs : Sorted lt xs)
    (hmem : key ∈ xs) : find lt key xs < xs.length := by
  obtain ⟨pre, post, rfl⟩ := List.append_of_mem hmem
  rw [find_of_mem h hs, List.length_append, List.length_cons]
  omega

/-- Erasing the position found removes the key and nothing else. -/
theorem mem_eraseIdx_find (h : StrictTotal lt) {key : α} {xs : List α} (hs : Sorted lt xs)
    (hmem : key ∈ xs) (y : α) : y ∈ xs.eraseIdx (find lt key xs) ↔ y ∈ xs ∧ y ≠ key := by
  have hnd := hs.nodup h
  obtain ⟨pre, post, rfl⟩ := List.append_of_mem hmem
  rw [find_of_mem h hs, List.eraseIdx_append_of_length_le (Nat.le_refl _)]
  have hkey : key ∉ pre ∧ key ∉ post := by
    rw [List.nodup_append] at hnd
    exact ⟨fun hp => hnd.2.2 key hp key (by simp) rfl, (List.nodup_cons.mp hnd.2.1).1⟩
  simp only [Nat.sub_self, List.eraseIdx_cons_zero, List.mem_append, List.mem_cons]
  constructor
  · rintro (hy | hy)
    · exact ⟨Or.inl hy, fun e => hkey.1 (e ▸ hy)⟩
    · exact ⟨Or.inr (Or.inr hy), fun e => hkey.2 (e ▸ hy)⟩
  · rintro ⟨hy | rfl | hy, hne⟩
    · exact Or.inl hy
    · exact absurd rfl hne
    · exact Or.inr hy

theorem Sorted.eraseIdx {xs : List α} (hs : Sorted lt xs) (i : Nat) :
    Sorted lt (xs.eraseIdx i) :=
  hs.sublist (List.eraseIdx_sublist xs i)

/-! ## `insert` -/

private theorem insertIdx_length_append (key : α) (pre post : List α) :
    (pre ++ post).insertIdx pre.length key = pre ++ key :: post := by
  induction pre with
  | nil => simp
  | cons x pre ih => simp [List.insertIdx_succ_cons, ih]

/-- Inserting a new key splits the sequence around it. -/
theorem insert_split (h : StrictTotal lt) {key : α} {xs : List α} (hs : Sorted lt xs)
    (hnew : key ∉ xs) : ∃ pre post, xs = pre ++ post ∧
      insert lt key xs = (pre.length, pre ++ key :: post) ∧
      (∀ x ∈ pre, lt x key = true) ∧ ∀ x ∈ post, lt key x = true := by
  obtain ⟨pre, post, rfl, hlen, hpre, hpost⟩ := lowerBound_split h key hs
  have hgt : ∀ x ∈ post, lt key x = true := by
    intro x hx
    have hne : key ≠ x := fun e => hnew (by rw [e]; simp [hx])
    exact (h.total key x hne).resolve_right (by simp [hpost x hx])
  refine ⟨pre, post, rfl, ?_, hpre, hgt⟩
  simp only [insert, ← hlen]
  rw [insertIdx_length_append, List.getElem?_append_right (Nat.le_refl _), Nat.sub_self]
  cases post with
  | nil => rfl
  | cons y post => simp only [List.getElem?_cons_zero, hgt y (by simp), ↓reduceIte]

theorem mem_insert (h : StrictTotal lt) {key : α} {xs : List α} (hs : Sorted lt xs)
    (hnew : key ∉ xs) (y : α) : y ∈ (insert lt key xs).2 ↔ y = key ∨ y ∈ xs := by
  obtain ⟨pre, post, rfl, heq, -, -⟩ := insert_split h hs hnew
  rw [heq]
  simp only [List.mem_append, List.mem_cons]
  tauto

theorem Sorted.insert (h : StrictTotal lt) {key : α} {xs : List α} (hs : Sorted lt xs)
    (hnew : key ∉ xs) : Sorted lt (insert lt key xs).2 := by
  obtain ⟨pre, post, rfl, heq, hpre, hpost⟩ := insert_split h hs hnew
  obtain ⟨hs₁, hs₂, hcross⟩ := List.pairwise_append.mp hs
  rw [heq]
  refine List.pairwise_append.mpr ⟨hs₁, List.pairwise_cons.mpr ⟨hpost, hs₂⟩, ?_⟩
  intro a ha b hb
  rcases List.mem_cons.mp hb with rfl | hb
  · exact hpre a ha
  · exact hcross a ha b hb

/-- The inserted key stands at `begin()` exactly when it is less than every other member. -/
theorem insert_fst_eq_zero_iff (h : StrictTotal lt) {key : α} {xs : List α} (hs : Sorted lt xs)
    (hnew : key ∉ xs) : (OrderedSet.insert lt key xs).1 = 0 ↔ ∀ x ∈ xs, lt key x = true := by
  obtain ⟨pre, post, rfl, heq, hpre, hpost⟩ := insert_split h hs hnew
  rw [heq]
  constructor
  · intro hz x hx
    rw [List.length_eq_zero_iff.mp hz, List.nil_append] at hx
    exact hpost x hx
  · intro hall
    cases pre with
    | nil => rfl
    | cons y pre =>
      have hy := h.asymm (hpre y (by simp))
      rw [hall y (by simp)] at hy
      exact absurd hy (by simp)

end Azure.Reasoning.OrderedSet
