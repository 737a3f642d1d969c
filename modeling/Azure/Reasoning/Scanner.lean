import Mathlib.Data.List.Basic

/-!
# Scanners

A scanner takes bytes one by one and performs actions on its transitions, the way the code that a
scanner generator writes does.  The actions store positions of the input in registers and read them
back.  When the input comes in pieces and a register does not survive a piece, what an action reads
depends on the cuts, unless every register it reads was stored within the same piece.
-/

namespace Azure.Reasoning

structure Scanner (σ A : Type*) where
  start : σ
  next : σ → UInt8 → List A × σ
  isError : σ → Bool
  isFinished : σ → Bool
  /-- the actions that break off the scan -/
  breaks : A → Bool

namespace Scanner

variable {σ A X Y : Type*}

def run (M : Scanner σ A) (s : σ) (bytes : List UInt8) : σ :=
  bytes.foldl (fun s b => (M.next s b).2) s

/-- One scan from position `p`: where it ends, with the state and the data it leaves.  A byte that
leads to an error is not taken. -/
def scan (M : Scanner σ A) (act : Nat → A → X → Option X) (p : Nat) (s : σ) (x : X) :
    List UInt8 → Option (Nat × σ × X)
  | [] => some (p, s, x)
  | b :: bs =>
    let (acts, t) := M.next s b
    if M.isError t then some (p, t, x)
    else
      (acts.foldlM (fun x a => act p a x) x).bind fun x =>
        if acts.any M.breaks then some (p + 1, t, x) else scan M act (p + 1) t x bs

def follow (M : Scanner σ A) (act : Nat → A → X → Option X) (p : Nat) (s : σ) (x : X) :
    List UInt8 → Option X
  | [] => some x
  | b :: bs =>
    let (acts, t) := M.next s b
    (acts.foldlM (fun x a => act p a x) x).bind fun x => follow M act (p + 1) t x bs

def actions (M : Scanner σ A) (s : σ) : List UInt8 → List A
  | [] => []
  | b :: bs => (M.next s b).1 ++ actions M (M.next s b).2 bs

def accepts (M : Scanner σ A) (s : σ) : List UInt8 → Bool
  | [] => false
  | b :: bs =>
    let (acts, t) := M.next s b
    !M.isError t &&
      if acts.any M.breaks then M.isFinished t && bs.isEmpty
      else !M.isFinished t && accepts M t bs

variable (M : Scanner σ A)

theorem run_append (s : σ) (u v : List UInt8) : M.run s (u ++ v) = M.run (M.run s u) v :=
  List.foldl_append

theorem follow_append (act : Nat → A → X → Option X) (p : Nat) (s : σ) (x : X)
    (u v : List UInt8) :
    M.follow act p s x (u ++ v) =
      (M.follow act p s x u).bind fun x => M.follow act (p + u.length) (M.run s u) x v := by
  induction u generalizing p s x with
  | nil => rfl
  | cons b u ih =>
    simp only [List.cons_append, follow, Option.bind_assoc, ih, List.length_cons, Nat.add_assoc,
      Nat.add_comm 1]
    rfl

/-- What each action on the way preserves, all of them preserve. -/
theorem follow_invariant (inv : X → Prop) {act : Nat → A → X → Option X} {w : List UInt8}
    {p : Nat} {s : σ} {x x' : X}
    (hact : ∀ p a x x', a ∈ M.actions s w → act p a x = some x' → inv x → inv x')
    (h : M.follow act p s x w = some x') (hinv : inv x) : inv x' := by
  have hacts : ∀ (p : Nat) (acts : List A) x x', (∀ a ∈ acts, ∀ x x',
      act p a x = some x' → inv x → inv x') →
      acts.foldlM (fun x a => act p a x) x = some x' → inv x → inv x' := by
    intro p acts
    induction acts with
    | nil =>
      intro x x' _ h hinv
      cases h
      exact hinv
    | cons a acts ih =>
      intro x x' hact h hinv
      rw [List.foldlM_cons] at h
      obtain ⟨y, hy, hrest⟩ := Option.bind_eq_some_iff.mp h
      exact ih y x' (fun b hb => hact b (List.mem_cons_of_mem a hb)) hrest
        (hact a List.mem_cons_self x y hy hinv)
  induction w generalizing p s x with
  | nil =>
    cases h
    exact hinv
  | cons b w ih =>
    obtain ⟨y, hy, hrest⟩ := Option.bind_eq_some_iff.mp h
    apply ih _ hrest
    · exact hacts p _ x y (fun a ha x x' => hact p a x x' (List.mem_append_left _ ha)) hy hinv
    · exact fun p a x x' ha => hact p a x x' (List.mem_append_right _ ha)

variable {M} in
/-- What every transition of a scan preserves holds where it ends; a byte that leads to an error is not
taken. -/
theorem scan_invariant (inv : Nat → σ → X → Prop) {act : Nat → A → X → Option X} {buffer : List UInt8}
    (hstep : ∀ p s x b x', buffer[p]? = some b → inv p s x → M.isError (M.next s b).2 = false →
      (M.next s b).1.foldlM (fun x a => act p a x) x = some x' → inv (p + 1) (M.next s b).2 x')
    {w : List UInt8} {p p' : Nat} {s t : σ} {x x' : X} (hw : buffer.drop p = w)
    (h : M.scan act p s x w = some (p', t, x')) (hinv : inv p s x) :
    ∃ s', inv p' s' x' ∧ (M.isError t = false → s' = t) := by
  induction w generalizing p s x with
  | nil =>
    cases h
    exact ⟨_, hinv, fun _ => rfl⟩
  | cons b w ih =>
    have hb : buffer[p]? = some b := by
      rw [← List.head?_drop, hw]
      rfl
    have hrest : buffer.drop (p + 1) = w := by
      rw [← List.tail_drop, hw]
      rfl
    simp only [scan] at h
    split at h
    · next herror =>
      cases h
      exact ⟨s, hinv, fun hnot => absurd (herror.symm.trans hnot) (by decide)⟩
    · next hok =>
      obtain ⟨y, hy, hscan⟩ := Option.bind_eq_some_iff.mp h
      have hnext := hstep p s x b y hb hinv (Bool.eq_false_iff.mpr hok) hy
      split at hscan
      · cases hscan
        exact ⟨_, hnext, fun _ => rfl⟩
      · exact ih hrest hscan hnext

variable {M} in
/-- A scan does not go back. -/
theorem scan_le {act : Nat → A → X → Option X} {w : List UInt8} {p p' : Nat} {s t : σ} {x x' : X}
    (h : M.scan act p s x w = some (p', t, x')) : p ≤ p' := by
  induction w generalizing p s x with
  | nil =>
    cases h
    exact Nat.le_refl _
  | cons b w ih =>
    simp only [scan] at h
    split at h
    · cases h
      exact Nat.le_refl _
    · obtain ⟨y, -, hscan⟩ := Option.bind_eq_some_iff.mp h
      split at hscan
      · cases hscan
        exact Nat.le_succ _
      · exact Nat.le_of_succ_le (ih hscan)

variable {M} in
/-- A scan that takes no byte ends where it begins, or at an error. -/
theorem scan_stays {act : Nat → A → X → Option X} {w : List UInt8} {p : Nat} {s t : σ} {x x' : X}
    (h : M.scan act p s x w = some (p, t, x')) : t = s ∨ M.isError t = true := by
  cases w with
  | nil =>
    cases h
    exact Or.inl rfl
  | cons b w =>
    simp only [scan] at h
    split at h
    · next herror =>
      cases h
      exact Or.inr herror
    · obtain ⟨y, -, hscan⟩ := Option.bind_eq_some_iff.mp h
      split at hscan
      · cases hscan
      · exact absurd (scan_le hscan) (Nat.not_succ_le_self p)

variable {M} in
/-- Two scans whose data stay related action by action end at the same byte with related data, or both
fail. -/
theorem scan_related (R : X → Y → Prop) {act : Nat → A → X → Option X} {act' : Nat → A → Y → Option Y}
    (hact : ∀ p a x y, R x y → Option.Rel R (act p a x) (act' p a y)) {w : List UInt8} {p : Nat} {s : σ}
    {x : X} {y : Y} (h : R x y) :
    Option.Rel (fun r r' => r.1 = r'.1 ∧ r.2.1 = r'.2.1 ∧ R r.2.2 r'.2.2) (M.scan act p s x w)
      (M.scan act' p s y w) := by
  have hacts : ∀ (p : Nat) (acts : List A) x y, R x y →
      Option.Rel R (acts.foldlM (fun x a => act p a x) x) (acts.foldlM (fun y a => act' p a y) y) := by
    intro p acts
    induction acts with
    | nil => exact fun x y h => .some h
    | cons a acts ih =>
      intro x y h
      rw [List.foldlM_cons, List.foldlM_cons]
      have hfirst := hact p a x y h
      revert hfirst
      cases act p a x <;> cases act' p a y <;> intro hfirst
      · exact .none
      · cases hfirst
      · cases hfirst
      · cases hfirst with
        | some h' => exact ih _ _ h'
  induction w generalizing p s x y with
  | nil => exact .some ⟨rfl, rfl, h⟩
  | cons b w ih =>
    simp only [scan]
    split
    · exact .some ⟨rfl, rfl, h⟩
    · have hstep := hacts p (M.next s b).1 x y h
      revert hstep
      cases (M.next s b).1.foldlM (fun x a => act p a x) x <;>
        cases (M.next s b).1.foldlM (fun y a => act' p a y) y <;> intro hstep
      · exact .none
      · cases hstep
      · cases hstep
      · cases hstep with
        | some h' =>
          simp only [Option.bind_some]
          split
          · exact .some ⟨rfl, rfl, h'⟩
          · exact ih h'

section Accepted

variable {M} {s : σ} {w post : List UInt8}

-- In front of an accepted input only the last piece breaks off, and that behind its last byte.
theorem scan_of_accepts (act : Nat → A → X → Option X) (p : Nat) (x : X)
    (h : M.accepts s (w ++ post) = true) :
    M.scan act p s x w = (M.follow act p s x w).map fun x => (p + w.length, M.run s w, x) := by
  induction w generalizing p s x with
  | nil => rfl
  | cons b w ih =>
    simp only [List.cons_append, accepts, Bool.and_eq_true, Bool.not_eq_true'] at h
    simp only [scan, follow, h.1, Bool.false_eq_true, if_false, Option.map_bind]
    congr 1
    funext x'
    have h2 := h.2
    split at h2
    · next hbreaks =>
      simp only [Bool.and_eq_true, List.isEmpty_iff, List.append_eq_nil_iff] at h2
      simp [hbreaks, h2.2.1, follow, run]
    · next hbreaks =>
      simp only [Bool.and_eq_true] at h2
      simp only [if_neg hbreaks, ih (p + 1) x' h2.2, List.length_cons, Function.comp_apply,
        Nat.add_assoc, Nat.add_comm 1]
      rfl

-- What stands behind an accepted input is not looked at.
theorem scan_accepts_append (act : Nat → A → X → Option X) (p : Nat) (x : X)
    (h : M.accepts s w = true) (more : List UInt8) :
    M.scan act p s x (w ++ more) =
      (M.follow act p s x w).map fun x => (p + w.length, M.run s w, x) := by
  induction w generalizing p s x with
  | nil => simp [accepts] at h
  | cons b w ih =>
    simp only [accepts, Bool.and_eq_true, Bool.not_eq_true'] at h
    simp only [List.cons_append, scan, follow, h.1, Bool.false_eq_true, if_false, Option.map_bind]
    congr 1
    funext x'
    have h2 := h.2
    split at h2
    · next hbreaks =>
      simp only [Bool.and_eq_true, List.isEmpty_iff] at h2
      simp [hbreaks, h2.2, follow, run]
    · next hbreaks =>
      simp only [Bool.and_eq_true] at h2
      simp only [if_neg hbreaks, ih (p + 1) x' h2.2, List.length_cons, Function.comp_apply,
        Nat.add_assoc, Nat.add_comm 1]
      rfl

theorem accepts_append (h : M.accepts s (w ++ post) = true) (hw : w ≠ []) :
    M.isError (M.run s w) = false ∧ M.isFinished (M.run s w) = post.isEmpty ∧
      (post ≠ [] → M.accepts (M.run s w) post = true) := by
  induction w generalizing s with
  | nil => exact absurd rfl hw
  | cons b w ih =>
    simp only [List.cons_append, accepts, Bool.and_eq_true, Bool.not_eq_true'] at h
    have h2 := h.2
    split at h2
    · simp only [Bool.and_eq_true, List.isEmpty_iff, List.append_eq_nil_iff] at h2
      obtain ⟨hfinished, rfl, rfl⟩ := h2
      exact ⟨h.1, hfinished, fun hpost => absurd rfl hpost⟩
    · simp only [Bool.and_eq_true, Bool.not_eq_true'] at h2
      by_cases hnil : w = []
      · subst hnil
        refine ⟨h.1, ?_, fun _ => h2.2⟩
        cases post with
        | nil => simp [accepts] at h2
        | cons c post => exact h2.1
      · exact ih h2.2 hnil

theorem run_of_accepts (h : M.accepts s w = true) :
    M.isError (M.run s w) = false ∧ M.isFinished (M.run s w) = true := by
  have hw : w ≠ [] := by
    rintro rfl
    cases h
  rw [← List.append_nil w] at h
  obtain ⟨herror, hfinished, -⟩ := accepts_append h hw
  exact ⟨herror, hfinished⟩

/-- What the transitions from unfinished states preserve holds at the end of an accepted input. -/
theorem accepts_invariant (inv : Nat → σ → X → Prop) {act : Nat → A → X → Option X}
    {buffer : List UInt8}
    (hstep : ∀ p s x b x', buffer[p]? = some b → M.isFinished s = false → inv p s x →
      (M.next s b).1.foldlM (fun x a => act p a x) x = some x' → inv (p + 1) (M.next s b).2 x')
    {p : Nat} {s : σ} {x x' : X} (hw : buffer.drop p = w) (hunfinished : M.isFinished s = false)
    (h : M.accepts s w = true) (hfollow : M.follow act p s x w = some x') (hinv : inv p s x) :
    inv (p + w.length) (M.run s w) x' := by
  induction w generalizing p s x with
  | nil => cases h
  | cons b w ih =>
    have hb : buffer[p]? = some b := by
      rw [← List.head?_drop, hw]
      rfl
    have hrest : buffer.drop (p + 1) = w := by
      rw [← List.tail_drop, hw]
      rfl
    rw [follow] at hfollow
    obtain ⟨y, hy, hmore⟩ := Option.bind_eq_some_iff.mp hfollow
    have hnext := hstep p s x b y hb hunfinished hinv hy
    simp only [accepts, Bool.and_eq_true] at h
    have h2 := h.2
    split at h2
    · -- the last byte
      rw [Bool.and_eq_true, List.isEmpty_iff] at h2
      obtain rfl := h2.2
      cases hmore
      exact hnext
    · rw [Bool.and_eq_true, Bool.not_eq_true'] at h2
      rw [List.length_cons, Nat.add_comm w.length 1, ← Nat.add_assoc]
      exact ih hrest h2.1 h2.2 hmore hnext

/-- When a scan of an accepted input goes on without an action up to `a`, what `a` brings about and no
action undoes holds at its end. -/
theorem follow_quiet (quiet : σ → Prop) (a : A) (inv : X → Prop) {act : Nat → A → X → Option X}
    (hnext : ∀ s b, quiet s → M.isError (M.next s b).2 = true ∨
      (M.next s b).1 = [] ∧ quiet (M.next s b).2 ∨ (M.next s b).1 = [a])
    (hact : ∀ p b x x', act p b x = some x' → inv x → inv x') {p : Nat} {x x' : X}
    (ha : ∀ q x', p ≤ q → act q a x = some x' → inv x') (hs : quiet s)
    (h : M.accepts s w = true) (hfollow : M.follow act p s x w = some x') : inv x' := by
  induction w generalizing p s with
  | nil => cases h
  | cons b w ih =>
    simp only [accepts, Bool.and_eq_true, Bool.not_eq_true'] at h
    rw [follow] at hfollow
    rcases hnext s b hs with herror | ⟨hnone, hquiet⟩ | hone
    · rw [herror] at h
      cases h.1
    · have hrest : M.accepts (M.next s b).2 w = true := by
        have h2 := h.2
        rw [hnone, List.any_nil, if_neg Bool.false_ne_true, Bool.and_eq_true] at h2
        exact h2.2
      dsimp only at hfollow
      rw [hnone] at hfollow
      exact ih (fun q x' hq => ha q x' (Nat.le_of_succ_le hq)) hquiet hrest hfollow
    · dsimp only at hfollow
      rw [hone, List.foldlM_cons, Option.bind_eq_some_iff] at hfollow
      obtain ⟨y, hy, hrest⟩ := hfollow
      obtain ⟨y', hy', hnil⟩ := Option.bind_eq_some_iff.mp hy
      cases hnil
      exact M.follow_invariant inv (fun p b x x' _ => hact p b x x') hrest
        (ha p y (Nat.le_refl p) hy')

end Accepted

/-! ## Scans that nothing breaks off -/

section Unbroken

variable {M} (hbreaks : ∀ a, M.breaks a = false)
include hbreaks

theorem scan_of_not_isError (act : Nat → A → X → Option X) (p : Nat) {s : σ} (x : X)
    {w : List UInt8} (h : ∀ u c v, w = u ++ c :: v → M.isError (M.run s (u ++ [c])) = false) :
    M.scan act p s x w = (M.follow act p s x w).map fun x => (p + w.length, M.run s w, x) := by
  induction w generalizing p s x with
  | nil => rfl
  | cons b w ih =>
    have herror : M.isError (M.next s b).2 = false := h [] b w rfl
    have hany : (M.next s b).1.any M.breaks = false := by simp [hbreaks]
    simp only [scan, follow, herror, hany, Bool.false_eq_true, if_false, Option.map_bind]
    congr 1
    funext x'
    rw [ih (p + 1) x' fun u c v hw => h (b :: u) c v (by rw [hw, List.cons_append])]
    simp only [List.length_cons, Function.comp_apply, Nat.add_assoc, Nat.add_comm 1]
    rfl

/-- A scan that ends without an error has taken everything. -/
theorem run_of_scan {act : Nat → A → X → Option X} {p p' : Nat} {s t : σ} {x x' : X}
    {w : List UInt8} (h : M.scan act p s x w = some (p', t, x')) (ht : M.isError t = false) :
    t = M.run s w := by
  induction w generalizing p s x with
  | nil =>
    cases h
    rfl
  | cons b w ih =>
    have hany : (M.next s b).1.any M.breaks = false := by simp [hbreaks]
    simp only [scan, hany, Bool.false_eq_true, if_false] at h
    split at h
    · next herror =>
      cases h
      rw [ht] at herror
      cases herror
    · obtain ⟨y, -, hrest⟩ := Option.bind_eq_some_iff.mp h
      exact ih hrest

end Unbroken

/-! ## Clean pieces -/

variable {R : Type*} [DecidableEq R]

/-- The registers an action reads, the one it stores, and those that are out of date then. -/
structure Registers (A R : Type*) where
  reads : A → List R
  stores : A → Option R
  drops : A → List R := fun _ => []

variable (ρ : Registers A R)

def stored (F : List R) (a : A) : List R :=
  (ρ.stores a).toList ++ F.filter (· ∉ ρ.drops a)

variable {ρ} in
theorem stored_of_stores {F : List R} {a : A} {r : R} (hstores : ρ.stores a = some r)
    (hdrops : ρ.drops a = []) : stored ρ F a = r :: F := by
  simp [stored, hstores, hdrops]

variable {ρ} in
theorem stored_of_drops {F : List R} {a : A} (hstores : ρ.stores a = none)
    (hdrops : ρ.drops a = []) : stored ρ F a = F := by
  simp [stored, hstores, hdrops]

def cleanActs : List R → List A → Bool
  | _, [] => true
  | F, a :: as => (ρ.reads a).all (· ∈ F) && cleanActs (stored ρ F a) as

def clean (F : List R) (s : σ) : List UInt8 → Bool
  | [] => true
  | b :: bs =>
    let (acts, t) := M.next s b
    cleanActs ρ F acts && clean (acts.foldl (stored ρ) F) t bs

/-- In every piece, every action reads registers that were stored in the same piece. -/
def cleanPieces (s : σ) : List (List UInt8) → Bool
  | [] => true
  | w :: ws => M.clean ρ [] s w && cleanPieces (M.run s w) ws

variable {M ρ}

/-- Two runs of clean actions: what one action preserves while the registers it reads are stored,
all of them preserve. -/
theorem foldlM_clean (rel : List R → X → Y → Prop) {f : X → A → Option X} {g : Y → A → Option Y}
    {acts : List A}
    (hact : ∀ F a x y, a ∈ acts → rel F x y → (∀ r ∈ ρ.reads a, r ∈ F) →
      ∃ x' y', f x a = some x' ∧ g y a = some y' ∧ rel (stored ρ F a) x' y')
    {F : List R} {x : X} {y : Y} (h : rel F x y) (hclean : cleanActs ρ F acts = true) :
    ∃ x' y', acts.foldlM f x = some x' ∧ acts.foldlM g y = some y' ∧
      rel (acts.foldl (stored ρ) F) x' y' := by
  induction acts generalizing F x y with
  | nil => exact ⟨x, y, rfl, rfl, h⟩
  | cons a acts ih =>
    simp only [cleanActs, Bool.and_eq_true, List.all_eq_true, decide_eq_true_eq] at hclean
    obtain ⟨x₁, y₁, hx₁, hy₁, h₁⟩ := hact F a x y List.mem_cons_self h hclean.1
    obtain ⟨x', y', hx', hy', h'⟩ :=
      ih (fun F b x y hb => hact F b x y (List.mem_cons_of_mem a hb)) h₁ hclean.2
    refine ⟨x', y', ?_, ?_, h'⟩
    · rw [List.foldlM_cons, hx₁]; exact hx'
    · rw [List.foldlM_cons, hy₁]; exact hy'

/-- Two runs through a clean piece, one at the positions of the piece and one at those of the whole
input: what one transition preserves, the piece preserves. -/
theorem follow_clean (rel : List R → Nat → σ → X → Y → Prop) {f : Nat → A → X → Option X}
    {g : Nat → A → Y → Option Y} {w : List UInt8} (o : Nat)
    (hstep : ∀ F p s b x y, w[p]? = some b → rel F p s x y →
      cleanActs ρ F (M.next s b).1 = true →
      ∃ x' y', (M.next s b).1.foldlM (fun x a => f p a x) x = some x' ∧
        (M.next s b).1.foldlM (fun y a => g (o + p) a y) y = some y' ∧
        rel ((M.next s b).1.foldl (stored ρ) F) (p + 1) (M.next s b).2 x' y')
    {F : List R} {s : σ} {x : X} {y : Y} (h : rel F 0 s x y) (hclean : M.clean ρ F s w = true) :
    ∃ F' x' y', M.follow f 0 s x w = some x' ∧ M.follow g o s y w = some y' ∧
      rel F' w.length (M.run s w) x' y' := by
  -- the induction is on the rest `v` of the piece behind position `p`
  have hrest : ∀ v p F s x y, w.drop p = v → rel F p s x y → M.clean ρ F s v = true →
      ∃ F' x' y', M.follow f p s x v = some x' ∧ M.follow g (o + p) s y v = some y' ∧
        rel F' (p + v.length) (M.run s v) x' y' := by
    intro v
    induction v with
    | nil => exact fun p F s x y _ h _ => ⟨F, x, y, rfl, rfl, h⟩
    | cons b v ih =>
      intro p F s x y hdrop h hclean
      have hb : w[p]? = some b := by
        have := congrArg (fun l => l[0]?) hdrop
        simpa [List.getElem?_drop] using this
      have hv : w.drop (p + 1) = v := by
        rw [← List.tail_drop, hdrop]
        rfl
      simp only [clean, Bool.and_eq_true] at hclean
      obtain ⟨x₁, y₁, hx₁, hy₁, h₁⟩ := hstep F p s b x y hb h hclean.1
      obtain ⟨F', x', y', hx', hy', h'⟩ := ih (p + 1) _ _ x₁ y₁ hv h₁ hclean.2
      refine ⟨F', x', y', ?_, ?_, ?_⟩
      · simp only [follow, hx₁, Option.bind_some, hx']
      · simp only [follow, hy₁, Option.bind_some, Nat.add_assoc, hy']
      · rw [List.length_cons, Nat.add_comm v.length, ← Nat.add_assoc]
        exact h'
  obtain ⟨F', x', y', hx', hy', h'⟩ := hrest w 0 F s x y rfl h hclean
  rw [Nat.zero_add] at h'
  exact ⟨F', x', y', hx', hy', h'⟩

end Scanner

end Azure.Reasoning
