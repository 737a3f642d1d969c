import Azure.Reasoning.Scanner

/-!
# Text that a scanner is known to take

A text that a program prints is a row of tokens.  `Passes` says what one token does: from which state
to which, and what its actions make of the data.  Tokens are put one behind the other, and a row of
them that ends where the scan breaks off is an accepted input.

The registers that are stored whenever the scanner is in a state are given by `G`, so that which
registers an action may read is settled transition by transition.
-/

namespace Azure.Reasoning.Scanner

variable {σ A X R : Type*} [DecidableEq R]

section Registers

variable (ρ : Registers A R)

/-- Where the registers `F` are stored these actions are clean, and leave the registers `F'`. -/
def Assigns (F : List R) (acts : List A) (F' : List R) : Prop :=
  cleanActs ρ F acts = true ∧ ∀ r ∈ F', r ∈ acts.foldl (stored ρ) F

instance (F : List R) (acts : List A) (F' : List R) : Decidable (Assigns ρ F acts F') :=
  inferInstanceAs (Decidable (_ ∧ _))

variable {ρ}

theorem assigns_nil {F F' : List R} (h : F' ⊆ F) : Assigns ρ F [] F' := ⟨rfl, fun _ hr => h hr⟩

theorem cleanActs_mono {F F' : List R} {acts : List A} (hF : F ⊆ F')
    (h : cleanActs ρ F acts = true) :
    cleanActs ρ F' acts = true ∧ acts.foldl (stored ρ) F ⊆ acts.foldl (stored ρ) F' := by
  induction acts generalizing F F' with
  | nil => exact ⟨rfl, hF⟩
  | cons a acts ih =>
    simp only [cleanActs, Bool.and_eq_true, List.all_eq_true, decide_eq_true_eq] at h ⊢
    have hstored : stored ρ F a ⊆ stored ρ F' a := by
      intro r hr
      rcases List.mem_append.mp hr with hr | hr
      · exact List.mem_append_left _ hr
      · rw [List.mem_filter] at hr
        exact List.mem_append_right _ (List.mem_filter.mpr ⟨hF hr.1, hr.2⟩)
    obtain ⟨hclean, hsub⟩ := ih hstored h.2
    exact ⟨⟨fun r hr => hF (h.1 r hr), hclean⟩, hsub⟩

theorem clean_mono {M : Scanner σ A} {F F' : List R} {s : σ} {w : List UInt8} (hF : F ⊆ F')
    (h : M.clean ρ F s w = true) : M.clean ρ F' s w = true := by
  induction w generalizing s F F' with
  | nil => rfl
  | cons b w ih =>
    rw [clean, Bool.and_eq_true] at h ⊢
    obtain ⟨hclean, hsub⟩ := cleanActs_mono hF h.1
    exact ⟨hclean, ih hsub h.2⟩

end Registers

variable (M : Scanner σ A) (act : Nat → A → X → Option X) (ρ : Registers A R) (G : σ → List R)

/-- At position `p` the text `w` leads from state `s` and data `x` to state `t` and data `y`, and the
scan goes on behind it. -/
structure Passes (p : Nat) (s : σ) (x : X) (w : List UInt8) (t : σ) (y : X) : Prop where
  follow : M.follow act p s x w = some y
  run : M.run s w = t
  accepts : ∀ post, M.accepts t post = true → M.accepts s (w ++ post) = true
  clean : ∀ post, M.clean ρ (G t) t post = true → M.clean ρ (G s) s (w ++ post) = true

variable {M act ρ G} {p : Nat} {s t u : σ} {x y z : X} {v w : List UInt8}

namespace Passes

theorem nil : Passes M act ρ G p s x [] s x where
  follow := rfl
  run := rfl
  accepts _ h := h
  clean _ h := h

theorem append (hv : Passes M act ρ G p s x v t y)
    (hw : Passes M act ρ G (p + v.length) t y w u z) : Passes M act ρ G p s x (v ++ w) u z where
  follow := by
    rw [follow_append, hv.follow, hv.run]
    exact hw.follow
  run := by rw [run_append, hv.run, hw.run]
  accepts post h := by
    rw [List.append_assoc]
    exact hv.accepts _ (hw.accepts post h)
  clean post h := by
    rw [List.append_assoc]
    exact hv.clean _ (hw.clean post h)

/-- One byte. -/
theorem byte {b : UInt8} (acts : List A) (hnext : M.next s b = (acts, t))
    (hacts : acts.foldlM (fun x a => act p a x) x = some y) (hbreaks : acts.any M.breaks = false)
    (ht : M.isError t = false ∧ M.isFinished t = false) (hassigns : Assigns ρ (G s) acts (G t)) :
    Passes M act ρ G p s x [b] t y where
  follow := by
    rw [Scanner.follow, hnext]
    dsimp only
    rw [hacts]
    rfl
  run := by rw [Scanner.run, List.foldl_cons, hnext, List.foldl_nil]
  accepts post h := by
    rw [List.singleton_append, Scanner.accepts, hnext]
    simp [ht, hbreaks, h]
  clean post h := by
    rw [List.singleton_append, Scanner.clean, hnext, Bool.and_eq_true]
    exact ⟨hassigns.1, clean_mono (fun r hr => hassigns.2 r hr) h⟩

/-- A byte on which nothing is done. -/
theorem quiet {b : UInt8} (hnext : M.next s b = ([], t))
    (ht : M.isError t = false ∧ M.isFinished t = false) (hassigns : G t ⊆ G s) :
    Passes M act ρ G p s x [b] t x :=
  byte [] hnext rfl rfl ht (assigns_nil hassigns)

theorem cons {b : UInt8} (hb : Passes M act ρ G p s x [b] t y)
    (hw : Passes M act ρ G (p + 1) t y w u z) : Passes M act ρ G p s x (b :: w) u z :=
  hb.append hw

/-- Bytes on which the scanner stays where it is. -/
theorem loop (hnext : ∀ b ∈ w, M.next s b = ([], s))
    (hs : M.isError s = false ∧ M.isFinished s = false) : Passes M act ρ G p s x w s x := by
  induction w generalizing p with
  | nil => exact nil
  | cons b w ih =>
    have hrest := ih (p := p + 1) fun c hc => hnext c (List.mem_cons_of_mem b hc)
    exact (quiet (hnext b List.mem_cons_self) hs (List.Subset.refl _)).cons hrest

/-- A text on which nothing is done, with what is known in its states; it may depend on what has been
read. -/
theorem within (P : List UInt8 → σ → Prop) {v : List UInt8}
    (hstep : ∀ v s, P v s → ∀ b ∈ w, ∃ t, M.next s b = ([], t) ∧
      (M.isError t = false ∧ M.isFinished t = false) ∧ G t ⊆ G s ∧ P (v ++ [b]) t)
    (h : P v s) : ∃ t, Passes M act ρ G p s x w t x ∧ P (v ++ w) t := by
  induction w generalizing v p s with
  | nil => exact ⟨s, nil, (List.append_nil v).symm ▸ h⟩
  | cons b w ih =>
    obtain ⟨t, hnext, ht, hG, hP⟩ := hstep v s h b List.mem_cons_self
    obtain ⟨u, hw, hu⟩ := ih (p := p + 1) (fun v s hs c hc => hstep v s hs c (List.mem_cons_of_mem b hc))
      hP
    rw [List.append_assoc] at hu
    exact ⟨u, (quiet hnext ht hG).cons hw, hu⟩

/-- The first byte of a token: it leads from `s` where it leads from `t`, and only from `s` there are
actions. -/
theorem enter {b : UInt8} {acts : List A} (hw : Passes M act ρ G p t y (b :: w) u z)
    (hnext : M.next s b = (acts, (M.next t b).2)) (hquiet : (M.next t b).1 = [])
    (hacts : acts.foldlM (fun x a => act p a x) x = some y) (hbreaks : acts.any M.breaks = false)
    (hassigns : Assigns ρ (G s) acts (G t)) : Passes M act ρ G p s x (b :: w) u z where
  follow := by
    have hfollow := hw.follow
    rw [Scanner.follow] at hfollow ⊢
    rw [hnext]
    dsimp only at hfollow ⊢
    rw [hquiet] at hfollow
    rw [hacts]
    exact hfollow
  run := by
    have hrun := hw.run
    rw [Scanner.run, List.foldl_cons] at hrun ⊢
    rw [hnext]
    exact hrun
  accepts post h := by
    have haccepts := hw.accepts post h
    rw [List.cons_append, Scanner.accepts] at haccepts ⊢
    rw [hnext]
    dsimp only at haccepts ⊢
    rw [hquiet] at haccepts
    rw [hbreaks]
    exact haccepts
  clean post h := by
    have hclean := hw.clean post h
    rw [List.cons_append, Scanner.clean] at hclean ⊢
    dsimp only at hclean
    rw [hquiet, Bool.and_eq_true] at hclean
    rw [hnext, Bool.and_eq_true]
    exact ⟨hassigns.1, clean_mono (fun r hr => hassigns.2 r hr) hclean.2⟩

/-- A text on the way to the byte on which the scan breaks off. -/
theorem accepted {b : UInt8} {acts : List A} (hw : Passes M act ρ G p s x w t y)
    (hnext : M.next t b = (acts, u)) (hbreaks : acts.any M.breaks = true)
    (hu : M.isError u = false ∧ M.isFinished u = true) (hassigns : cleanActs ρ (G t) acts = true) :
    M.accepts s (w ++ [b]) = true ∧ M.clean ρ (G s) s (w ++ [b]) = true := by
  constructor
  · apply hw.accepts
    rw [Scanner.accepts, hnext]
    simp [hu, hbreaks]
  · apply hw.clean
    rw [Scanner.clean, hnext, Bool.and_eq_true]
    exact ⟨hassigns, rfl⟩

/-- The data at the end of such an input. -/
theorem followed {b : UInt8} {acts : List A} (hw : Passes M act ρ G p s x w t y)
    (hnext : M.next t b = (acts, u))
    (hacts : acts.foldlM (fun x a => act (p + w.length) a x) y = some z) :
    M.follow act p s x (w ++ [b]) = some z := by
  rw [follow_append, hw.follow, hw.run, Option.bind_some, Scanner.follow, hnext]
  dsimp only
  rw [hacts]
  rfl

end Passes

/-! ## Escapes -/

/-- A text of bytes that stand for themselves and of escapes, which are an `esc` and two more bytes. -/
def escaped (esc : UInt8) (plain digit : UInt8 → Bool) : List UInt8 → Bool
  | [] => true
  | [b] => plain b
  | [b, c] => plain b && plain c
  | b :: c :: d :: w =>
    if b = esc then digit c && digit d && escaped esc plain digit w
    else plain b && escaped esc plain digit (c :: d :: w)

section Texts

variable {esc : UInt8} {plain digit : UInt8 → Bool}

theorem escaped_cons {b : UInt8} (hb : b ≠ esc) :
    escaped esc plain digit (b :: w) = (plain b && escaped esc plain digit w) := by
  match w with
  | [] => rw [escaped, escaped, Bool.and_true]
  | [c] => rw [escaped, escaped]
  | c :: d :: w => rw [escaped, if_neg hb]

theorem escaped_append (hesc : plain esc = false) (hv : escaped esc plain digit v = true) :
    escaped esc plain digit (v ++ w) = escaped esc plain digit w := by
  have hne : ∀ b, plain b = true → b ≠ esc := by
    intro b hb heq
    rw [heq, hesc] at hb
    cases hb
  induction v using escaped.induct esc with
  | case1 => rfl
  | case2 b =>
    rw [escaped] at hv
    rw [List.singleton_append, escaped_cons (hne b hv), hv, Bool.true_and]
  | case3 b c =>
    rw [escaped, Bool.and_eq_true] at hv
    rw [List.cons_append, List.singleton_append, escaped_cons (hne b hv.1), escaped_cons (hne c hv.2),
      hv.1, hv.2, Bool.true_and, Bool.true_and]
  | case4 c d v ih =>
    rw [escaped, if_pos rfl, Bool.and_eq_true] at hv
    rw [List.cons_append, List.cons_append, List.cons_append, escaped, if_pos rfl, hv.1, Bool.true_and,
      ih hv.2]
  | case5 b c d v hb ih =>
    rw [escaped, if_neg hb, Bool.and_eq_true] at hv
    rw [List.cons_append, escaped_cons hb, hv.1, Bool.true_and, ih hv.2]

theorem escaped_of_all (hesc : plain esc = false) (hw : ∀ b ∈ w, plain b = true) :
    escaped esc plain digit w = true := by
  induction w with
  | nil => rfl
  | cons b w ih =>
    have hb := hw b List.mem_cons_self
    have hne : b ≠ esc := by
      intro heq
      rw [heq, hesc] at hb
      cases hb
    rw [escaped_cons hne, hb, Bool.true_and]
    exact ih fun c hc => hw c (List.mem_cons_of_mem b hc)

/-- Texts that are put together from texts. -/
theorem escaped_flatten (hesc : plain esc = false) {pieces : List (List UInt8)}
    (hpieces : ∀ v ∈ pieces, escaped esc plain digit v = true) :
    escaped esc plain digit pieces.flatten = true := by
  induction pieces with
  | nil => rfl
  | cons v pieces ih =>
    rw [List.flatten_cons, escaped_append hesc (hpieces v List.mem_cons_self)]
    exact ih fun u hu => hpieces u (List.mem_cons_of_mem v hu)

end Texts

/-- A scanner that stays where it is on plain bytes and comes back to its state behind an escape. -/
theorem Passes.escaped (esc : UInt8) (plain digit : UInt8 → Bool) (s₁ s₂ : σ)
    (hplain : ∀ b, plain b = true → M.next s b = ([], s)) (hs : M.next s esc = ([], s₁))
    (hs₁ : ∀ b, digit b = true → M.next s₁ b = ([], s₂))
    (hs₂ : ∀ b, digit b = true → M.next s₂ b = ([], s))
    (hquiet : ∀ r ∈ [s, s₁, s₂], (M.isError r = false ∧ M.isFinished r = false) ∧ G r = G s)
    (hw : Scanner.escaped esc plain digit w = true) : Passes M act ρ G p s x w s x := by
  obtain ⟨hq, -⟩ := hquiet s (by simp)
  obtain ⟨hq₁, hG₁⟩ := hquiet s₁ (by simp)
  obtain ⟨hq₂, hG₂⟩ := hquiet s₂ (by simp)
  have hself : G s ⊆ G s := List.Subset.refl _
  induction w using Scanner.escaped.induct esc generalizing p with
  | case1 => exact nil
  | case2 b => exact quiet (hplain b hw) hq hself
  | case3 b c =>
    rw [Scanner.escaped, Bool.and_eq_true] at hw
    exact (quiet (hplain b hw.1) hq hself).cons (quiet (hplain c hw.2) hq hself)
  | case4 c d w ih =>
    rw [Scanner.escaped, if_pos rfl, Bool.and_eq_true, Bool.and_eq_true] at hw
    obtain ⟨⟨hc, hd⟩, hrest⟩ := hw
    have hthird := (quiet (hs₂ d hd) hq (hG₂ ▸ hself)).cons (ih (p := p + 3) hrest)
    have hsecond := (quiet (hs₁ c hc) hq₂ (by rw [hG₁, hG₂]; exact hself)).cons hthird
    exact (quiet hs hq₁ (hG₁ ▸ hself)).cons hsecond
  | case5 b c d w hne ih =>
    rw [Scanner.escaped, if_neg hne, Bool.and_eq_true] at hw
    exact (quiet (hplain b hw.1) hq hself).cons (ih hw.2)

end Azure.Reasoning.Scanner
