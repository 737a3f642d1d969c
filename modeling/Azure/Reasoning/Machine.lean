import Azure.Reasoning.Scanner
import Mathlib.Computability.Language

/-!
# Machines with actions

A machine is a regular expression with actions at the borders of its parts, as the input of a scanner
generator has them.  An action that enters a part is performed when its first byte is taken, or when
the part is passed without a byte.  An action that leaves a part is performed by what comes behind
its last byte, be it the next byte or the end.  A machine does not know yet which of its parts a text
belongs to, so it performs the actions of all parts the text so far can belong to.

The state of a machine marks the bytes that were taken last.  What a state can do is a matter of the
languages of the parts: `acts_marked`.
-/

namespace Azure.Reasoning

open Computability

inductive Machine (A : Type*) where
  | empty
  /-- One byte; `last` marks the bytes that were just taken. -/
  | byte (p : UInt8 → Bool) (last : Bool := false)
  | cat (r s : Machine A)
  | alt (r s : Machine A)
  | star (r : Machine A)
  | entering (a : A) (r : Machine A)
  | leaving (a : A) (r : Machine A)

namespace Machine

variable {A : Type*}

/-! ## The ways to write a machine -/

def seq : List (Machine A) → Machine A
  | [] => empty
  | [r] => r
  | r :: s :: rs => cat r (seq (s :: rs))

def oneOf : List (Machine A) → Machine A
  | [] => empty
  | [r] => r
  | r :: s :: rs => alt r (oneOf (s :: rs))

def opt (r : Machine A) : Machine A := alt r empty

def plus (r : Machine A) : Machine A := cat r (star r)

/-- `r{n}` -/
def rep : Nat → Machine A → Machine A
  | 0, _ => empty
  | n + 1, r => cat r (rep n r)

/-- `r{0,n}` -/
def upTo : Nat → Machine A → Machine A
  | 0, _ => empty
  | n + 1, r => opt (cat r (upTo n r))

def char (c : Char) : Machine A := byte fun b => b = c.toNat.toUInt8

def text (s : String) : Machine A := seq (s.toList.map char)

/-! ## Running -/

def nullable : Machine A → Bool
  | empty => true
  | byte _ _ => false
  | cat r s => r.nullable && s.nullable
  | alt r s => r.nullable || s.nullable
  | star _ => true
  | entering _ r => r.nullable
  | leaving _ r => r.nullable

/-- The machine can begin with `c`; `none` is the end of the text. -/
def begins (c : Option UInt8) : Machine A → Bool
  | empty => false
  | byte p _ => c.any p
  | cat r s => r.begins c || r.nullable && s.begins c
  | alt r s => r.begins c || s.begins c
  | star r => r.begins c
  | entering _ r => r.begins c
  | leaving _ r => r.begins c

def ends : Machine A → Bool
  | empty => false
  | byte _ last => last
  | cat r s => r.ends && s.nullable || s.ends
  | alt r s => r.ends || s.ends
  | star r => r.ends
  | entering _ r => r.ends
  | leaving _ r => r.ends

def alive : Machine A → Bool
  | empty => false
  | byte _ last => last
  | cat r s => r.alive || s.alive
  | alt r s => r.alive || s.alive
  | star r => r.alive
  | entering _ r => r.alive
  | leaving _ r => r.alive

/-- The next byte is `c`.  With `m` it can be the first one of the machine. -/
def shift (c : UInt8) : Bool → Machine A → Machine A
  | _, empty => empty
  | m, byte p _ => byte p (m && p c)
  | m, cat r s => cat (shift c m r) (shift c (m && r.nullable || r.ends) s)
  | m, alt r s => alt (shift c m r) (shift c m s)
  | m, star r => star (shift c (m || r.ends) r)
  | m, entering a r => entering a (shift c m r)
  | m, leaving a r => leaving a (shift c m r)

/-- The actions that `c` brings about, in their order.  With `k` what comes behind the machine can
take `c`. -/
def acts (c : Option UInt8) : Bool → Bool → Machine A → List A
  | _, _, empty => []
  | _, _, byte _ _ => []
  | m, k, cat r s =>
    acts c m (s.begins c || s.nullable && k) r ++ acts c (m && r.nullable || r.ends) k s
  | m, k, alt r s => acts c m k r ++ acts c m k s
  | m, k, star r => acts c (m || r.ends) (r.begins c || k) r
  | m, k, entering a r =>
    (if m && (r.begins c || r.nullable && k) then [a] else []) ++ acts c m k r
  | m, k, leaving a r => acts c m k r ++ if (r.ends || m && r.nullable) && k then [a] else []

/-- A machine as a scanner.  The state says whether the text has begun.  An action that several
parts bring about is performed once. -/
def scanner [BEq A] (r : Machine A) : Scanner (Bool × Machine A) A where
  start := (true, r)
  next s c := ((s.2.acts (some c) s.1 false).eraseDups, (false, s.2.shift c s.1))
  isError s := !s.1 && !s.2.alive
  isFinished s := s.2.ends || s.1 && s.2.nullable
  breaks _ := false

def final [BEq A] (s : Bool × Machine A) : List A := (s.2.acts none s.1 true).eraseDups

/-! ## Languages -/

def lang : Machine A → Language UInt8
  | empty => 1
  | byte p _ => {w | ∃ b, p b ∧ w = [b]}
  | cat r s => r.lang * s.lang
  | alt r s => r.lang + s.lang
  | star r => r.lang∗
  | entering _ r => r.lang
  | leaving _ r => r.lang

open Classical in
/-- The state after the text `u`, of which a word of `B` stands in front of the machine. -/
noncomputable def marked (u : List UInt8) : Language UInt8 → Machine A → Machine A
  | _, empty => empty
  | B, byte p _ => byte p (decide (∃ v ∈ B, ∃ b, p b ∧ v ++ [b] = u))
  | B, cat r s => cat (marked u B r) (marked u (B * r.lang) s)
  | B, alt r s => alt (marked u B r) (marked u B s)
  | B, star r => star (marked u (B * r.lang∗) r)
  | B, entering a r => entering a (marked u B r)
  | B, leaving a r => leaving a (marked u B r)

open Classical in
/-- The actions that `c` brings about behind the text `u`, of which a word of `B` stands in front of
the machine. -/
noncomputable def fired (u : List UInt8) (c : Option UInt8) :
    Language UInt8 → Prop → Machine A → List A
  | _, _, empty => []
  | _, _, byte _ _ => []
  | B, k, cat r s =>
    fired u c B (s.begins c ∨ s.nullable ∧ k) r ++ fired u c (B * r.lang) k s
  | B, k, alt r s => fired u c B k r ++ fired u c B k s
  | B, k, star r => fired u c (B * r.lang∗) (r.begins c ∨ k) r
  | B, k, entering a r =>
    (if u ∈ B ∧ (r.begins c ∨ r.nullable ∧ k) then [a] else []) ++ fired u c B k r
  | B, k, leaving a r => fired u c B k r ++ if u ∈ B * r.lang ∧ k then [a] else []

theorem nullable_iff (r : Machine A) : r.nullable = true ↔ [] ∈ r.lang := by
  induction r with
  | empty => simp [nullable, lang]
  | byte p last =>
    simp only [nullable, lang, Bool.false_eq_true, false_iff]
    intro h
    obtain ⟨b, -, hb⟩ := h
    cases hb
  | cat r s hr hs =>
    rw [nullable, Bool.and_eq_true, hr, hs, lang, Language.mem_mul]
    constructor
    · exact fun h => ⟨[], h.1, [], h.2, rfl⟩
    · intro h
      obtain ⟨x, hx, y, hy, hxy⟩ := h
      rw [List.append_eq_nil_iff] at hxy
      rw [hxy.1] at hx
      rw [hxy.2] at hy
      exact ⟨hx, hy⟩
  | alt r s hr hs => rw [nullable, Bool.or_eq_true, hr, hs, lang, Language.mem_add]
  | star r hr => simp [nullable, lang, Language.nil_mem_kstar]
  | entering a r hr => exact hr
  | leaving a r hr => exact hr

/-! ## The marks -/

section Marks

variable (u : List UInt8) (c : UInt8)

@[simp] theorem nullable_marked (B : Language UInt8) (r : Machine A) :
    (marked u B r).nullable = r.nullable := by
  induction r generalizing B with
  | empty => rfl
  | byte p last => rfl
  | cat r s hr hs => rw [marked, nullable, nullable, hr, hs]
  | alt r s hr hs => rw [marked, nullable, nullable, hr, hs]
  | star r hr => rfl
  | entering a r hr => exact hr B
  | leaving a r hr => exact hr B

@[simp] theorem begins_marked (B : Language UInt8) (c : Option UInt8) (r : Machine A) :
    (marked u B r).begins c = r.begins c := by
  induction r generalizing B with
  | empty => rfl
  | byte p last => rfl
  | cat r s hr hs => rw [marked, begins, begins, hr, hs, nullable_marked]
  | alt r s hr hs => rw [marked, begins, begins, hr, hs]
  | star r hr => exact hr _
  | entering a r hr => exact hr B
  | leaving a r hr => exact hr B

/-- Of a word that is not empty, the last part that is not empty. -/
theorem exists_last_of_mem_kstar {l : Language UInt8} {w : List UInt8} (hw : w ∈ l∗) (hne : w ≠ []) :
    ∃ x ∈ l∗, ∃ y ∈ l, y ≠ [] ∧ x ++ y = w := by
  obtain ⟨parts, hflat, hparts⟩ := Language.mem_kstar_iff_exists_nonempty.mp hw
  cases hlast : parts.reverse with
  | nil =>
    rw [List.reverse_eq_nil_iff] at hlast
    rw [hflat, hlast] at hne
    exact absurd rfl hne
  | cons y front =>
    have hsplit : parts = front.reverse ++ [y] := by
      rw [← List.reverse_reverse parts, hlast, List.reverse_cons]
    have hy := hparts y (by rw [hsplit]; simp)
    refine ⟨front.reverse.flatten, ?_, y, hy.1, hy.2, ?_⟩
    · exact Language.join_mem_kstar fun z hz => (hparts z (by rw [hsplit]; simp_all)).1
    · rw [hflat, hsplit]
      simp

theorem append_mem_kstar {l : Language UInt8} {x y : List UInt8} (hx : x ∈ l∗) (hy : y ∈ l) :
    x ++ y ∈ l∗ := by
  have hle : l∗ * l ≤ l∗ := kstar_mul_le_kstar
  exact hle (Language.append_mem_mul hx hy)

theorem ends_marked (B : Language UInt8) (r : Machine A) :
    (marked u B r).ends = true ↔ ∃ x ∈ B, ∃ y ∈ r.lang, y ≠ [] ∧ x ++ y = u := by
  induction r generalizing B with
  | empty => simp [marked, ends, lang]
  | byte p last =>
    simp only [marked, ends, lang, decide_eq_true_eq]
    constructor
    · intro h
      obtain ⟨v, hv, b, hb, hu⟩ := h
      exact ⟨v, hv, [b], ⟨b, hb, rfl⟩, List.cons_ne_nil b [], hu⟩
    · intro h
      obtain ⟨x, hx, y, ⟨b, hb, hy⟩, -, hu⟩ := h
      exact ⟨x, hx, b, hb, hy ▸ hu⟩
  | cat r s hr hs =>
    simp only [marked, ends, Bool.or_eq_true, Bool.and_eq_true, nullable_marked, nullable_iff, hr, hs,
      lang, Language.mem_mul]
    constructor
    · intro h
      -- the word ends in the second machine, or in the first when the second takes the empty word
      rcases h with ⟨⟨x, hx, y, hy, hne, hu⟩, hnil⟩ | ⟨x, ⟨v, hv, y, hy, hvy⟩, z, hz, hne, hu⟩
      · exact ⟨x, hx, y, ⟨y, hy, [], hnil, List.append_nil y⟩, hne, hu⟩
      · refine ⟨v, hv, y ++ z, ⟨y, hy, z, hz, rfl⟩, by simp [hne], ?_⟩
        rw [← List.append_assoc, hvy, hu]
    · intro h
      obtain ⟨x, hx, w, ⟨y, hy, z, hz, hyz⟩, hne, hu⟩ := h
      -- the converse: whether the second part is empty
      by_cases hnil : z = []
      · rw [hnil, List.append_nil] at hyz
        rw [hnil] at hz
        rw [← hyz] at hne hu
        exact Or.inl ⟨⟨x, hx, y, hy, hne, hu⟩, hz⟩
      · refine Or.inr ⟨x ++ y, ⟨x, hx, y, hy, rfl⟩, z, hz, hnil, ?_⟩
        rw [List.append_assoc, hyz, hu]
  | alt r s hr hs =>
    simp only [marked, ends, Bool.or_eq_true, hr, hs, lang, Language.mem_add]
    constructor
    · intro h
      rcases h with ⟨x, hx, y, hy, h⟩ | ⟨x, hx, y, hy, h⟩
      · exact ⟨x, hx, y, Or.inl hy, h⟩
      · exact ⟨x, hx, y, Or.inr hy, h⟩
    · intro h
      obtain ⟨x, hx, y, hy, h⟩ := h
      rcases hy with hy | hy
      · exact Or.inl ⟨x, hx, y, hy, h⟩
      · exact Or.inr ⟨x, hx, y, hy, h⟩
  | star r hr =>
    simp only [marked, ends, hr, lang, Language.mem_mul]
    constructor
    · intro h
      obtain ⟨x, ⟨v, hv, y, hy, hvy⟩, z, hz, hne, hu⟩ := h
      refine ⟨v, hv, y ++ z, append_mem_kstar hy hz, by simp [hne], ?_⟩
      rw [← List.append_assoc, hvy, hu]
    · intro h
      obtain ⟨x, hx, w, hw, hne, hu⟩ := h
      -- the last round that takes a byte
      obtain ⟨y, hy, z, hz, hnez, hyz⟩ := exists_last_of_mem_kstar hw hne
      refine ⟨x ++ y, ⟨x, hx, y, hy, rfl⟩, z, hz, hnez, ?_⟩
      rw [List.append_assoc, hyz, hu]
  | entering a r hr => exact hr B
  | leaving a r hr => exact hr B

/-- The text so far can end the machine. -/
theorem mem_mul_lang_iff (B : Language UInt8) (r : Machine A) :
    u ∈ B * r.lang ↔ (marked u B r).ends = true ∨ u ∈ B ∧ r.nullable = true := by
  rw [ends_marked, nullable_iff, Language.mem_mul]
  constructor
  · intro h
    obtain ⟨x, hx, y, hy, hu⟩ := h
    by_cases hne : y = []
    · rw [hne, List.append_nil] at hu
      rw [hne] at hy
      exact Or.inr ⟨hu ▸ hx, hy⟩
    · exact Or.inl ⟨x, hx, y, hy, hne, hu⟩
  · intro h
    rcases h with ⟨x, hx, y, hy, -, hu⟩ | ⟨hu, hnil⟩
    · exact ⟨x, hx, y, hy, hu⟩
    · exact ⟨u, hu, [], hnil, List.append_nil u⟩

theorem mem_mul_kstar_iff (B : Language UInt8) (r : Machine A) :
    u ∈ B * r.lang∗ ↔ u ∈ B ∨ (marked u (B * r.lang∗) r).ends = true := by
  have h := mem_mul_lang_iff u B (star r)
  rw [lang, marked, ends, nullable] at h
  rw [h]
  tauto

/-- What stands behind `r` is entered when the text so far can end `r`. -/
theorem enter_cat {B : Language UInt8} {m : Bool} (hm : m = true ↔ u ∈ B) (r : Machine A) :
    (m && (marked u B r).nullable || (marked u B r).ends) = true ↔ u ∈ B * r.lang := by
  rw [mem_mul_lang_iff, ← hm, Bool.or_eq_true, Bool.and_eq_true, nullable_marked, or_comm]

theorem enter_star {B : Language UInt8} {m : Bool} (hm : m = true ↔ u ∈ B) (r : Machine A) :
    (m || (marked u (B * r.lang∗) r).ends) = true ↔ u ∈ B * r.lang∗ := by
  rw [mem_mul_kstar_iff, ← hm, Bool.or_eq_true]

theorem shift_marked {B : Language UInt8} {m : Bool} (hm : m = true ↔ u ∈ B) (r : Machine A) :
    (marked u B r).shift c m = marked (u ++ [c]) B r := by
  induction r generalizing B m with
  | empty => rfl
  | byte p last =>
    rw [marked, shift, marked]
    congr 1
    rw [Bool.eq_iff_iff, Bool.and_eq_true, hm]
    simp only [decide_eq_true_eq]
    constructor
    · exact fun h => ⟨u, h.1, c, h.2, rfl⟩
    · intro h
      obtain ⟨v, hv, b, hb, hu⟩ := h
      have heq := List.append_inj' hu rfl
      rw [heq.1] at hv
      rw [List.singleton_inj.mp heq.2] at hb
      exact ⟨hv, hb⟩
  | cat r s hr hs => rw [marked, shift, marked, hr hm, hs (enter_cat u hm r)]
  | alt r s hr hs => rw [marked, shift, marked, hr hm, hs hm]
  | star r hr => rw [marked, shift, marked, hr (enter_star u hm r)]
  | entering a r hr => rw [marked, shift, marked, hr hm]
  | leaving a r hr => rw [marked, shift, marked, hr hm]

open Classical in
theorem acts_marked {B : Language UInt8} {m k : Bool} {K : Prop} (c : Option UInt8)
    (hm : m = true ↔ u ∈ B) (hk : k = true ↔ K) (r : Machine A) :
    (marked u B r).acts c m k = fired u c B K r := by
  induction r generalizing B m k K with
  | empty => rfl
  | byte p last => rfl
  | cat r s hr hs =>
    rw [marked, acts, fired, hs (enter_cat u hm r) hk, hr hm]
    rw [Bool.or_eq_true, Bool.and_eq_true, begins_marked, nullable_marked, hk]
  | alt r s hr hs => rw [marked, acts, fired, hr hm hk, hs hm hk]
  | star r hr =>
    rw [marked, acts, fired, hr (enter_star u hm r)]
    rw [Bool.or_eq_true, begins_marked, hk]
  | entering a r hr =>
    have henter : (m && ((marked u B r).begins c || (marked u B r).nullable && k)) = true ↔
        u ∈ B ∧ (r.begins c = true ∨ r.nullable = true ∧ K) := by
      simp only [begins_marked, nullable_marked, Bool.and_eq_true, Bool.or_eq_true, hm, hk]
    rw [marked, acts, fired, hr hm hk, if_congr henter rfl rfl]
  | leaving a r hr =>
    have hleave : (((marked u B r).ends || m && (marked u B r).nullable) && k) = true ↔
        u ∈ B * r.lang ∧ K := by
      rw [Bool.or_comm, Bool.and_eq_true, enter_cat u hm r, hk]
    rw [marked, acts, fired, hr hm hk, if_congr hleave rfl rfl]

theorem marked_nil (B : Language UInt8) {r : Machine A} (h : r.alive = false) :
    marked [] B r = r := by
  induction r generalizing B with
  | empty => rfl
  | byte p last =>
    rw [alive] at h
    rw [marked, h]
    simp
  | cat r s hr hs =>
    rw [alive, Bool.or_eq_false_iff] at h
    rw [marked, hr B h.1, hs _ h.2]
  | alt r s hr hs =>
    rw [alive, Bool.or_eq_false_iff] at h
    rw [marked, hr B h.1, hs B h.2]
  | star r hr => rw [marked, hr _ h]
  | entering a r hr => rw [marked, hr B h]
  | leaving a r hr => rw [marked, hr B h]

/-- On the way through a word of the machine there is always a mark. -/
theorem alive_marked {B : Language UInt8} {r : Machine A} {x y w : List UInt8} (hx : x ∈ B)
    (hy : y ≠ []) (hw : y ++ w ∈ r.lang) : (marked (x ++ y) B r).alive = true := by
  induction r generalizing B x y w with
  | empty =>
    rw [lang, Language.mem_one, List.append_eq_nil_iff] at hw
    exact absurd hw.1 hy
  | byte p last =>
    obtain ⟨b, hb, hyw⟩ := hw
    have hy' : y = [b] := by
      cases y with
      | nil => exact absurd rfl hy
      | cons c y => simp_all
    rw [hy', marked, alive]
    simp only [decide_eq_true_eq]
    exact ⟨x, hx, b, hb, rfl⟩
  | cat r s hr hs =>
    obtain ⟨v, hv, z, hz, hvz⟩ := Language.mem_mul.mp hw
    rw [marked, alive, Bool.or_eq_true]
    -- the mark is in the part that the last byte belongs to
    rcases List.append_eq_append_iff.mp hvz with ⟨w', hy', hz'⟩ | ⟨w', hv', -⟩
    · by_cases hw' : w' = []
      · rw [hw', List.append_nil] at hy'
        exact Or.inl (hr hx hy (w := []) (by rwa [List.append_nil, hy']))
      · right
        rw [hy', ← List.append_assoc]
        exact hs (Language.append_mem_mul hx hv) hw' (hz' ▸ hz)
    · exact Or.inl (hr hx hy (hv' ▸ hv))
  | alt r s hr hs =>
    rw [marked, alive, Bool.or_eq_true]
    rcases hw with hw | hw
    · exact Or.inl (hr hx hy hw)
    · exact Or.inr (hs hx hy hw)
  | star r hr =>
    rw [marked, alive]
    obtain ⟨parts, hflat, hparts⟩ := Language.mem_kstar.mp hw
    have hx' : x ∈ B * r.lang∗ := by
      have h := Language.append_mem_mul hx (Language.nil_mem_kstar r.lang)
      rwa [List.append_nil] at h
    clear hx hw
    induction parts generalizing x y with
    | nil =>
      rw [List.flatten_nil, List.append_eq_nil_iff] at hflat
      exact absurd hflat.1 hy
    | cons v parts ih =>
      have hv := hparts v List.mem_cons_self
      rw [List.flatten_cons] at hflat
      rcases List.append_eq_append_iff.mp hflat with ⟨w', hv', -⟩ | ⟨w', hy', hw'⟩
      · exact hr hx' hy (hv' ▸ hv)
      · by_cases hnil : w' = []
        · rw [hnil, List.append_nil] at hy'
          exact hr hx' hy (w := []) (by rwa [List.append_nil, hy'])
        · rw [hy', ← List.append_assoc]
          apply ih hnil hw'.symm fun z hz => hparts z (List.mem_cons_of_mem v hz)
          obtain ⟨b, hb, z, hz, hbz⟩ := Language.mem_mul.mp hx'
          rw [← hbz, List.append_assoc]
          exact Language.append_mem_mul hb (append_mem_kstar hz hv)
  | entering a r hr => exact hr hx hy hw
  | leaving a r hr => exact hr hx hy hw

end Marks

/-! ## What words are made of -/

def uses (b : UInt8) : Machine A → Bool
  | empty => false
  | byte p _ => p b
  | cat r s => r.uses b || s.uses b
  | alt r s => r.uses b || s.uses b
  | star r => r.uses b
  | entering _ r => r.uses b
  | leaving _ r => r.uses b

theorem uses_of_mem {r : Machine A} {w : List UInt8} {b : UInt8} (hw : w ∈ r.lang) (hb : b ∈ w) :
    r.uses b = true := by
  induction r generalizing w with
  | empty =>
    rw [lang, Language.mem_one] at hw
    rw [hw] at hb
    cases hb
  | byte p last =>
    obtain ⟨c, hc, hwc⟩ := hw
    rw [hwc, List.mem_singleton] at hb
    rw [uses, hb]
    exact hc
  | cat r s hr hs =>
    obtain ⟨x, hx, y, hy, hxy⟩ := Language.mem_mul.mp hw
    rw [← hxy, List.mem_append] at hb
    rw [uses, Bool.or_eq_true]
    exact hb.imp (hr hx) (hs hy)
  | alt r s hr hs =>
    rw [uses, Bool.or_eq_true]
    rcases hw with hw | hw
    · exact Or.inl (hr hw hb)
    · exact Or.inr (hs hw hb)
  | star r hr =>
    obtain ⟨parts, hflat, hparts⟩ := Language.mem_kstar.mp hw
    rw [hflat, List.mem_flatten] at hb
    obtain ⟨part, hpart, hb⟩ := hb
    exact hr (hparts part hpart) hb
  | entering a r hr => exact hr hw hb
  | leaving a r hr => exact hr hw hb

theorem not_mem_of_uses {r : Machine A} {w : List UInt8} {b : UInt8} (huses : r.uses b = false)
    (hw : w ∈ r.lang) : b ∉ w := by
  intro hb
  rw [uses_of_mem hw hb] at huses
  cases huses

theorem mem_upTo_iff {r : Machine A} {n : Nat} {w : List UInt8} :
    w ∈ (upTo n r).lang ↔ ∃ m ≤ n, w ∈ (rep m r).lang := by
  induction n generalizing w with
  | zero =>
    constructor
    · exact fun h => ⟨0, Nat.le_refl 0, h⟩
    · intro h
      obtain ⟨m, hm, hw⟩ := h
      rw [Nat.le_zero.mp hm] at hw
      exact hw
  | succ n ih =>
    constructor
    · intro h
      rcases h with h | h
      · obtain ⟨x, hx, y, hy, hxy⟩ := Language.mem_mul.mp h
        obtain ⟨m, hm, hy⟩ := ih.mp hy
        exact ⟨m + 1, Nat.succ_le_succ hm, hxy ▸ Language.append_mem_mul hx hy⟩
      · exact ⟨0, Nat.zero_le _, h⟩
    · intro h
      obtain ⟨m, hm, hw⟩ := h
      cases m with
      | zero => exact Or.inr hw
      | succ m =>
        obtain ⟨x, hx, y, hy, hxy⟩ := Language.mem_mul.mp hw
        have hrest := ih.mpr ⟨m, Nat.le_of_succ_le_succ hm, hy⟩
        exact Or.inl (hxy ▸ Language.append_mem_mul hx hrest)

theorem mem_star_of_bytes {r : Machine A} {w : List UInt8} (h : ∀ b ∈ w, [b] ∈ r.lang) :
    w ∈ (star r).lang := by
  refine Language.mem_kstar.mpr ⟨w.map fun b => [b], ?_, ?_⟩
  · clear h
    induction w with
    | nil => rfl
    | cons b w ih =>
      rw [List.map_cons, List.flatten_cons, ← ih]
      rfl
  · intro v hv
    obtain ⟨b, hb, hbv⟩ := List.mem_map.mp hv
    exact hbv ▸ h b hb

theorem begins_of_mem {r : Machine A} {w : List UInt8} {b : UInt8} (hw : b :: w ∈ r.lang) :
    r.begins (some b) = true := by
  induction r generalizing w with
  | empty =>
    rw [lang, Language.mem_one] at hw
    cases hw
  | byte p last =>
    obtain ⟨c, hc, hwc⟩ := hw
    rw [List.cons_eq_cons] at hwc
    rw [begins, hwc.1]
    exact hc
  | cat r s hr hs =>
    obtain ⟨x, hx, y, hy, hxy⟩ := Language.mem_mul.mp hw
    rw [begins, Bool.or_eq_true, Bool.and_eq_true]
    cases x with
    | nil =>
      rw [List.nil_append] at hxy
      exact Or.inr ⟨(nullable_iff r).mpr hx, hs (hxy ▸ hy)⟩
    | cons c x =>
      rw [List.cons_append, List.cons_eq_cons] at hxy
      exact Or.inl (hr (hxy.1 ▸ hx))
  | alt r s hr hs =>
    rw [begins, Bool.or_eq_true]
    rcases hw with hw | hw
    · exact Or.inl (hr hw)
    · exact Or.inr (hs hw)
  | star r hr =>
    obtain ⟨parts, hflat, hparts⟩ := Language.mem_kstar_iff_exists_nonempty.mp hw
    cases parts with
    | nil => cases hflat
    | cons part parts =>
      have hpart := hparts part List.mem_cons_self
      cases part with
      | nil => exact absurd rfl hpart.2
      | cons c part =>
        rw [List.flatten_cons, List.cons_append, List.cons_eq_cons] at hflat
        exact hr (hflat.1 ▸ hpart.1)
  | entering a r hr => exact hr hw
  | leaving a r hr => exact hr hw

/-! ## What cannot be performed -/

def silent : Machine A → Bool
  | empty => true
  | byte _ _ => true
  | cat r s => r.silent && s.silent
  | alt r s => r.silent && s.silent
  | star r => r.silent
  | entering _ _ => false
  | leaving _ _ => false

section Fired

variable {u : List UInt8} {c : Option UInt8} {B : Language UInt8} {k : Prop} {r : Machine A}

theorem fired_of_silent (h : r.silent = true) : fired u c B k r = [] := by
  induction r generalizing B k with
  | empty => rfl
  | byte p last => rfl
  | cat r s hr hs =>
    rw [silent, Bool.and_eq_true] at h
    rw [fired, hr h.1, hs h.2, List.nil_append]
  | alt r s hr hs =>
    rw [silent, Bool.and_eq_true] at h
    rw [fired, hr h.1, hs h.2, List.nil_append]
  | star r hr => exact hr h
  | entering a r hr => cases h
  | leaving a r hr => cases h

theorem not_mem_of_mem_mul {L : Language UInt8} {b : UInt8} (hB : ∀ v ∈ B, b ∉ v)
    (hL : ∀ v ∈ L, b ∉ v) : ∀ v ∈ B * L, b ∉ v := by
  intro v hv hb
  obtain ⟨x, hx, y, hy, hxy⟩ := Language.mem_mul.mp hv
  rw [← hxy, List.mem_append] at hb
  exact hb.elim (hB x hx) (hL y hy)

/-- A machine performs nothing behind a byte that neither it nor what stands in front of it takes. -/
theorem fired_of_foreign {b : UInt8} (hu : b ∈ u) (hB : ∀ v ∈ B, b ∉ v) (h : r.uses b = false) :
    fired u c B k r = [] := by
  induction r generalizing B k with
  | empty => rfl
  | byte p last => rfl
  | cat r s hr hs =>
    rw [uses, Bool.or_eq_false_iff] at h
    have hmul := not_mem_of_mem_mul hB fun v hv => not_mem_of_uses h.1 hv
    rw [fired, hr hB h.1, hs hmul h.2, List.nil_append]
  | alt r s hr hs =>
    rw [uses, Bool.or_eq_false_iff] at h
    rw [fired, hr hB h.1, hs hB h.2, List.nil_append]
  | star r hr =>
    exact hr (not_mem_of_mem_mul hB fun v hv => not_mem_of_uses (r := star r) h hv) h
  | entering a r hr =>
    have henter : ¬ (u ∈ B ∧ (r.begins c = true ∨ r.nullable = true ∧ k)) :=
      fun henter => hB u henter.1 hu
    rw [fired, hr hB h, if_neg henter, List.nil_append]
  | leaving a r hr =>
    have hleave : ¬ (u ∈ B * r.lang ∧ k) :=
      fun hleave => not_mem_of_mem_mul hB (fun v hv => not_mem_of_uses h hv) u hleave.1 hu
    rw [fired, hr hB h, if_neg hleave, List.nil_append]

def Behind (w x : List UInt8) (B B' : Language UInt8) : Prop :=
  ∀ v, v <+: w ++ x → (v ∈ B ↔ ∃ y ∈ B', w ++ y = v)

theorem Behind.mul {w x : List UInt8} {B B' : Language UInt8} (h : Behind w x B B')
    (L : Language UInt8) : Behind w x (B * L) (B' * L) := by
  intro v hv
  rw [Language.mem_mul]
  constructor
  · intro hmem
    obtain ⟨y, hy, z, hz, hyz⟩ := hmem
    have hpre : y <+: w ++ x := List.IsPrefix.trans ⟨z, hyz⟩ hv
    obtain ⟨y', hy', hwy⟩ := (h y hpre).mp hy
    refine ⟨y' ++ z, Language.append_mem_mul hy' hz, ?_⟩
    rw [← List.append_assoc, hwy, hyz]
  · intro hmem
    obtain ⟨yz, hmul, hwv⟩ := hmem
    obtain ⟨y, hy, z, hz, hyz⟩ := Language.mem_mul.mp hmul
    rw [← hyz, ← List.append_assoc] at hwv
    have hpre : w ++ y <+: w ++ x := List.IsPrefix.trans ⟨z, hwv⟩ hv
    exact ⟨w ++ y, (h _ hpre).mpr ⟨y, hy, rfl⟩, z, hz, hwv⟩

theorem Behind.mem_iff {w x : List UInt8} {B B' : Language UInt8} (h : Behind w x B B') :
    w ++ x ∈ B ↔ x ∈ B' := by
  rw [h (w ++ x) (List.prefix_refl _)]
  constructor
  · intro hmem
    obtain ⟨y, hy, heq⟩ := hmem
    rwa [← List.append_cancel_left heq]
  · exact fun hx => ⟨x, hx, rfl⟩

/-- Behind `w` a machine performs what it would perform from there on. -/
theorem fired_behind {w x : List UInt8} {B B' : Language UInt8} (h : Behind w x B B') :
    fired (w ++ x) c B k r = fired x c B' k r := by
  induction r generalizing B B' k with
  | empty => rfl
  | byte p last => rfl
  | cat r s hr hs => rw [fired, fired, hr h, hs (h.mul _)]
  | alt r s hr hs => rw [fired, fired, hr h, hs h]
  | star r hr => rw [fired, fired, hr (h.mul _)]
  | entering a r hr => rw [fired, fired, hr h, h.mem_iff]
  | leaving a r hr => rw [fired, fired, hr h, (h.mul _).mem_iff]

/-- With words that do not contain `b`, `B` allows for the text `w ++ x` what `B'` allows for `x`. -/
def Aligned (b : UInt8) (w x : List UInt8) (B B' : Language UInt8) : Prop :=
  ∀ L : Language UInt8, (∀ v ∈ L, b ∉ v) → (w ++ x ∈ B * L ↔ x ∈ B' * L)

theorem Aligned.mul {b : UInt8} {w x : List UInt8} {B B' L : Language UInt8}
    (h : Aligned b w x B B') (hL : ∀ v ∈ L, b ∉ v) : Aligned b w x (B * L) (B' * L) := by
  intro M hM
  rw [mul_assoc, mul_assoc]
  exact h _ (not_mem_of_mem_mul hL hM)

theorem Aligned.mem_iff {b : UInt8} {w x : List UInt8} {B B' : Language UInt8}
    (h : Aligned b w x B B') : w ++ x ∈ B ↔ x ∈ B' := by
  have hone : ∀ v ∈ (1 : Language UInt8), b ∉ v := by
    intro v hv
    rw [(Language.mem_one v).mp hv]
    exact List.not_mem_nil
  have h1 := h 1 hone
  rwa [mul_one, mul_one] at h1

/-- As `fired_behind`, for machines that do not take `b`. -/
theorem fired_aligned {b : UInt8} {w x : List UInt8} {B B' : Language UInt8}
    (h : Aligned b w x B B') (hr : r.uses b = false) :
    fired (w ++ x) c B k r = fired x c B' k r := by
  induction r generalizing B B' k with
  | empty => rfl
  | byte p last => rfl
  | cat r s ihr ihs =>
    rw [uses, Bool.or_eq_false_iff] at hr
    rw [fired, fired, ihr h hr.1, ihs (h.mul fun v hv => not_mem_of_uses hr.1 hv) hr.2]
  | alt r s ihr ihs =>
    rw [uses, Bool.or_eq_false_iff] at hr
    rw [fired, fired, ihr h hr.1, ihs h hr.2]
  | star r ih =>
    have hlang : ∀ v ∈ r.lang∗, b ∉ v := fun v hv => not_mem_of_uses (r := star r) hr hv
    rw [fired, fired, ih (h.mul hlang) hr]
  | entering a r ih => rw [fired, fired, ih h hr, h.mem_iff]
  | leaving a r ih =>
    have hlang : ∀ v ∈ r.lang, b ∉ v := fun v hv => not_mem_of_uses hr hv
    rw [fired, fired, ih h hr, (h.mul hlang).mem_iff]

theorem fired_zero : fired u c 0 k r = [] := by
  induction r generalizing k with
  | empty => rfl
  | byte p last => rfl
  | cat r s hr hs => rw [fired, zero_mul, hr, hs, List.nil_append]
  | alt r s hr hs => rw [fired, hr, hs, List.nil_append]
  | star r hr => rw [fired, zero_mul, hr]
  | entering a r hr =>
    rw [fired, hr, if_neg fun h => Language.notMem_zero u h.1, List.nil_append]
  | leaving a r hr =>
    rw [fired, hr, zero_mul, if_neg fun h => Language.notMem_zero u h.1, List.nil_append]

/-- A machine performs nothing when nothing of the text can stand in front of it. -/
theorem fired_of_no_prefix (h : ∀ v ∈ B, ¬ v <+: u) : fired u c B k r = [] := by
  have hbehind : Behind [] u B 0 := by
    intro v hv
    constructor
    · exact fun hmem => absurd hv (h v hmem)
    · exact fun hmem => absurd hmem.choose_spec.1 (Language.notMem_zero _)
  exact (fired_behind hbehind).trans fired_zero

open Classical in
/-- A part whose first byte and whose end have an action. -/
theorem fired_part (h : r.silent = true) (a b : A) :
    fired u c B k (leaving a (entering b r)) =
      (if u ∈ B ∧ (r.begins c = true ∨ r.nullable = true ∧ k) then [b] else []) ++
        if u ∈ B * r.lang ∧ k then [a] else [] := by
  rw [fired, fired, fired_of_silent h, List.append_nil, lang]

theorem fired_part_none (h : r.silent = true) {a b : A}
    (henter : ¬ (u ∈ B ∧ (r.begins c = true ∨ r.nullable = true ∧ k)))
    (hleave : ¬ (u ∈ B * r.lang ∧ k)) : fired u c B k (leaving a (entering b r)) = [] := by
  rw [fired_part h, if_neg henter, if_neg hleave, List.append_nil]

theorem fired_part_mark (h : r.silent = true) {a b : A} (hu : u ∈ B)
    (henter : r.begins c = true ∨ r.nullable = true ∧ k) (hleave : ¬ (u ∈ B * r.lang ∧ k)) :
    fired u c B k (leaving a (entering b r)) = [b] := by
  rw [fired_part h, if_pos ⟨hu, henter⟩, if_neg hleave, List.append_nil]

theorem fired_part_save (h : r.silent = true) {a b : A}
    (henter : ¬ (u ∈ B ∧ (r.begins c = true ∨ r.nullable = true ∧ k))) (hu : u ∈ B * r.lang)
    (hk : k) : fired u c B k (leaving a (entering b r)) = [a] := by
  rw [fired_part h, if_neg henter, if_pos ⟨hu, hk⟩, List.nil_append]

theorem fired_part_both (h : r.silent = true) {a b : A} (hu : u ∈ B)
    (henter : r.begins c = true ∨ r.nullable = true ∧ k) (hleave : u ∈ B * r.lang) (hk : k) :
    fired u c B k (leaving a (entering b r)) = [b, a] := by
  rw [fired_part h, if_pos ⟨hu, henter⟩, if_pos ⟨hleave, hk⟩, List.singleton_append]

theorem fired_opt : fired u c B k r.opt = fired u c B k r := by
  rw [opt, fired, fired, List.append_nil]

/-- What a delimiter ends can end nowhere else. -/
theorem behind_delimiter {L : Language UInt8} {b : UInt8} (hL : ∀ v ∈ L, b ∉ v) {p : List UInt8}
    (hp : p ∈ L) (x : List UInt8) : Behind (p ++ [b]) x (L * {[b]}) 1 := by
  intro v hv
  constructor
  · intro hmem
    obtain ⟨l, hl, d, hd, hld⟩ := Language.mem_mul.mp hmem
    have hd' : d = [b] := hd
    have heq : l = p := by
      obtain ⟨rest, hrest⟩ := hv
      rw [← hld, hd', List.append_assoc, List.append_assoc, List.singleton_append,
        List.singleton_append] at hrest
      rcases List.append_eq_append_iff.mp hrest with ⟨z, hz, hz'⟩ | ⟨z, hz, hz'⟩
      · cases z with
        | nil => rw [hz, List.append_nil]
        | cons e z =>
          rw [List.cons_append, List.cons_eq_cons] at hz'
          exact absurd (hz ▸ hz'.1 ▸ by simp) (hL p hp)
      · cases z with
        | nil => rw [hz, List.append_nil]
        | cons e z =>
          rw [List.cons_append, List.cons_eq_cons] at hz'
          exact absurd (hz ▸ hz'.1 ▸ by simp) (hL l hl)
    refine ⟨[], Language.nil_mem_one, ?_⟩
    rw [← hld, hd', heq, List.append_nil]
  · intro hmem
    obtain ⟨y, hy, hv'⟩ := hmem
    rw [(Language.mem_one y).mp hy, List.append_nil] at hv'
    exact hv' ▸ Language.append_mem_mul hp rfl

end Fired

/-! ## The scanner of a machine -/

section Scanning

variable [BEq A] (r : Machine A)

noncomputable def after (u : List UInt8) : Bool × Machine A := (u.isEmpty, marked u 1 r)

noncomputable def performed (u : List UInt8) (c : Option UInt8) : List A :=
  (fired u c 1 (c = none) r).eraseDups

variable {r}

theorem isEmpty_iff (u : List UInt8) : u.isEmpty = true ↔ u ∈ (1 : Language UInt8) := by
  rw [List.isEmpty_iff, Language.mem_one]

theorem after_nil (h : r.alive = false) : r.after [] = r.scanner.start := by
  rw [after, marked_nil 1 h]
  rfl

theorem next_after (u : List UInt8) (c : UInt8) :
    r.scanner.next (r.after u) c = (r.performed u (some c), r.after (u ++ [c])) := by
  have hacts := acts_marked u (some c) (isEmpty_iff u) (k := false) (K := some c = none) (by simp) r
  have hshift := shift_marked u c (isEmpty_iff u) r
  have hne : (u ++ [c]).isEmpty = false := by simp
  simp only [scanner, after, performed, hacts, hshift, hne]

theorem final_after (u : List UInt8) : final (r.after u) = r.performed u none := by
  have hacts := acts_marked u none (isEmpty_iff u) (k := true) (K := (none : Option UInt8) = none)
    (by simp) r
  simp only [final, after, performed, hacts]

theorem run_after (u w : List UInt8) : r.scanner.run (r.after u) w = r.after (u ++ w) := by
  induction w generalizing u with
  | nil => rw [List.append_nil]; rfl
  | cons c w ih =>
    have hstep : r.scanner.run (r.after u) (c :: w) = r.scanner.run (r.after (u ++ [c])) w := by
      rw [Scanner.run, List.foldl_cons, next_after]
      rfl
    rw [hstep, ih, List.append_assoc, List.singleton_append]

/-- A machine finishes on the words of its language. -/
theorem isFinished_after (u : List UInt8) :
    r.scanner.isFinished (r.after u) = true ↔ u ∈ r.lang := by
  have h := mem_mul_lang_iff u 1 r
  rw [one_mul] at h
  rw [h, ← isEmpty_iff]
  simp [scanner, after]

def accepts (r : Machine A) (w : List UInt8) : Bool :=
  r.scanner.isFinished (r.scanner.run r.scanner.start w)

theorem accepts_iff (hr : r.alive = false) (w : List UInt8) : r.accepts w = true ↔ w ∈ r.lang := by
  rw [accepts, ← after_nil hr, run_after, List.nil_append]
  exact isFinished_after w

theorem not_isError_after {u w : List UInt8} (h : u ++ w ∈ r.lang) :
    r.scanner.isError (r.after u) = false := by
  cases u with
  | nil => rfl
  | cons c u =>
    have halive := alive_marked (Language.nil_mem_one) (List.cons_ne_nil c u) h
    rw [List.nil_append] at halive
    simp [scanner, after, halive]

/-! ## Runs on words of the language -/

/-- What comes behind the text `u` when `w` is still to come, with what is performed at the end. -/
noncomputable def complete {X : Type*} (r : Machine A) (act : Nat → A → X → Option X)
    (u w : List UInt8) (x : X) : Option X :=
  (r.scanner.follow act u.length (r.after u) x w).bind fun x =>
    (r.performed (u ++ w) none).foldlM (fun x a => act (u ++ w).length a x) x

variable {X : Type*} (act : Nat → A → X → Option X)

theorem complete_nil (u : List UInt8) (x : X) :
    r.complete act u [] x = (r.performed u none).foldlM (fun x a => act u.length a x) x := by
  simp [complete, Scanner.follow]

theorem complete_cons (u : List UInt8) (c : UInt8) (w : List UInt8) (x : X) :
    r.complete act u (c :: w) x =
      ((r.performed u (some c)).foldlM (fun x a => act u.length a x) x).bind fun x =>
        r.complete act (u ++ [c]) w x := by
  simp only [complete, Scanner.follow, next_after, Option.bind_assoc, List.length_append,
    List.length_singleton, List.append_assoc, List.singleton_append]

theorem scan_of_mem (hr : r.alive = false) {t : List UInt8} (ht : t ∈ r.lang) (x : X) :
    r.scanner.scan act 0 r.scanner.start x t =
      (r.scanner.follow act 0 (r.after []) x t).map fun x => (t.length, r.after t, x) := by
  rw [← after_nil hr, Scanner.scan_of_not_isError (fun _ => rfl), run_after, Nat.zero_add,
    List.nil_append]
  intro u c v ht'
  rw [run_after, List.nil_append]
  apply not_isError_after (w := v)
  rwa [List.append_assoc, List.singleton_append, ← ht']

theorem mem_of_scan (hr : r.alive = false) {t : List UInt8} {x x' : X} {p : Nat}
    {s : Bool × Machine A} (h : r.scanner.scan act 0 r.scanner.start x t = some (p, s, x'))
    (herror : r.scanner.isError s = false) (hfinished : r.scanner.isFinished s = true) :
    t ∈ r.lang := by
  rw [← after_nil hr] at h
  rw [Scanner.run_of_scan (fun _ => rfl) h herror, run_after, List.nil_append] at hfinished
  exact (isFinished_after t).mp hfinished

/-- Where nothing is performed, nothing changes. -/
theorem complete_append {u v : List UInt8}
    (h : ∀ y c z, v = y ++ c :: z → r.performed (u ++ y) (some c) = []) (w : List UInt8) (x : X) :
    r.complete act u (v ++ w) x = r.complete act (u ++ v) w x := by
  induction v generalizing u with
  | nil => rw [List.append_nil, List.nil_append]
  | cons c v ih =>
    have hfirst := h [] c v rfl
    rw [List.append_nil] at hfirst
    rw [List.cons_append, complete_cons, hfirst, List.foldlM_nil]
    have hrest := ih (u := u ++ [c]) fun y d z hv => by
      have hnext := h (c :: y) d z (by rw [hv, List.cons_append])
      rwa [List.append_assoc, List.singleton_append]
    rw [List.append_assoc, List.singleton_append] at hrest
    exact hrest

noncomputable def proceed {X : Type*} (r : Machine A) (act : Nat → A → X → Option X)
    (u : List UInt8) : List UInt8 → X → Option X
  | [], x => some x
  | c :: w, x => r.complete act (u ++ [c]) w x

theorem complete_eq (u w : List UInt8) (x : X) :
    r.complete act u w x =
      ((r.performed u w.head?).foldlM (fun x a => act u.length a x) x).bind
        (r.proceed act u w) := by
  cases w with
  | nil =>
    rw [complete_nil, List.head?_nil]
    cases (r.performed u none).foldlM (fun x a => act u.length a x) x <;> rfl
  | cons c w => exact complete_cons act u c w x

/-- A text is marked at its first byte.  Behind its last one, which may be at the same place, it is
saved, and what else is to be done there follows. -/
theorem complete_marked {a b : A} {u w rest : List UInt8} {extra : List A}
    (hfirst : ∀ d z, w = d :: z → r.performed u (some d) = [b])
    (hinner : ∀ y d z, y ≠ [] → w = y ++ d :: z → r.performed (u ++ y) (some d) = [])
    (hlast : r.performed (u ++ w) rest.head? =
      ((if w = [] then [b] else []) ++ a :: extra).eraseDups) (x : X) :
    r.complete act u (w ++ rest) x =
      (act u.length b x).bind fun x =>
        ((if w = [] then (a :: extra).filter fun e => !e == b else a :: extra).eraseDups.foldlM
          (fun x a => act (u ++ w).length a x) x).bind (r.proceed act (u ++ w) rest) := by
  cases w with
  | nil =>
    rw [if_pos rfl, List.singleton_append, List.eraseDups_cons, List.append_nil] at hlast
    rw [List.nil_append, complete_eq, hlast, if_pos rfl, List.append_nil, List.foldlM_cons]
    exact Option.bind_assoc _ _ _
  | cons c w =>
    have hquiet : ∀ y d z, w = y ++ d :: z → r.performed (u ++ [c] ++ y) (some d) = [] := by
      intro y d z hyz
      have hmid := hinner (c :: y) d z (List.cons_ne_nil c y) (by rw [hyz]; rfl)
      rw [List.append_assoc, List.singleton_append]
      exact hmid
    rw [if_neg (List.cons_ne_nil c w), List.nil_append] at hlast
    have hrest : ∀ x, r.complete act (u ++ [c]) (w ++ rest) x =
        ((a :: extra).eraseDups.foldlM (fun x a => act (u ++ c :: w).length a x) x).bind
          (r.proceed act (u ++ c :: w) rest) := by
      intro x
      rw [complete_append act hquiet, List.append_assoc, List.singleton_append, complete_eq, hlast]
    rw [List.cons_append, complete_cons, hfirst c w rfl, if_neg (List.cons_ne_nil c w)]
    simp only [hrest, List.foldlM_cons, List.foldlM_nil, bind_pure]

/-- A text that nothing else ends with. -/
theorem complete_saved [LawfulBEq A] {a b : A} (hab : a ≠ b) {u w rest : List UInt8}
    (hfirst : ∀ d z, w = d :: z → r.performed u (some d) = [b])
    (hinner : ∀ y d z, y ≠ [] → w = y ++ d :: z → r.performed (u ++ y) (some d) = [])
    (hlast : r.performed (u ++ w) rest.head? = (if w = [] then [b] else []) ++ [a]) (x : X) :
    r.complete act u (w ++ rest) x =
      ((act u.length b x).bind (act (u ++ w).length a)).bind (r.proceed act (u ++ w) rest) := by
  have hdups : ((if w = [] then [b] else []) ++ [a]).eraseDups =
      (if w = [] then [b] else []) ++ [a] := by
    split
    · simp [List.eraseDups_cons, hab]
    · simp [List.eraseDups_cons]
  have hsave : (if w = [] then [a].filter fun e => !e == b else [a]) = [a] := by
    simp [hab]
  have hend : r.performed (u ++ w) rest.head? = ((if w = [] then [b] else []) ++ a :: []).eraseDups := by
    rw [hlast, hdups]
  rw [complete_marked act hfirst hinner hend, hsave,
    List.eraseDups_cons]
  simp [Option.bind_assoc]

/-- A part of the machine whose first byte and whose end have an action. -/
theorem complete_part [LawfulBEq A] {s : Machine A} (hs : s.silent = true) {a b : A} (hab : a ≠ b)
    {k : Option UInt8 → Prop} {u w t : List UInt8} (hw : w ∈ s.lang)
    (hinner : ∀ d, d ∈ w → ¬ k (some d)) (hend : k t.head?)
    (hperformed : ∀ y c, (∃ d z, w = y ++ d :: z ∧ c = some d) ∨ y = w ∧ c = t.head? →
      r.performed (u ++ y) c = (fired y c 1 (k c) (leaving a (entering b s))).eraseDups)
    (x : X) :
    r.complete act u (w ++ t) x =
      ((act u.length b x).bind (act (u ++ w).length a)).bind (r.proceed act (u ++ w) t) := by
  have hmem : w ∈ (1 : Language UInt8) * s.lang := by
    rwa [one_mul]
  have hone : ∀ e : A, [e].eraseDups = [e] := fun e => by simp [List.eraseDups_cons]
  apply complete_saved act hab
  · intro d z hwz
    have h := hperformed [] (some d) (Or.inl ⟨d, z, hwz, rfl⟩)
    have hk := hinner d (by rw [hwz]; exact List.mem_cons_self)
    rw [List.append_nil, fired_part_mark hs Language.nil_mem_one
      (Or.inl (begins_of_mem (hwz ▸ hw))) fun h => hk h.2, hone] at h
    exact h
  · intro y d z hy hwz
    have hk := hinner d (by rw [hwz]; simp)
    rw [hperformed y (some d) (Or.inl ⟨d, z, hwz, rfl⟩),
      fired_part_none hs (fun h => hy ((Language.mem_one y).mp h.1)) fun h => hk h.2]
    rfl
  · rw [hperformed w t.head? (Or.inr ⟨rfl, rfl⟩)]
    by_cases hnil : w = []
    · rw [if_pos hnil, fired_part_both hs (hnil ▸ Language.nil_mem_one)
        (Or.inr ⟨(nullable_iff s).mpr (hnil ▸ hw), hend⟩) hmem hend]
      simp [List.eraseDups_cons, hab]
    · rw [if_neg hnil, fired_part_save hs (fun h => hnil ((Language.mem_one w).mp h.1)) hmem hend,
        hone]
      rfl

end Scanning

end Machine

end Azure.Reasoning
