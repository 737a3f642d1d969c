import Azure.Uri.Parts
import Mathlib.Tactic.IntervalCases

/-!
# IPv6 addresses

An address is a list of fields with colons between them; two colons stand for the groups that are left
out.  Both grammars have nine alternatives, one for each number of groups behind the two colons.  They
differ in how many groups may stand in front.
-/

namespace Azure

open Reasoning Machine

namespace Ipv6

abbrev Rule := Machine UriAction

open Rfc3986 (h16 h16Colon)

def join (fields : List Bytes) : Bytes := [58].intercalate fields

def elided (front back : List Bytes) : Bytes := join front ++ 58 :: 58 :: join back

def Groups (gs : List Bytes) : Prop := ∀ g ∈ gs, g ∈ h16.lang

/-- The last fields of an address, in place of `k` groups: a dotted address stands for two. -/
def Tail (quad : Language UInt8) (k : Nat) (fields : List Bytes) : Prop :=
  fields.length = k ∧ Groups fields ∨
    ∃ gs q, fields = gs ++ [q] ∧ Groups gs ∧ q ∈ quad ∧ gs.length + 2 = k

/-- An address, whole or with two colons.  Of the latter, `front n m` says that `m` groups may stand
in front where `7 - n` stand behind. -/
def Address (quad : Language UInt8) (front : Nat → Nat → Prop) (w : Bytes) : Prop :=
  (∃ fields, Tail quad 8 fields ∧ w = join fields) ∨
    ∃ F B n, n ≤ 7 ∧ Groups F ∧ (F = [] ∨ front n F.length) ∧ Tail quad (7 - n) B ∧ w = elided F B

/-! ## Fields -/

theorem join_concat (gs : List Bytes) (q : Bytes) :
    join (gs ++ [q]) = (gs.flatMap fun g => g ++ [58]) ++ q := by
  induction gs with
  | nil => simp [join]
  | cons g gs ih =>
    rw [join] at ih ⊢
    rw [List.cons_append, List.intercalate_cons_of_ne_nil (by simp), ih, List.flatMap_cons]
    simp only [List.append_assoc]

theorem mem_rep (n : Nat) (x : Bytes) :
    x ∈ (rep n h16Colon).lang ↔
      ∃ gs : List Bytes, gs.length = n ∧ Groups gs ∧ x = gs.flatMap fun g => g ++ [58] := by
  induction n generalizing x with
  | zero =>
    show x ∈ (1 : Language UInt8) ↔ _
    rw [Language.mem_one]
    constructor
    · exact fun h => ⟨[], rfl, fun g hg => absurd hg List.not_mem_nil, h⟩
    · intro h
      obtain ⟨gs, hlen, -, hx⟩ := h
      rw [hx, List.length_eq_zero_iff.mp hlen]
      rfl
  | succ n ih =>
    constructor
    · intro h
      obtain ⟨y, hy, z, hz, hyz⟩ := Language.mem_mul.mp h
      obtain ⟨g, hg, e, he, hge⟩ := Language.mem_mul.mp hy
      obtain ⟨gs, hlen, hgs, hz⟩ := (ih z).mp hz
      refine ⟨g :: gs, by rw [List.length_cons, hlen], ?_, ?_⟩
      · intro d hd
        rcases List.mem_cons.mp hd with hd | hd
        · exact hd ▸ hg
        · exact hgs d hd
      · rw [List.flatMap_cons, ← hz, ← hyz, ← hge, (mem_char ':').mp he]
        rfl
    · intro h
      obtain ⟨gs, hlen, hgs, hx⟩ := h
      cases gs with
      | nil => cases hlen
      | cons g gs =>
        rw [List.flatMap_cons] at hx
        rw [hx]
        refine Language.append_mem_mul (Language.append_mem_mul (hgs g List.mem_cons_self)
          ((mem_char ':').mpr rfl)) ((ih _).mpr ⟨gs, ?_, ?_, rfl⟩)
        · exact Nat.succ.inj hlen
        · exact fun d hd => hgs d (List.mem_cons_of_mem g hd)

/-- The front of an address with some number of groups. -/
theorem mem_groups (n : Nat) (x : Bytes) :
    x ∈ (rep n h16Colon).lang * h16.lang ↔ ∃ F, F.length = n + 1 ∧ Groups F ∧ x = join F := by
  constructor
  · intro h
    obtain ⟨y, hy, g, hg, hyg⟩ := Language.mem_mul.mp h
    obtain ⟨gs, hlen, hgs, hy⟩ := (mem_rep n y).mp hy
    refine ⟨gs ++ [g], by simp [hlen], ?_, ?_⟩
    · intro d hd
      rcases List.mem_append.mp hd with hd | hd
      · exact hgs d hd
      · rw [List.mem_singleton.mp hd]
        exact hg
    · rw [join_concat, ← hy, hyg]
  · intro h
    obtain ⟨F, hlen, hF, hx⟩ := h
    have hne : F ≠ [] := List.ne_nil_of_length_eq_add_one hlen
    have hsplit := List.dropLast_append_getLast hne
    rw [← hsplit, join_concat] at hx
    rw [hx]
    refine Language.append_mem_mul ((mem_rep n _).mpr ⟨F.dropLast, by simp [hlen], ?_, rfl⟩) ?_
    · exact fun d hd => hF d (List.mem_of_mem_dropLast hd)
    · exact hF _ (List.getLast_mem hne)

/-! ## The alternatives -/

section Alternatives

variable (quad : Rule)

def ls32 : Rule := oneOf [seq [h16, char ':', h16], quad]

/-- What an alternative has behind the two colons, in place of `k` groups. -/
def behind : Nat → Language UInt8
  | 0 => 1
  | 1 => h16.lang
  | k + 2 => (rep k h16Colon).lang * (ls32 quad).lang

theorem mem_behind (k : Nat) (x : Bytes) :
    x ∈ behind quad k ↔ ∃ B, Tail quad.lang k B ∧ x = join B := by
  match k with
  | 0 =>
    rw [behind, Language.mem_one]
    constructor
    · exact fun h => ⟨[], Or.inl ⟨rfl, fun g hg => absurd hg List.not_mem_nil⟩, h⟩
    · intro h
      obtain ⟨B, hB, hx⟩ := h
      rcases hB with ⟨hlen, -⟩ | ⟨gs, q, -, -, -, hlen⟩
      · rw [hx, List.length_eq_zero_iff.mp hlen]
        rfl
      · omega
  | 1 =>
    constructor
    · intro h
      refine ⟨[x], Or.inl ⟨rfl, ?_⟩, List.intercalate_singleton.symm⟩
      intro g hg
      rw [List.mem_singleton.mp hg]
      exact h
    · intro h
      obtain ⟨B, hB, hx⟩ := h
      rcases hB with ⟨hlen, hB⟩ | ⟨gs, q, -, -, -, hlen⟩
      · obtain ⟨g, hg⟩ := List.length_eq_one_iff.mp hlen
        rw [hg, join, List.intercalate_singleton] at hx
        rw [hx]
        exact hB g (by rw [hg]; exact List.mem_singleton_self g)
      · omega
  | k + 2 =>
    constructor
    · intro h
      obtain ⟨y, hy, z, hz, hyz⟩ := Language.mem_mul.mp h
      rcases hz with hz | hz
      · -- two groups
        obtain ⟨g, hg, t, ht, hgt⟩ := Language.mem_mul.mp hz
        obtain ⟨e, he, g', hg', heg⟩ := Language.mem_mul.mp ht
        obtain ⟨gs, hlen, hgs, hy⟩ := (mem_rep k y).mp hy
        refine ⟨gs ++ [g] ++ [g'], Or.inl ⟨by simp [hlen], ?_⟩, ?_⟩
        · intro d hd
          rcases List.mem_append.mp hd with hd | hd
          · rcases List.mem_append.mp hd with hd | hd
            · exact hgs d hd
            · rw [List.mem_singleton.mp hd]
              exact hg
          · rw [List.mem_singleton.mp hd]
            exact hg'
        · rw [join_concat, List.flatMap_append, ← hy, ← hyz, ← hgt, ← heg, (mem_char ':').mp he]
          simp
      · obtain ⟨gs, hlen, hgs, hy⟩ := (mem_rep k y).mp hy
        refine ⟨gs ++ [z], Or.inr ⟨gs, z, rfl, hgs, hz, by rw [hlen]⟩, ?_⟩
        rw [join_concat, ← hy, hyz]
    · intro h
      obtain ⟨B, hB, hx⟩ := h
      rcases hB with ⟨hlen, hB⟩ | ⟨gs, q, hB, hgs, hq, hlen⟩
      · have hne : B ≠ [] := List.ne_nil_of_length_eq_add_one hlen
        have hlen' : B.dropLast.length = k + 1 := by rw [List.length_dropLast, hlen]; rfl
        have hne' : B.dropLast ≠ [] := List.ne_nil_of_length_eq_add_one hlen'
        have hfront := fun d hd => hB d (List.mem_of_mem_dropLast hd)
        -- the last two groups
        have hsplit : B = B.dropLast.dropLast ++ [B.dropLast.getLast hne'] ++ [B.getLast hne] := by
          rw [List.dropLast_append_getLast, List.dropLast_append_getLast]
        have htwo : B.dropLast.getLast hne' ++ ([58] ++ B.getLast hne) ∈ (ls32 quad).lang :=
          Or.inl (Language.append_mem_mul (hfront _ (List.getLast_mem hne'))
            (Language.append_mem_mul ((mem_char ':').mpr rfl) (hB _ (List.getLast_mem hne))))
        rw [hx, hsplit, join_concat, List.flatMap_append, List.append_assoc, List.flatMap_singleton,
          List.append_assoc]
        refine Language.append_mem_mul ((mem_rep k _).mpr ⟨_, ?_, ?_, rfl⟩) htwo
        · rw [List.length_dropLast, hlen']
          rfl
        · exact fun d hd => hfront d (List.mem_of_mem_dropLast hd)
      · rw [hx, hB, join_concat]
        exact Language.append_mem_mul ((mem_rep k _).mpr ⟨gs, by omega, hgs, rfl⟩) (Or.inr hq)

/-- What an alternative has in front of the two colons, with seven groups less those behind. -/
def front (groups : Nat → Rule) : Nat → Language UInt8
  | 0 => 0
  | 1 => h16.lang
  | n + 2 => (groups (n + 1)).lang * h16.lang

theorem mem_elided {fronts : Language UInt8} {allowed : Nat → Prop} {k : Nat} {w : Bytes}
    (hfronts : ∀ x, x ∈ fronts ↔ ∃ F, allowed F.length ∧ Groups F ∧ x = join F) :
    w ∈ (fronts + 1) * ((text "::" : Rule).lang * behind quad k) ↔
      ∃ F B, Groups F ∧ (F = [] ∨ allowed F.length) ∧ Tail quad.lang k B ∧ w = elided F B := by
  have hcolons : ∀ x, x ∈ (text "::" : Rule).lang ↔ x = [58, 58] := by
    intro x
    constructor
    · intro h
      obtain ⟨y, hy, z, hz, hyz⟩ := Language.mem_mul.mp h
      rw [← hyz, (mem_char ':').mp hy, (mem_char ':').mp hz]
      rfl
    · intro h
      exact Language.mem_mul.mpr ⟨_, (mem_char ':').mpr rfl, _, (mem_char ':').mpr rfl, h.symm⟩
  constructor
  · intro h
    obtain ⟨x, hx, y, hy, hxy⟩ := Language.mem_mul.mp h
    obtain ⟨e, he, z, hz, hez⟩ := Language.mem_mul.mp hy
    obtain ⟨B, hB, hz⟩ := (mem_behind quad k z).mp hz
    rw [← hez, (hcolons e).mp he, hz] at hxy
    rcases hx with hx | hx
    · obtain ⟨F, hallowed, hF, hx⟩ := (hfronts x).mp hx
      exact ⟨F, B, hF, Or.inr hallowed, hB, by rw [← hxy, hx]; rfl⟩
    · refine ⟨[], B, fun g hg => absurd hg List.not_mem_nil, Or.inl rfl, hB, ?_⟩
      rw [← hxy, (Language.mem_one x).mp hx]
      rfl
  · intro h
    obtain ⟨F, B, hF, hallowed, hB, hw⟩ := h
    have hx : join F ∈ fronts + 1 := by
      rcases hallowed with hnil | hallowed
      · rw [hnil]
        exact Or.inr rfl
      · exact Or.inl ((hfronts _).mpr ⟨F, hallowed, hF, rfl⟩)
    rw [hw]
    exact Language.append_mem_mul hx (Language.append_mem_mul ((hcolons _).mpr rfl)
      ((mem_behind quad k _).mpr ⟨B, hB, rfl⟩))

/-- The sum of the alternatives. -/
theorem mem_address {w : Bytes} {L : Language UInt8} {groups : Nat → Rule} {allowed : Nat → Nat → Prop}
    (hL : w ∈ L ↔ w ∈ behind quad 8 ∨
      ∃ n ≤ 7, w ∈ (front groups n + 1) * ((text "::" : Rule).lang * behind quad (7 - n)))
    (hfront : ∀ n x, x ∈ front groups n ↔ ∃ F, allowed n F.length ∧ Groups F ∧ x = join F) :
    w ∈ L ↔ Address quad.lang allowed w := by
  rw [hL, Address, mem_behind]
  apply or_congr_right
  constructor
  · intro h
    obtain ⟨n, hn, hw⟩ := h
    obtain ⟨F, B, hF, hallowed, hB, hw⟩ := (mem_elided quad (hfront n)).mp hw
    exact ⟨F, B, n, hn, hF, hallowed, hB, hw⟩
  · intro h
    obtain ⟨F, B, n, hn, hF, hallowed, hB, hw⟩ := h
    exact ⟨n, hn, (mem_elided quad (hfront n)).mpr ⟨F, B, hF, hallowed, hB, hw⟩⟩

end Alternatives

/-! ## The two grammars -/

/-- As many groups in front as are missing behind, in the grammar of `uri.rl`. -/
def exactly (n m : Nat) : Prop := 1 ≤ n ∧ m = n

def upto (n m : Nat) : Prop := 1 ≤ m ∧ m ≤ n

theorem mem_h16 (x : Bytes) : x ∈ h16.lang ↔ ∃ F, F.length = 1 ∧ Groups F ∧ x = join F := by
  have h := mem_groups 0 x
  have hone : (rep 0 h16Colon : Rule).lang * h16.lang = h16.lang := one_mul _
  rwa [hone] at h

theorem mem_front_exactly (n : Nat) (x : Bytes) :
    x ∈ front (fun n => rep n h16Colon) n ↔ ∃ F, exactly n F.length ∧ Groups F ∧ x = join F := by
  match n with
  | 0 =>
    refine iff_of_false (Language.notMem_zero x) ?_
    intro h
    obtain ⟨F, hlen, -⟩ := h
    exact absurd hlen.1 (by decide)
  | 1 => simpa [front, exactly] using mem_h16 x
  | n + 2 => simpa [front, exactly] using mem_groups (n + 1) x

theorem mem_front_upto (n : Nat) (x : Bytes) :
    x ∈ front (fun n => upTo n h16Colon) n ↔ ∃ F, upto n F.length ∧ Groups F ∧ x = join F := by
  match n with
  | 0 =>
    refine iff_of_false (Language.notMem_zero x) ?_
    intro h
    obtain ⟨F, hlen, -⟩ := h
    unfold upto at hlen
    omega
  | 1 =>
    rw [front, mem_h16]
    apply exists_congr
    intro F
    apply and_congr_left'
    unfold upto
    omega
  | n + 2 =>
    rw [front]
    constructor
    · intro h
      obtain ⟨y, hy, g, hg, hyg⟩ := Language.mem_mul.mp h
      obtain ⟨m, hm, hy⟩ := mem_upTo_iff.mp hy
      obtain ⟨F, hlen, hF, hx⟩ := (mem_groups m x).mp (hyg ▸ Language.append_mem_mul hy hg)
      exact ⟨F, ⟨by omega, by omega⟩, hF, hx⟩
    · intro h
      obtain ⟨F, hlen, hF, hx⟩ := h
      unfold upto at hlen
      obtain ⟨y, hy, g, hg, hyg⟩ := Language.mem_mul.mp
        ((mem_groups (F.length - 1) x).mpr ⟨F, by omega, hF, hx⟩)
      exact hyg ▸ Language.append_mem_mul (mem_upTo_iff.mpr ⟨_, by omega, hy⟩) hg

theorem exists_le_seven {p : Nat → Prop} :
    (∃ n ≤ 7, p n) ↔ p 0 ∨ p 1 ∨ p 2 ∨ p 3 ∨ p 4 ∨ p 5 ∨ p 6 ∨ p 7 := by
  constructor
  · intro h
    obtain ⟨n, hn, hp⟩ := h
    interval_cases n <;> simp [hp]
  · intro h
    rcases h with h | h | h | h | h | h | h | h
    exacts [⟨0, by decide, h⟩, ⟨1, by decide, h⟩, ⟨2, by decide, h⟩, ⟨3, by decide, h⟩,
      ⟨4, by decide, h⟩, ⟨5, by decide, h⟩, ⟨6, by decide, h⟩, ⟨7, by decide, h⟩]

section Sums

variable (quad : Rule) (groups : Nat → Rule)

theorem alternative_zero : (front groups 0 + 1) * ((text "::" : Rule).lang * behind quad 7) =
    (text "::" : Rule).lang * behind quad 7 := by
  rw [front, zero_add, one_mul]

theorem alternative_five : behind quad (7 - 5) = (ls32 quad).lang := one_mul _

theorem alternative_seven : (text "::" : Rule).lang * behind quad (7 - 7) = (text "::" : Rule).lang :=
  mul_one _

end Sums

/-- The addresses of `uri.rl`. -/
theorem mem_uriParser (w : Bytes) : w ∈ UriParser.ipv6Address.lang ↔
    Address UriParser.ipv4Address.lang exactly w := by
  apply mem_address UriParser.ipv4Address _ mem_front_exactly
  rw [exists_le_seven, alternative_zero, alternative_five, alternative_seven]
  exact Iff.rfl

/-- The addresses of the RFC. -/
theorem mem_rfc3986 (w : Bytes) : w ∈ Rfc3986.ipv6Address.lang ↔
    Address Rfc3986.ipv4Address.lang upto w := by
  apply mem_address Rfc3986.ipv4Address _ mem_front_upto
  have hfour : behind Rfc3986.ipv4Address (7 - 4) =
      h16Colon.lang * (ls32 Rfc3986.ipv4Address).lang := by
    show h16Colon.lang * 1 * _ = _
    rw [mul_one]
  rw [exists_le_seven, alternative_zero, hfour, alternative_five, alternative_seven]
  exact Iff.rfl

/-! ## Reading the fields -/

theorem splitOn_join {fields : List Bytes} (h : ∀ g ∈ fields, 58 ∉ g) :
    (join fields).splitOn 58 = if fields = [] then [[]] else fields := by
  by_cases hnil : fields = []
  · rw [if_pos hnil, hnil]
    rfl
  · rw [if_neg hnil]
    exact List.splitOn_intercalate 58 h hnil

theorem splitOn_elided {F B : List Bytes} (hF : ∀ g ∈ F, 58 ∉ g) (hB : ∀ g ∈ B, 58 ∉ g) :
    (elided F B).splitOn 58 =
      (if F = [] then [[]] else F) ++ [] :: if B = [] then [[]] else B := by
  have hback : ([] ++ 58 :: join B).splitOn 58 = [] :: (join B).splitOn 58 :=
    List.splitOn_append_cons_self_of_not_mem List.not_mem_nil _
  rw [List.nil_append] at hback
  rw [elided, List.splitOn_append_cons_self, hback, splitOn_join hF, splitOn_join hB]

/-- The fields in front of the first one that is empty. -/
theorem takeWhile_fields {F : List Bytes} (hF : ∀ g ∈ F, g ≠ []) (rest : List Bytes) :
    ((if F = [] then [[]] else F) ++ [] :: rest).takeWhile (· ≠ []) = F := by
  by_cases hnil : F = []
  · rw [if_pos hnil, hnil]
    rfl
  · rw [if_neg hnil, List.takeWhile_append_of_pos fun g hg => decide_eq_true (hF g hg),
      List.takeWhile_cons_of_neg (by simp), List.append_nil]

def IsField (g : Bytes) : Prop := g ≠ [] ∧ 58 ∉ g

theorem elided_inj {F B F' B' : List Bytes} (hF : ∀ g ∈ F, IsField g) (hB : ∀ g ∈ B, IsField g)
    (hF' : ∀ g ∈ F', IsField g) (hB' : ∀ g ∈ B', IsField g) (h : elided F B = elided F' B') :
    F = F' ∧ B = B' := by
  have hfields := congrArg (List.splitOn 58) h
  rw [splitOn_elided (fun g hg => (hF g hg).2) fun g hg => (hB g hg).2,
    splitOn_elided (fun g hg => (hF' g hg).2) fun g hg => (hB' g hg).2] at hfields
  constructor
  · have hfront := congrArg (List.takeWhile (· ≠ [])) hfields
    rwa [takeWhile_fields fun g hg => (hF g hg).1, takeWhile_fields fun g hg => (hF' g hg).1] at hfront
  · -- from the other end
    have hreverse : ∀ B : List Bytes, (if B = [] then [[]] else B).reverse =
        if B.reverse = [] then [[]] else B.reverse := by
      intro B
      by_cases hnil : B = []
      · rw [hnil]
        rfl
      · rw [if_neg hnil, if_neg fun hrev => hnil (List.reverse_eq_nil_iff.mp hrev)]
    have hback := congrArg (fun l => (List.reverse l).takeWhile (· ≠ [])) hfields
    simp only [List.reverse_append, List.reverse_cons, List.append_assoc, List.singleton_append,
      hreverse] at hback
    rw [takeWhile_fields fun g hg => (hB g (List.mem_reverse.mp hg)).1,
      takeWhile_fields fun g hg => (hB' g (List.mem_reverse.mp hg)).1] at hback
    exact List.reverse_injective hback

/-- A whole address has no field that is empty. -/
theorem join_ne_elided {fields F B : List Bytes} (hfields : ∀ g ∈ fields, IsField g)
    (hne : fields ≠ []) (hF : ∀ g ∈ F, IsField g) (hB : ∀ g ∈ B, IsField g) :
    join fields ≠ elided F B := by
  intro h
  have hsplit := congrArg (List.splitOn 58) h
  rw [splitOn_join fun g hg => (hfields g hg).2, if_neg hne,
    splitOn_elided (fun g hg => (hF g hg).2) fun g hg => (hB g hg).2] at hsplit
  exact (hfields [] (by rw [hsplit]; simp)).1 rfl

theorem getLast_join {fields : List Bytes} (h : ∀ g ∈ fields, IsField g) (hne : fields ≠ []) :
    ((join fields).splitOn 58).getLast? = fields.getLast? := by
  rw [splitOn_join fun g hg => (h g hg).2, if_neg hne]

theorem getLast_elided {F B : List Bytes} (hF : ∀ g ∈ F, IsField g) (hB : ∀ g ∈ B, IsField g)
    (hne : B ≠ []) : ((elided F B).splitOn 58).getLast? = B.getLast? := by
  have hend := List.getLast?_eq_some_getLast hne
  rw [splitOn_elided (fun g hg => (hF g hg).2) fun g hg => (hB g hg).2, if_neg hne,
    List.append_cons, List.getLast?_append, hend, Option.some_or]

/-! ## Groups and dotted addresses -/

theorem isField_of_group {g : Bytes} (hg : g ∈ h16.lang) : IsField g := by
  refine ⟨?_, not_mem_of_uses (by decide) hg⟩
  intro hnil
  exact absurd ((nullable_iff h16).mpr (hnil ▸ hg)) (by decide)

theorem dot_not_mem_group {g : Bytes} (hg : g ∈ h16.lang) : 46 ∉ g := not_mem_of_uses (by decide) hg

structure IsQuad (q : Bytes) : Prop where
  dot : 46 ∈ q
  colon : 58 ∉ q

theorem ne_nil_of_tail {quad : Language UInt8} {k : Nat} {B : List Bytes} (hB : Tail quad (k + 1) B) : B ≠ [] := by
  intro hnil
  rcases hB with ⟨hlen, -⟩ | ⟨gs, q, hsplit, -⟩
  · rw [hnil] at hlen
    cases hlen
  · rw [hnil] at hsplit
    exact absurd hsplit (by simp)

section Quads

variable {quad quad' : Language UInt8} (hquad : ∀ q ∈ quad, IsQuad q) (hquad' : ∀ q ∈ quad', IsQuad q)
include hquad

theorem fields_of_tail {k : Nat} {B : List Bytes} (hB : Tail quad k B) : ∀ g ∈ B, IsField g := by
  intro g hg
  rcases hB with ⟨-, hB⟩ | ⟨gs, q, hB, hgs, hq, -⟩
  · exact isField_of_group (hB g hg)
  · rw [hB, List.mem_append, List.mem_singleton] at hg
    rcases hg with hg | hg
    · exact isField_of_group (hgs g hg)
    · have hdot := (hquad q hq).dot
      exact hg ▸ ⟨List.ne_nil_of_mem hdot, (hquad q hq).colon⟩

omit hquad in
/-- The last field is a dotted address if it has a dot. -/
theorem last_of_tail {k : Nat} {B : List Bytes} (hB : Tail quad k B) {q : Bytes}
    (hlast : B.getLast? = some q) (hdot : 46 ∈ q) : q ∈ quad := by
  rcases hB with ⟨-, hB⟩ | ⟨gs, q', hB, -, hq', -⟩
  · exact absurd hdot (dot_not_mem_group (hB q (List.mem_of_getLast? hlast)))
  · rw [hB, List.getLast?_concat] at hlast
    exact Option.some.inj hlast ▸ hq'

include hquad'

theorem tail_length {k k' : Nat} {B : List Bytes} (hB : Tail quad k B) (hB' : Tail quad' k' B) :
    k = k' := by
  rcases hB with ⟨hlen, hgroups⟩ | ⟨gs, q, heq, -, hq, hlen⟩
  · rcases hB' with ⟨hlen', -⟩ | ⟨gs', q', heq', -, hq', -⟩
    · exact hlen.symm.trans hlen'
    · exact absurd (hquad' q' hq').dot (dot_not_mem_group (hgroups q' (by rw [heq']; simp)))
  · rcases hB' with ⟨-, hgroups'⟩ | ⟨gs', q', heq', -, -, hlen'⟩
    · exact absurd (hquad q hq).dot (dot_not_mem_group (hgroups' q (by rw [heq]; simp)))
    · have hsame := congrArg List.length (heq.symm.trans heq')
      simp only [List.length_append, List.length_singleton] at hsame
      omega

/-- An address of the other grammar has the same fields. -/
theorem address_elided {F B : List Bytes} {k : Nat} {allowed : Nat → Nat → Prop} (hF : Groups F)
    (hB : Tail quad k B) (h : Address quad' allowed (elided F B)) :
    ∃ n ≤ 7, (F = [] ∨ allowed n F.length) ∧ k = 7 - n ∧ Tail quad' k B := by
  have hfront : ∀ g ∈ F, IsField g := fun g hg => isField_of_group (hF g hg)
  have hback := fields_of_tail hquad hB
  rcases h with ⟨fields, hfields, heq⟩ | ⟨F', B', n, hn, hF', hallowed, hB', heq⟩
  · exact absurd heq.symm
      (join_ne_elided (fields_of_tail hquad' hfields) (ne_nil_of_tail hfields) hfront hback)
  · obtain ⟨hsame, hsame'⟩ := elided_inj hfront hback
      (fun g hg => isField_of_group (hF' g hg)) (fields_of_tail hquad' hB') heq
    rw [← hsame] at hallowed
    rw [← hsame'] at hB'
    have hk := tail_length hquad hquad' hB hB'
    exact ⟨n, hn, hallowed, hk, hk ▸ hB'⟩

end Quads

section Quad

variable {quad quad' : Language UInt8} (hquad : ∀ q ∈ quad, IsQuad q)

include hquad

/-- The last field of an address is a dotted one if it has a dot. -/
theorem last_of_address {allowed : Nat → Nat → Prop} {w q : Bytes} (h : Address quad allowed w)
    (hlast : (w.splitOn 58).getLast? = some q) (hdot : 46 ∈ q) : q ∈ quad := by
  rcases h with ⟨fields, hfields, hw⟩ | ⟨F, B, n, -, hF, -, hB, hw⟩
  · rw [hw, getLast_join (fields_of_tail hquad hfields) (ne_nil_of_tail hfields)] at hlast
    exact last_of_tail hfields hlast hdot
  · have hfront : ∀ g ∈ F, IsField g := fun g hg => isField_of_group (hF g hg)
    by_cases hnil : B = []
    · rw [hw, hnil, splitOn_elided (fun g hg => (hfront g hg).2) (by simp), if_pos rfl,
        List.getLast?_append] at hlast
      rw [← Option.some.inj hlast] at hdot
      exact absurd hdot List.not_mem_nil
    · rw [hw, getLast_elided hfront (fields_of_tail hquad hB) hnil] at hlast
      exact last_of_tail hB hlast hdot

omit hquad in
/-- The fields of an address fit another grammar if the dotted one does. -/
theorem tail_mono {k : Nat} {B : List Bytes} (hB : Tail quad k B)
    (h : ∀ q, B.getLast? = some q → q ∈ quad → q ∈ quad') : Tail quad' k B := by
  rcases hB with hB | ⟨gs, q, hB, hgs, hq, hlen⟩
  · exact Or.inl hB
  · exact Or.inr ⟨gs, q, hB, hgs, h q (by rw [hB, List.getLast?_concat]) hq, hlen⟩

end Quad

end Ipv6

end Azure
