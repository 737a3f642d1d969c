import Azure.Address.Model
import Azure.Uri.Ipv6
import Azure.Uri.Printing

/-!
# The text of an IPv6 address

`IPv6Address::insert` goes over the eight groups once.  It writes nothing for zero groups until it comes
to the first group behind them, and then two colons, after which every group is written.
-/

namespace Azure

open Reasoning (Endian ofMemory swapWord)

/-! ## The stream -/

/-- An `int` that is not negative, written with `std::hex`. -/
def hexText (n : Nat) : Bytes := ascii (Nat.toDigits 16 n)

namespace IPv6Address

section
variable (host : Endian) (a : IPv6Address)

def word (i : Nat) : UInt16 :=
  UInt16.ofNat (ofMemory host [a.s6Addr.toList.getD (2 * i) 0, a.s6Addr.toList.getD (2 * i + 1) 0])

/-- A turn of the loop of `insert`, on what is written and `used_zeros`. -/
def insertGroup (s : Bytes × Bool) (i : Nat) : Bytes × Bool :=
  let (os, usedZeros) := s
  if a.word host i = 0 ∧ ¬usedZeros then s
  else
    let skipped := i ≠ 0 ∧ a.word host (i - 1) = 0 ∧ ¬usedZeros
    let os := if skipped then os ++ [58] else os
    let os := if i ≠ 0 then os ++ [58] else os
    (os ++ hexText (byteswapOnLittleEndian16 host (a.word host i)).toNat, usedZeros || decide skipped)

def insertGroups : Bytes :=
  let (os, usedZeros) := (List.range 8).foldl (insertGroup host a) ([], false)
  if usedZeros = false ∧ a.word host 7 = 0 then os ++ [58, 58] else os

def toString : Bytes :=
  [91] ++ insertGroups host a ++ [93, 58] ++ decimal (byteswapOnLittleEndian16 host a.sin6Port).toNat

end

def groups (a : IPv6Address) : List Nat :=
  List.ofFn fun i : Fin 8 => 256 * (a.s6Addr[2 * i.val]).toNat + (a.s6Addr[2 * i.val + 1]).toNat

end IPv6Address

/-! ## What a text denotes -/

namespace Ipv6

/-- What a text of RFC 4291 stands for: it has all eight groups, or two colons in place of one or more
groups that are zero.  The form that ends in a dotted IPv4 address is left out: `insert` never prints
it. -/
inductive Denotes : Bytes → List Nat → Prop
  | whole (fields : List Bytes) (hlen : fields.length = 8) (hfields : Groups fields) :
    Denotes (join fields) (fields.map (leadingDigits 16 0))
  | short (F B : List Bytes) (hlen : F.length + B.length < 8) (hF : Groups F) (hB : Groups B) :
    Denotes (elided F B) (F.map (leadingDigits 16 0) ++
      List.replicate (8 - (F.length + B.length)) 0 ++ B.map (leadingDigits 16 0))

def OneElision (t : Bytes) : Prop :=
  ∀ x y x' y', t = x ++ 58 :: 58 :: y → t = x' ++ 58 :: 58 :: y' → x = x'

theorem fields_of_groups {fields : List Bytes} (h : Groups fields) : ∀ g ∈ fields, IsField g :=
  fun g hg => isField_of_group (h g hg)

/-- A text denotes one address at most. -/
theorem denotes_unique {t : Bytes} {gs gs' : List Nat} (h : Denotes t gs) (h' : Denotes t gs') :
    gs = gs' := by
  generalize ht : t = t' at h'
  cases h with
  | whole fields hlen hfields =>
    have hne : fields ≠ [] := List.ne_nil_of_length_eq_add_one hlen
    cases h' with
    | whole fields' hlen' hfields' =>
      have hne' : fields' ≠ [] := List.ne_nil_of_length_eq_add_one hlen'
      have hsplit := congrArg (List.splitOn 58) ht
      rw [splitOn_join fun g hg => (fields_of_groups hfields g hg).2, if_neg hne,
        splitOn_join fun g hg => (fields_of_groups hfields' g hg).2, if_neg hne'] at hsplit
      rw [hsplit]
    | short F B hlen' hF hB =>
      exact absurd ht (join_ne_elided (fields_of_groups hfields) hne (fields_of_groups hF)
        (fields_of_groups hB))
  | short F B hlen hF hB =>
    cases h' with
    | whole fields hlen' hfields =>
      exact absurd ht.symm (join_ne_elided (fields_of_groups hfields)
        (List.ne_nil_of_length_eq_add_one hlen') (fields_of_groups hF) (fields_of_groups hB))
    | short F' B' hlen' hF' hB' =>
      obtain ⟨rfl, rfl⟩ := elided_inj (fields_of_groups hF) (fields_of_groups hB)
        (fields_of_groups hF') (fields_of_groups hB') ht
      rfl

/-- What denotes an address is one of RFC 3986 too. -/
theorem denotes_rfc3986 {t : Bytes} {gs : List Nat} (h : Denotes t gs) :
    t ∈ Rfc3986.ipv6Address.lang := by
  rw [mem_rfc3986]
  cases h with
  | whole fields hlen hfields => exact Or.inl ⟨fields, Or.inl ⟨hlen, hfields⟩, rfl⟩
  | short F B hlen hF hB =>
    refine Or.inr ⟨F, B, 7 - B.length, Nat.sub_le 7 _, hF, ?_, Or.inl ⟨by omega, hB⟩, rfl⟩
    rcases Nat.eq_zero_or_pos F.length with hnil | hpos
    · exact Or.inl (List.eq_nil_of_length_eq_zero hnil)
    · exact Or.inr ⟨hpos, by omega⟩

/-- Fields are cut in one place at the empty field that is the only one inside them. -/
theorem cut_unique {X Y F B : List Bytes} (hX : X ≠ []) (hY : Y ≠ []) (hF : [] ∉ F.tail)
    (hB : [] ∉ B.dropLast) (h : F ++ [] :: B = X ++ [] :: Y) : X = F := by
  rcases List.append_eq_append_iff.mp h with ⟨as, hXs, hBs⟩ | ⟨as, hFs, hYs⟩
  · cases as with
    | nil => rw [hXs, List.append_nil]
    | cons g as =>
      -- the cut of the other reading would leave an empty field in `B`
      rw [List.cons_append] at hBs
      obtain ⟨-, hB'⟩ := List.cons.inj hBs
      rw [hB', List.dropLast_append_of_ne_nil (by simp), List.dropLast_cons_of_ne_nil hY] at hB
      exact absurd (List.mem_append_right as List.mem_cons_self) hB
  · cases as with
    | nil => rw [hFs, List.append_nil]
    | cons g as =>
      rw [List.cons_append] at hYs
      obtain ⟨hg, -⟩ := List.cons.inj hYs
      rw [hFs, ← hg, List.tail_append_of_ne_nil hX] at hF
      exact absurd (List.mem_append_right X.tail List.mem_cons_self) hF

theorem oneElision_of_denotes {t : Bytes} {gs : List Nat} (h : Denotes t gs) : OneElision t := by
  have hcut : ∀ x y : Bytes, (x ++ 58 :: 58 :: y).splitOn 58 = x.splitOn 58 ++ [] :: y.splitOn 58 := by
    intro x y
    have hback : ([] ++ 58 :: y).splitOn 58 = [] :: y.splitOn 58 :=
      List.splitOn_append_cons_self_of_not_mem List.not_mem_nil _
    rw [List.nil_append] at hback
    rw [List.splitOn_append_cons_self, hback]
  cases h with
  | whole fields hlen hfields =>
    intro x y x' y' hx
    have hsplit := congrArg (List.splitOn 58) hx
    rw [splitOn_join fun g hg => (fields_of_groups hfields g hg).2,
      if_neg (List.ne_nil_of_length_eq_add_one hlen), hcut] at hsplit
    exact absurd rfl (fields_of_groups hfields [] (by rw [hsplit]; simp)).1
  | short F B hlen hF hB =>
    -- the empty field of the elision can only be the one that the text was cut at
    have hfront : ∀ x y, elided F B = x ++ 58 :: 58 :: y → x = join F := by
      intro x y hx
      have hsplit := congrArg (List.splitOn 58) hx
      rw [splitOn_elided (fun g hg => (fields_of_groups hF g hg).2)
        fun g hg => (fields_of_groups hB g hg).2, hcut] at hsplit
      have htail : [] ∉ (if F = [] then [[]] else F).tail := by
        split
        · exact List.not_mem_nil
        · exact fun hmem => (fields_of_groups hF [] (List.mem_of_mem_tail hmem)).1 rfl
      have hlast : [] ∉ (if B = [] then [[]] else B).dropLast := by
        split
        · exact List.not_mem_nil
        · exact fun hmem => (fields_of_groups hB [] (List.mem_of_mem_dropLast hmem)).1 rfl
      have hX := cut_unique (List.splitOn_ne_nil 58 x) (List.splitOn_ne_nil 58 y) htail hlast hsplit
      have hx' : [58].intercalate (x.splitOn 58) = x := List.intercalate_splitOn 58
      rw [← hx', hX, join]
      split
      · rename_i hnil
        rw [hnil]
        rfl
      · rfl
    intro x y x' y' hx hx'
    rw [hfront x y hx, hfront x' y' hx']

end Ipv6

/-! ## Hexadecimal digits -/

def hexByte (d : Nat) : UInt8 := (Nat.digitChar d).toNat.toUInt8

theorem hexText_eq (n : Nat) :
    hexText n = if n < 16 then [hexByte n] else hexText (n / 16) ++ [hexByte (n % 16)] := by
  rw [hexText, Nat.toDigits_eq_if (by decide)]
  split
  · rfl
  · rw [ascii, List.map_append]
    rfl

theorem digitOf_hexByte : ∀ d < 16, digitOf (hexByte d) = some d := by decide

theorem hexdig_hexByte : ∀ d < 16, 48 ≤ hexByte d ∧ hexByte d ≤ 57 ∨ 65 ≤ hexByte d ∧ hexByte d ≤ 70 ∨
    97 ≤ hexByte d ∧ hexByte d ≤ 102 := by decide

/-- What is written is read back, whatever stands behind it. -/
theorem leadingDigits_hexText (n : Nat) (rest : Bytes) :
    leadingDigits 16 0 (hexText n ++ rest) = leadingDigits 16 n rest := by
  induction n using Nat.strong_induction_on generalizing rest with
  | _ n ih =>
    rw [hexText_eq]
    split
    · rename_i hn
      simp only [List.singleton_append, leadingDigits, digitOf_hexByte n hn, if_pos hn, Nat.zero_mul,
        Nat.zero_add]
    · have hlt : n / 16 < n := by omega
      have hmod : n % 16 < 16 := Nat.mod_lt n (by decide)
      rw [List.append_assoc, ih (n / 16) hlt, List.singleton_append, leadingDigits,
        digitOf_hexByte _ hmod]
      simp only [if_pos hmod, Nat.div_add_mod' n 16]

theorem mem_hexText {n : Nat} {b : UInt8} (h : b ∈ hexText n) : ∃ d < 16, b = hexByte d := by
  induction n using Nat.strong_induction_on with
  | _ n ih =>
    rw [hexText_eq] at h
    split at h
    · rename_i hn
      exact ⟨n, hn, List.mem_singleton.mp h⟩
    · rcases List.mem_append.mp h with h | h
      · exact ih (n / 16) (by omega) h
      · exact ⟨n % 16, Nat.mod_lt n (by decide), List.mem_singleton.mp h⟩

theorem mem_rep_of_bytes {r : Reasoning.Machine UriAction} {w : Bytes} (h : ∀ b ∈ w, [b] ∈ r.lang) :
    w ∈ (Reasoning.Machine.rep w.length r).lang := by
  induction w with
  | nil => exact rfl
  | cons b w ih =>
    exact Language.append_mem_mul (h b List.mem_cons_self)
      (ih fun c hc => h c (List.mem_cons_of_mem b hc))

/-- A group is written with one digit at least and four at most. -/
theorem hexText_group {n : Nat} (hn : n < 2 ^ 16) : hexText n ∈ Rfc3986.h16.lang := by
  have hdigit : ∀ b ∈ hexText n, [b] ∈ Rfc3986.hexdig.lang := by
    intro b hb
    obtain ⟨d, hd, rfl⟩ := mem_hexText hb
    exact ⟨_, decide_eq_true (hexdig_hexByte d hd), rfl⟩
  have hlen : (hexText n).length ≤ 4 := by
    rw [hexText, ascii, List.length_map, Nat.length_toDigits_le_iff (by decide) (by decide)]
    exact hn
  have hne : hexText n ≠ [] := by
    intro hnil
    exact Nat.toDigits_ne_nil (List.map_eq_nil_iff.mp hnil)
  cases hw : hexText n with
  | nil => exact absurd hw hne
  | cons b w =>
    rw [hw] at hdigit hlen
    have hthree : w.length ≤ 3 := Nat.le_of_succ_le_succ hlen
    exact Language.append_mem_mul (hdigit b List.mem_cons_self)
      (Reasoning.Machine.mem_upTo_iff.mpr ⟨w.length, hthree,
        mem_rep_of_bytes fun c hc => hdigit c (List.mem_cons_of_mem b hc)⟩)

/-! ## The loop -/

namespace Ipv6

def hexFields (gs : List Nat) : List Bytes := gs.map hexText

theorem join_append_singleton {fields : List Bytes} (hne : fields ≠ []) (g : Bytes) :
    join (fields ++ [g]) = join fields ++ 58 :: g := by
  rw [← List.dropLast_append_getLast hne, join_concat, join_concat, List.flatMap_append]
  simp

theorem elided_append_singleton (F : List Bytes) {B : List Bytes} (hne : B ≠ []) (g : Bytes) :
    elided F (B ++ [g]) = elided F B ++ 58 :: g := by
  rw [elided, elided, join_append_singleton hne, List.append_assoc]
  rfl

end Ipv6

namespace IPv6Address

open Ipv6

inductive Written : List Nat → Bytes × Bool → Prop
  | pending (F : List Nat) (z : Nat) (hF : 0 ∉ F) :
    Written (F ++ List.replicate z 0) (join (hexFields F), false)
  | elided (F : List Nat) (z : Nat) (B : List Nat) (hB : B ≠ []) :
    Written (F ++ List.replicate (z + 1) 0 ++ B) (elided (hexFields F) (hexFields B), true)

section
variable (host : Endian) (a : IPv6Address)

theorem toNat_swapped (b c : UInt8) :
    (byteswapOnLittleEndian16 host (UInt16.ofNat (ofMemory host [b, c]))).toNat =
      256 * b.toNat + c.toNat := by
  have hb : b.toNat < 256 := b.toNat_lt
  have hc : c.toNat < 256 := c.toNat_lt
  have hpair : ∀ b c : UInt8, Reasoning.ofBytes [b, c] = b.toNat + 256 * c.toNat := by
    intro b c
    rw [Reasoning.ofBytes, Reasoning.ofBytes, Reasoning.ofBytes, Nat.mul_zero, Nat.add_zero]
  have hword : ∀ n < 2 ^ 16, (UInt16.ofNat n).toNat = n := by
    intro n hn
    rw [UInt16.toNat_ofNat']
    exact Nat.mod_eq_of_lt hn
  cases host with
  | little =>
    have hmem : ofMemory .little [b, c] = Reasoning.ofBytes [b, c] := rfl
    have hlt : Reasoning.ofBytes [b, c] < 2 ^ 16 := by
      rw [hpair]
      omega
    have hswap : (swapWord 2 (UInt16.ofNat (Reasoning.ofBytes [b, c])).toBitVec).toNat =
        Reasoning.ofBytes [c, b] := by
      have hbytes : Reasoning.toBytes 2 (Reasoning.ofBytes [b, c]) = [b, c] :=
        Reasoning.toBytes_ofBytes [b, c]
      have hto : (UInt16.ofNat (Reasoning.ofBytes [b, c])).toBitVec.toNat =
          Reasoning.ofBytes [b, c] := hword _ hlt
      have hlt' : Reasoning.ofBytes [c, b] < 2 ^ 16 := by
        rw [hpair]
        omega
      rw [swapWord, BitVec.toNat_ofNat, hto, Reasoning.byteswap, hbytes]
      exact Nat.mod_eq_of_lt hlt'
    show (swapWord 2 (UInt16.ofNat (ofMemory .little [b, c])).toBitVec).toNat = _
    rw [hmem, hswap, hpair, Nat.add_comm]
  | big =>
    have hmem : ofMemory .big [b, c] = 256 * b.toNat + c.toNat := by
      show Reasoning.ofBytes [c, b] = _
      rw [hpair, Nat.add_comm]
    show (UInt16.ofNat (ofMemory .big [b, c])).toNat = _
    rw [hmem, hword _ (by omega)]

theorem length_groups : a.groups.length = 8 := List.length_ofFn

variable {a} {i g : Nat}

/-- Every host sees the groups of the address. -/
theorem toNat_word (hg : a.groups[i]? = some g) :
    (byteswapOnLittleEndian16 host (a.word host i)).toNat = g := by
  obtain ⟨hi, hg⟩ := List.getElem?_eq_some_iff.mp hg
  have hlt : i < 8 := by rwa [length_groups] at hi
  have hlen : a.s6Addr.toList.length = 16 := Vector.length_toList
  have hhigh : 2 * i < a.s6Addr.toList.length := by omega
  have hlow : 2 * i + 1 < a.s6Addr.toList.length := by omega
  rw [word, toNat_swapped, List.getD_eq_getElem _ _ hhigh, List.getD_eq_getElem _ _ hlow, ← hg]
  simp only [groups, List.getElem_ofFn, Vector.getElem_toList]

theorem word_eq_zero_iff (hg : a.groups[i]? = some g) : a.word host i = 0 ↔ g = 0 := by
  rw [← toNat_word host hg]
  constructor
  · intro h
    rw [h]
    cases host <;> decide
  · intro h
    have hzero : byteswapOnLittleEndian16 host (a.word host i) = 0 := UInt16.toNat_inj.mp h
    rw [← swap_swap16 host (a.word host i), hzero]
    cases host <;> decide

/-- A turn of the loop, by what is written so far. -/
theorem written_insertGroup {s : Bytes × Bool} (hg : a.groups[i]? = some g)
    (h : Written (a.groups.take i) s) :
    Written (a.groups.take (i + 1)) (insertGroup host a s i) := by
  have hcur := word_eq_zero_iff host hg
  have hval := toNat_word host hg
  have hin : i < a.groups.length := (List.getElem?_eq_some_iff.mp hg).1
  have htake : a.groups.take (i + 1) = a.groups.take i ++ [g] := by
    rw [List.take_add_one, hg]
    rfl
  have hlen : (a.groups.take i).length = i := List.length_take_of_le (Nat.le_of_lt hin)
  have hprev : ∀ Q x, a.groups.take i = Q ++ [x] → i ≠ 0 ∧ (a.word host (i - 1) = 0 ↔ x = 0) := by
    intro Q x hQ
    rw [hQ, List.length_append, List.length_singleton] at hlen
    refine ⟨by omega, word_eq_zero_iff host ?_⟩
    have hbefore : i - 1 < i := by omega
    have hlast : i - 1 = Q.length := by omega
    rw [← List.getElem?_take_of_lt hbefore, hQ, hlast, List.getElem?_concat_length]
  rw [htake]
  generalize a.groups.take i = P at h hprev hlen ⊢
  cases h with
  | pending F z hF =>
    by_cases hzero : g = 0
    · have hstep : insertGroup host a (join (hexFields F), false) i = (join (hexFields F), false) := by
        simp only [insertGroup, hcur, hzero, Bool.false_eq_true, not_false_eq_true, and_self, if_true]
      have hzeros : F ++ List.replicate z 0 ++ [g] = F ++ List.replicate (z + 1) 0 := by
        rw [hzero, List.append_assoc, List.replicate_succ']
      rw [hstep, hzeros]
      exact Written.pending F (z + 1) hF
    · have hne : ¬ a.word host i = 0 := fun h => hzero (hcur.mp h)
      cases z with
      | succ z =>
        -- the first group behind zeros
        obtain ⟨hi, hbefore⟩ := hprev (F ++ List.replicate z 0) 0 (by
          rw [List.append_assoc, List.replicate_succ'])
        have hstep : insertGroup host a (join (hexFields F), false) i =
            (elided (hexFields F) (hexFields [g]), true) := by
          simp [insertGroup, hne, hbefore, hi, hval, elided, hexFields, join]
        rw [hstep]
        exact Written.elided F z [g] (List.cons_ne_nil g [])
      | zero =>
        have hnew : 0 ∉ F ++ [g] := by
          rw [List.mem_append, List.mem_singleton]
          exact fun h => h.elim hF fun h => hzero h.symm
        have hstep : insertGroup host a (join (hexFields F), false) i =
            (join (hexFields (F ++ [g])), false) := by
          rcases List.eq_nil_or_concat F with rfl | ⟨Q, x, rfl⟩
          · have hi : i = 0 := by simpa using hlen.symm
            subst hi
            simp [insertGroup, hne, hval, hexFields, join]
          · obtain ⟨hi, hbefore⟩ := hprev Q x (by simp)
            have hx : x ≠ 0 := fun hx => hF (by simp [hx])
            have hjoin : join (hexFields (Q.concat x ++ [g])) =
                join (hexFields (Q.concat x)) ++ 58 :: hexText g := by
              rw [hexFields, List.map_append]
              exact join_append_singleton (by simp) (hexText g)
            rw [hjoin]
            simp [insertGroup, hne, hval, hi, hbefore, hx]
        have hsame : F ++ List.replicate 0 0 ++ [g] = F ++ [g] ++ List.replicate 0 0 := by simp
        rw [hstep, hsame]
        exact Written.pending (F ++ [g]) 0 hnew
  | elided F z B hB =>
    have hi : i ≠ 0 := by
      rintro rfl
      simp at hlen
    have hstep : insertGroup host a (elided (hexFields F) (hexFields B), true) i =
        (elided (hexFields F) (hexFields (B ++ [g])), true) := by
      have hmap : hexFields (B ++ [g]) = hexFields B ++ [hexText g] := List.map_append
      have hne : hexFields B ≠ [] := mt List.map_eq_nil_iff.mp hB
      rw [hmap, elided_append_singleton _ hne]
      simp [insertGroup, hi, hval]
    rw [hstep, List.append_assoc]
    exact Written.elided F z (B ++ [g]) (by simp)

/-- The loop, by what is written at its end. -/
theorem written_groups :
    Written a.groups ((List.range 8).foldl (insertGroup host a) ([], false)) := by
  have hrun : ∀ n ≤ 8, Written (a.groups.take n)
      ((List.range n).foldl (insertGroup host a) ([], false)) := by
    intro n
    induction n with
    | zero => exact fun _ => Written.pending [] 0 List.not_mem_nil
    | succ n ih =>
      intro hn
      have hin : n < a.groups.length := by rw [length_groups]; exact hn
      rw [List.range_succ, List.foldl_append]
      exact written_insertGroup host (List.getElem?_eq_getElem hin) (ih (by omega))
  have hall := hrun 8 (Nat.le_refl 8)
  rwa [List.take_of_length_le (Nat.le_of_eq (length_groups a))] at hall

theorem group_lt {g : Nat} (hg : g ∈ a.groups) : g < 2 ^ 16 := by
  obtain ⟨k, hk⟩ := List.mem_ofFn.mp hg
  have hhigh : (a.s6Addr[2 * k.val]).toNat < 256 := UInt8.toNat_lt _
  have hlow : (a.s6Addr[2 * k.val + 1]).toNat < 256 := UInt8.toNat_lt _
  omega

theorem hexFields_values (gs : List Nat) : (hexFields gs).map (leadingDigits 16 0) = gs := by
  have hvalue : ∀ n, leadingDigits 16 0 (hexText n) = n := by
    intro n
    have hread := leadingDigits_hexText n []
    rwa [List.append_nil] at hread
  rw [hexFields, List.map_map]
  exact List.map_id'' hvalue gs

/-- The text with two colons, by the number of groups it leaves out. -/
theorem denotes_elided {F B : List Nat} {z : Nat} (hlen : F.length + (z + 1) + B.length = 8)
    (hF : Groups (hexFields F)) (hB : Groups (hexFields B)) :
    Denotes (elided (hexFields F) (hexFields B)) (F ++ List.replicate (z + 1) 0 ++ B) := by
  have hfront : (hexFields F).length = F.length := List.length_map hexText
  have hback : (hexFields B).length = B.length := List.length_map hexText
  have hshort := Denotes.short (hexFields F) (hexFields B) (by omega) hF hB
  have hcount : 8 - (F.length + B.length) = z + 1 := by omega
  rwa [hexFields_values, hexFields_values, hfront, hback, hcount] at hshort

/-- What is written between the brackets stands for the groups. -/
theorem denotes_insertGroups : Denotes (insertGroups host a) a.groups := by
  have hgroups : ∀ gs, (∀ g ∈ gs, g ∈ a.groups) → Groups (hexFields gs) := by
    intro gs hgs t ht
    obtain ⟨g, hg, rfl⟩ := List.mem_map.mp ht
    exact hexText_group (group_lt (hgs g hg))
  have hlen := length_groups a
  have hwritten := written_groups host (a := a)
  obtain ⟨g, hg⟩ : ∃ g, a.groups[7]? = some g :=
    ⟨_, List.getElem?_eq_getElem (by rw [hlen]; decide)⟩
  have hend := word_eq_zero_iff host hg
  rw [insertGroups]
  generalize (List.range 8).foldl (insertGroup host a) ([], false) = s at hwritten ⊢
  generalize a.groups = gs at hgroups hlen hg hwritten ⊢
  cases hwritten with
  | pending F z hF =>
    have hfront := hgroups F fun g hg => List.mem_append_left _ hg
    cases z with
    | zero =>
      rw [List.replicate_zero, List.append_nil] at hg hlen ⊢
      -- no zero group: the eight groups are printed
      have hne : g ≠ 0 := fun h => hF (h ▸ List.mem_of_getElem? hg)
      have hwhole := Denotes.whole (hexFields F) ((List.length_map hexText).trans hlen) hfront
      rw [hexFields_values] at hwhole
      simpa only [hend, hne, and_false, if_false] using hwhole
    | succ z =>
      -- the zeros go on to the end, where the text gets its two colons
      have hzero : g = 0 := by
        rw [List.replicate_succ', ← List.append_assoc] at hg hlen
        rw [List.length_append, List.length_singleton] at hlen
        have hpos : 7 = (F ++ List.replicate z 0).length := by omega
        rw [hpos, List.getElem?_concat_length] at hg
        exact (Option.some.inj hg).symm
      rw [List.length_append, List.length_replicate] at hlen
      have hshort := denotes_elided (B := []) hlen hfront fun g hg => absurd hg List.not_mem_nil
      have htext : elided (hexFields F) (hexFields []) = join (hexFields F) ++ [58, 58] := rfl
      rw [List.append_nil, htext] at hshort
      simpa only [hend, hzero, and_self, if_true] using hshort
  | elided F z B hB =>
    rw [List.length_append, List.length_append, List.length_replicate] at hlen
    have hshort := denotes_elided hlen
      (hgroups F fun g hg => List.mem_append_left _ (List.mem_append_left _ hg))
      (hgroups B fun g hg => List.mem_append_right _ hg)
    simpa only [Bool.true_eq_false, false_and, if_false] using hshort

end

/-- The groups are the bytes. -/
theorem groups_inj {a b : IPv6Address} (h : a.groups = b.groups) : a.s6Addr = b.s6Addr := by
  have hgroup := List.ofFn_inj.mp h
  apply Vector.ext
  intro k hk
  have hpair := congrFun hgroup ⟨k / 2, by omega⟩
  simp only at hpair
  have ha : (a.s6Addr[2 * (k / 2) + 1]).toNat < 256 := UInt8.toNat_lt _
  have hb : (b.s6Addr[2 * (k / 2) + 1]).toNat < 256 := UInt8.toNat_lt _
  apply UInt8.toNat_inj.mp
  rcases Nat.mod_two_eq_zero_or_one k with heven | hodd
  · have hk' : 2 * (k / 2) = k := by omega
    simp only [hk'] at hpair ha hb
    omega
  · have hk' : 2 * (k / 2) + 1 = k := by omega
    simp only [hk'] at hpair ha hb
    omega

/-- The text of an address is faithful. -/
theorem toString_faithful (host : Endian) :
    (∀ a : IPv6Address, ∃ t,
      a.toString host = [91] ++ t ++ [93, 58] ++ decimal (a.getPort host).toNat ∧
      OneElision t ∧ t ∈ Rfc3986.ipv6Address.lang ∧ Denotes t a.groups) ∧
    ∀ a b : IPv6Address, a.toString host = b.toString host →
      a.s6Addr = b.s6Addr ∧ a.getPort host = b.getPort host := by
  refine ⟨fun a => ?_, fun a b h => ?_⟩
  · have hdenotes := denotes_insertGroups host (a := a)
    exact ⟨_, rfl, oneElision_of_denotes hdenotes, denotes_rfc3986 hdenotes, hdenotes⟩
  · have hdenotes := denotes_insertGroups host (a := a)
    have hdenotes' := denotes_insertGroups host (a := b)
    -- the bracket ends the address, and nothing behind it is one
    have hbracket : 93 ∉ insertGroups host a :=
      Reasoning.Machine.not_mem_of_uses (by decide) (denotes_rfc3986 hdenotes)
    have hbehind : 93 ∉ 58 :: decimal (byteswapOnLittleEndian16 host a.sin6Port).toNat := by
      rw [List.mem_cons, not_or]
      exact ⟨by decide, fun hmem => absurd (digit_of_mem_decimal hmem).2 (by decide)⟩
    simp only [toString, List.append_assoc, List.cons_append, List.cons.injEq, true_and,
      List.nil_append] at h
    -- so equal texts have equal addresses and equal ports
    obtain ⟨htext, -, hport⟩ := (List.append_cons_inj_of_notMem hbracket hbehind).mp h
    constructor
    · rw [htext] at hdenotes
      exact groups_inj (denotes_unique hdenotes hdenotes')
    · have hvalue := congrArg decimalValue (List.cons.inj hport).2
      rw [decimalValue_decimal, decimalValue_decimal] at hvalue
      exact UInt16.toNat_inj.mp hvalue

end IPv6Address

end Azure
