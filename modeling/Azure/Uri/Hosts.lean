import Azure.Uri.Ipv6

/-!
# The hosts of the two grammars

The hosts of `uri.rl` and those of the RFC are the same but for some literals and some dotted
addresses: `OddHost` lists them.
-/

namespace Azure

open Reasoning Machine

namespace Ipv6

/-! ## Dotted addresses -/

def quadOf (octet : Rule) : Rule :=
  seq [octet, char '.', octet, char '.', octet, char '.', octet]

theorem mem_quadOf {octet : Rule} {q : Bytes} :
    q ∈ (quadOf octet).lang ↔ ∃ a b c d, q = a ++ 46 :: (b ++ 46 :: (c ++ 46 :: d)) ∧
      ∀ o ∈ [a, b, c, d], o ∈ octet.lang := by
  constructor
  · intro h
    obtain ⟨a, ha, x, hx, hax⟩ := Language.mem_mul.mp h
    obtain ⟨e, he, y, hy, hey⟩ := Language.mem_mul.mp hx
    obtain ⟨b, hb, z, hz, hbz⟩ := Language.mem_mul.mp hy
    obtain ⟨f, hf, v, hv, hfv⟩ := Language.mem_mul.mp hz
    obtain ⟨c, hc, w, hw, hcw⟩ := Language.mem_mul.mp hv
    obtain ⟨g, hg, d, hd, hgd⟩ := Language.mem_mul.mp hw
    refine ⟨a, b, c, d, ?_, ?_⟩
    · rw [← hax, ← hey, ← hbz, ← hfv, ← hcw, ← hgd, (mem_char '.').mp he, (mem_char '.').mp hf,
        (mem_char '.').mp hg]
      rfl
    · simp only [List.mem_cons, List.not_mem_nil, or_false]
      rintro o (rfl | rfl | rfl | rfl)
      · exact ha
      · exact hb
      · exact hc
      · exact hd
  · intro h
    obtain ⟨a, b, c, d, hq, hocts⟩ := h
    have hdot : ([46] : Bytes) ∈ (char '.' : Rule).lang := (mem_char '.').mpr rfl
    have hmem := Language.append_mem_mul (hocts a (by simp)) (Language.append_mem_mul hdot
      (Language.append_mem_mul (hocts b (by simp)) (Language.append_mem_mul hdot
        (Language.append_mem_mul (hocts c (by simp)) (Language.append_mem_mul hdot
          (hocts d (by simp)))))))
    rw [hq]
    exact hmem

section Octets

variable {r : Rule} (hoctet : r.uses 46 = false) {q : Bytes}
include hoctet

theorem splitOn_quad {a b c d : Bytes} (h : ∀ o ∈ [a, b, c, d], o ∈ r.lang) :
    (a ++ 46 :: (b ++ 46 :: (c ++ 46 :: d))).splitOn 46 = [a, b, c, d] := by
  have hdot : ∀ o ∈ [a, b, c, d], 46 ∉ o := fun o ho => not_mem_of_uses hoctet (h o ho)
  rw [List.splitOn_append_cons_self_of_not_mem (hdot a (by simp)),
    List.splitOn_append_cons_self_of_not_mem (hdot b (by simp)),
    List.splitOn_append_cons_self_of_not_mem (hdot c (by simp)),
    List.splitOn_eq_singleton (hdot d (by simp))]

theorem octets_of_quad (hq : q ∈ (quadOf r).lang) : ∀ o ∈ q.splitOn 46, o ∈ r.lang := by
  obtain ⟨a, b, c, d, heq, hocts⟩ := mem_quadOf.mp hq
  rw [heq, splitOn_quad hoctet hocts]
  exact hocts

/-- A dotted address is one for every grammar that has its octets. -/
theorem quad_mono {r' : Rule} (hq : q ∈ (quadOf r).lang)
    (h : ∀ o ∈ q.splitOn 46, o ∈ r.lang → o ∈ r'.lang) : q ∈ (quadOf r').lang := by
  obtain ⟨a, b, c, d, heq, hocts⟩ := mem_quadOf.mp hq
  rw [heq, splitOn_quad hoctet hocts] at h
  exact mem_quadOf.mpr ⟨a, b, c, d, heq, fun o ho => h o ho (hocts o ho)⟩

end Octets

def HighOctet (q : Bytes) : Prop := ∃ d e, d ≤ 52 ∧ [50, d, e] ∈ q.splitOn 46

theorem mem_three {p p' p'' : UInt8 → Bool} {o : Bytes} :
    o ∈ (seq [byte p, byte p', byte p''] : Rule).lang ↔
      ∃ x y z, o = [x, y, z] ∧ p x = true ∧ p' y = true ∧ p'' z = true := by
  constructor
  · intro h
    obtain ⟨_, ⟨x, hx, rfl⟩, w, hw, hxw⟩ := Language.mem_mul.mp h
    obtain ⟨_, ⟨y, hy, rfl⟩, _, ⟨z, hz, rfl⟩, hyz⟩ := Language.mem_mul.mp hw
    exact ⟨x, y, z, by rw [← hxw, ← hyz]; rfl, hx, hy, hz⟩
  · intro h
    obtain ⟨x, y, z, ho, hx, hy, hz⟩ := h
    rw [ho]
    exact Language.append_mem_mul (l := (byte p : Rule).lang) ⟨x, hx, rfl⟩
      (Language.append_mem_mul (l := (byte p' : Rule).lang) ⟨y, hy, rfl⟩ ⟨z, hz, rfl⟩)

/-- Without the byte 2 an octet of `uri.rl` is one of the RFC. -/
theorem rfc_octet {o : Bytes} (ho : o ∈ UriParser.decOctet.lang) (htwo : 2 ∉ o) :
    o ∈ Rfc3986.decOctet.lang := by
  rcases ho with ho | ho | ho | ho | ho
  · exact Or.inl ho
  · exact Or.inr (Or.inl ho)
  · exact Or.inr (Or.inr (Or.inl ho))
  · obtain ⟨x, y, z, heq, hx, -, -⟩ := mem_three.mp ho
    exact absurd (by rw [heq, of_decide_eq_true hx]; simp) htwo
  · exact Or.inr (Or.inr (Or.inr (Or.inr ho)))

/-- An octet of the RFC is one of `uri.rl`, or it is one from 200 to 249. -/
theorem uri_octet {o : Bytes} (ho : o ∈ Rfc3986.decOctet.lang) :
    o ∈ UriParser.decOctet.lang ∨ ∃ d e, d ≤ 52 ∧ o = [50, d, e] := by
  rcases ho with ho | ho | ho | ho | ho
  · exact Or.inl (Or.inl ho)
  · exact Or.inl (Or.inr (Or.inl ho))
  · exact Or.inl (Or.inr (Or.inr (Or.inl ho)))
  · obtain ⟨x, y, z, heq, hx, hy, -⟩ := mem_three.mp ho
    exact Or.inr ⟨y, z, (of_decide_eq_true hy).2, by rw [heq, of_decide_eq_true hx]; rfl⟩
  · exact Or.inl (Or.inr (Or.inr (Or.inr (Or.inr ho))))

theorem high_not_mem {d e : UInt8} (hd : d ≤ 52) : [50, d, e] ∉ UriParser.decOctet.lang := by
  intro ho
  rcases ho with ho | ho | ho | ho | ho
  · obtain ⟨b, -, heq⟩ := ho
    exact absurd (congrArg List.length heq) (by simp)
  · obtain ⟨x, ⟨b, -, hx⟩, y, ⟨b', -, hy⟩, hxy⟩ := Language.mem_mul.mp ho
    rw [hx, hy] at hxy
    exact absurd (congrArg List.length hxy) (by simp)
  · exact absurd (begins_of_mem ho) (by decide)
  · exact absurd (begins_of_mem ho) (by decide)
  · obtain ⟨x, hx, y, ⟨b, -, hy⟩, hxy⟩ := Language.mem_mul.mp ho
    obtain ⟨v, hv, w, hw, hvw⟩ := Language.mem_mul.mp hx
    rw [← hvw, (mem_char '2').mp hv, (mem_char '5').mp hw, hy] at hxy
    have hsecond : (53 : UInt8) = d := (List.cons_eq_cons.mp (List.cons_eq_cons.mp hxy).2).1
    exact absurd (hsecond ▸ hd) (by decide)

theorem mem_intercalate {sep b : UInt8} {fields : List Bytes} {g : Bytes} (hg : g ∈ fields)
    (hb : b ∈ g) : b ∈ [sep].intercalate fields := by
  induction fields with
  | nil => cases hg
  | cons g' fields ih =>
    by_cases hnil : fields = []
    · rw [hnil, List.mem_singleton] at hg
      rw [hnil, List.intercalate_singleton, ← hg]
      exact hb
    · rw [List.intercalate_cons_of_ne_nil hnil]
      rcases List.mem_cons.mp hg with hg | hg
      · rw [← hg]
        simp [hb]
      · exact List.mem_append_right _ (ih hg)

theorem dotted_rfc {q : Bytes} (hq : q ∈ UriParser.ipv4Address.lang) (htwo : 2 ∉ q) :
    q ∈ Rfc3986.ipv4Address.lang := by
  refine quad_mono (r := UriParser.decOctet) (by decide) hq ?_
  intro o ho hmem
  apply rfc_octet hmem
  intro hbyte
  have hjoined : [46].intercalate (q.splitOn 46) = q := List.intercalate_splitOn 46
  rw [← hjoined] at htwo
  exact htwo (mem_intercalate ho hbyte)

/-- A dotted address of the RFC is one of `uri.rl` where no octet is from 200 to 249. -/
theorem dotted_uri {q : Bytes} (hq : q ∈ Rfc3986.ipv4Address.lang) :
    q ∈ UriParser.ipv4Address.lang ↔ ¬ HighOctet q := by
  constructor
  · intro h high
    obtain ⟨d, e, hd, ho⟩ := high
    exact high_not_mem hd (octets_of_quad (r := UriParser.decOctet) (by decide) h _ ho)
  · intro h
    refine quad_mono (r := Rfc3986.decOctet) (by decide) hq ?_
    intro o ho hmem
    rcases uri_octet hmem with huri | ⟨d, e, hd, heq⟩
    · exact huri
    · exact absurd ⟨d, e, hd, heq ▸ ho⟩ h

theorem isQuad_rfc {q : Bytes} (hq : q ∈ Rfc3986.ipv4Address.lang) : IsQuad q := by
  obtain ⟨a, b, c, d, heq, -⟩ := mem_quadOf.mp hq
  exact ⟨by rw [heq]; simp, not_mem_of_uses (by decide) hq⟩

theorem isQuad_uri {q : Bytes} (hq : q ∈ UriParser.ipv4Address.lang) : IsQuad q := by
  obtain ⟨a, b, c, d, heq, -⟩ := mem_quadOf.mp hq
  exact ⟨by rw [heq]; simp, not_mem_of_uses (by decide) hq⟩

/-! ## Literals -/

def Short (w : Bytes) : Prop :=
  ∃ F B k, Groups F ∧ Tail Rfc3986.ipv4Address.lang k B ∧ F ≠ [] ∧ F.length + k < 7 ∧ w = elided F B

/-- At the end there is a dotted address with an octet from 200 to 249. -/
def EndsHigh (w : Bytes) : Prop :=
  ∃ q, (w.splitOn 58).getLast? = some q ∧ 46 ∈ q ∧ HighOctet q

theorem short_rfc {w : Bytes} (hw : Short w) : w ∈ Rfc3986.ipv6Address.lang := by
  obtain ⟨F, B, k, hF, hB, hne, hlen, heq⟩ := hw
  have hpos := List.length_pos_iff.mpr hne
  have hk : 7 - (7 - k) = k := by omega
  exact (mem_rfc3986 w).mpr (Or.inr ⟨F, B, 7 - k, by omega, hF,
    Or.inr ⟨by omega, by omega⟩, by rwa [hk], heq⟩)

theorem short_not_uri {w : Bytes} (hw : Short w) : w ∉ UriParser.ipv6Address.lang := by
  intro hmem
  obtain ⟨F, B, k, hF, hB, hne, hlen, heq⟩ := hw
  rw [mem_uriParser, heq] at hmem
  obtain ⟨n, hn, hallowed, hk, -⟩ := address_elided (fun q => isQuad_rfc) (fun q => isQuad_uri) hF hB
    hmem
  rcases hallowed with hnil | hallowed
  · exact hne hnil
  · have hsame := hallowed.2
    omega

theorem endsHigh_not_uri {w : Bytes} (hw : EndsHigh w) : w ∉ UriParser.ipv6Address.lang := by
  intro hmem
  obtain ⟨q, hlast, hdot, d, e, hd, ho⟩ := hw
  have hq := last_of_address (fun q => isQuad_uri) ((mem_uriParser w).mp hmem) hlast hdot
  exact high_not_mem hd (octets_of_quad (r := UriParser.decOctet) (by decide) hq _ ho)

/-- Without the byte 2 an address of `uri.rl` is one of the RFC. -/
theorem address_rfc {w : Bytes} (hw : w ∈ UriParser.ipv6Address.lang) (htwo : 2 ∉ w) :
    w ∈ Rfc3986.ipv6Address.lang := by
  have hdotted : ∀ (B : List Bytes), (∀ b, b ∈ join B → b ∈ w) → ∀ q, B.getLast? = some q →
      q ∈ UriParser.ipv4Address.lang → q ∈ Rfc3986.ipv4Address.lang := by
    intro B hB q hq hmem
    apply dotted_rfc hmem
    exact fun hbyte => htwo (hB 2 (mem_intercalate (List.mem_of_getLast? hq) hbyte))
  rw [mem_rfc3986]
  rcases (mem_uriParser w).mp hw with ⟨fields, hfields, heq⟩ | ⟨F, B, n, hn, hF, hallowed, hB, heq⟩
  · exact Or.inl ⟨fields, tail_mono hfields (hdotted fields fun b hb => heq ▸ hb), heq⟩
  · refine Or.inr ⟨F, B, n, hn, hF, hallowed.imp_right ?_, tail_mono hB (hdotted B ?_), heq⟩
    · exact fun h => ⟨h.2 ▸ h.1, Nat.le_of_eq h.2⟩
    · intro b hb
      rw [heq, elided]
      simp [hb]

/-- An address of the RFC is one of `uri.rl` but for the two kinds. -/
theorem address_uri {w : Bytes} (hw : w ∈ Rfc3986.ipv6Address.lang) (hshort : ¬ Short w)
    (hhigh : ¬ EndsHigh w) : w ∈ UriParser.ipv6Address.lang := by
  have hdotted : ∀ (B : List Bytes), (w.splitOn 58).getLast? = B.getLast? → ∀ q,
      B.getLast? = some q → q ∈ Rfc3986.ipv4Address.lang → q ∈ UriParser.ipv4Address.lang := by
    intro B hB q hq hmem
    apply (dotted_uri hmem).mpr
    exact fun h => hhigh ⟨q, hB.trans hq, (isQuad_rfc hmem).dot, h⟩
  rw [mem_uriParser]
  rcases (mem_rfc3986 w).mp hw with ⟨fields, hfields, heq⟩ | ⟨F, B, n, hn, hF, hallowed, hB, heq⟩
  · refine Or.inl ⟨fields, tail_mono hfields (hdotted fields ?_), heq⟩
    rw [heq]
    exact getLast_join (fields_of_tail (fun q => isQuad_rfc) hfields) (ne_nil_of_tail hfields)
  · have hfront : ∀ g ∈ F, IsField g := fun g hg => isField_of_group (hF g hg)
    refine Or.inr ⟨F, B, n, hn, hF, ?_, tail_mono hB ?_, heq⟩
    · rcases hallowed with hnil | hallowed
      · exact Or.inl hnil
      · have hne : F ≠ [] := List.ne_nil_of_length_pos hallowed.1
        have hle := hallowed.2
        have hpos := hallowed.1
        -- all the groups that are missing behind
        have hfull : ¬ F.length + (7 - n) < 7 := fun h => hshort ⟨F, B, 7 - n, hF, hB, hne, h, heq⟩
        exact Or.inr ⟨by omega, by omega⟩
    · by_cases hnil : B = []
      · intro q hq
        rw [hnil] at hq
        cases hq
      · apply hdotted B
        rw [heq]
        exact getLast_elided hfront (fields_of_tail (fun q => isQuad_rfc) hB) hnil

end Ipv6

/-! ## Hosts -/

open Ipv6

theorem mem_bracketed {m : Rule} {h : Bytes} :
    h ∈ (seq [char '[', m, char ']']).lang ↔ ∃ w ∈ m.lang, h = 91 :: w ++ [93] := by
  constructor
  · intro hmem
    obtain ⟨x, hx, y, hy, hxy⟩ := Language.mem_mul.mp hmem
    obtain ⟨w, hw, e, he, hwe⟩ := Language.mem_mul.mp hy
    refine ⟨w, hw, ?_⟩
    rw [← hxy, ← hwe, (mem_char '[').mp hx, (mem_char ']').mp he]
    rfl
  · intro hmem
    obtain ⟨w, hw, heq⟩ := hmem
    have hopen : ([91] : Bytes) ∈ (char '[' : Rule).lang := (mem_char '[').mpr rfl
    have hclose : ([93] : Bytes) ∈ (char ']' : Rule).lang := (mem_char ']').mpr rfl
    have hword := Language.append_mem_mul hopen (Language.append_mem_mul hw hclose)
    rw [heq]
    exact hword

theorem mem_host_literal {m v4 name : Rule} (hplain : (alt v4 name).uses 91 = false) (w : Bytes) :
    91 :: w ++ [93] ∈ (oneOf [seq [char '[', m, char ']'], v4, name]).lang ↔ w ∈ m.lang := by
  constructor
  · intro h
    rcases h with h | h
    · obtain ⟨z, hz, heq⟩ := mem_bracketed.mp h
      rw [List.cons_append, List.cons_append, List.cons_eq_cons] at heq
      exact List.append_cancel_right heq.2 ▸ hz
    · exact absurd (by simp) (not_mem_of_uses (r := alt v4 name) hplain h)
  · exact fun h => Or.inl (mem_bracketed.mpr ⟨w, h, rfl⟩)

theorem mem_uriParser_literal (w : Bytes) : 91 :: w ++ [93] ∈ UriParser.host.lang ↔
    w ∈ UriParser.ipv6Address.lang ∨ w ∈ UriParser.ipvFuture.lang :=
  mem_host_literal (by decide) w

theorem mem_rfc3986_literal (w : Bytes) : 91 :: w ++ [93] ∈ Rfc3986.host.lang ↔
    w ∈ Rfc3986.ipv6Address.lang ∨ w ∈ Rfc3986.ipvFuture.lang :=
  mem_host_literal (by decide) w

/-- In the grammar of `uri.rl` a later version begins with a small `v`. -/
theorem future_uri {w : Bytes} (hw : w ∈ Rfc3986.ipvFuture.lang) :
    w ∈ UriParser.ipvFuture.lang ↔ w.head? ≠ some 86 := by
  obtain ⟨x, ⟨b, hb, hx⟩, y, hy, hxy⟩ := Language.mem_mul.mp hw
  have hbyte : b = 118 ∨ b = 86 := by simpa [ascii] using hb
  constructor
  · intro h hhead
    cases w with
    | nil => cases hhead
    | cons d w =>
      rw [Option.some.inj hhead] at h
      exact absurd (begins_of_mem h) (by decide)
  · intro h
    rcases hbyte with hbyte | hbyte
    · rw [← hxy, hx, hbyte]
      exact Language.append_mem_mul ((mem_char 'v').mpr rfl) hy
    · rw [← hxy, hx, hbyte] at h
      exact absurd rfl h

/-- An address is no later version. -/
theorem not_future_of_address {w : Bytes} (hw : w ∈ Rfc3986.ipv6Address.lang) :
    w ∉ UriParser.ipvFuture.lang := by
  intro hmem
  obtain ⟨x, hx, y, -, hxy⟩ := Language.mem_mul.mp hmem
  rw [← hxy, (mem_char 'v').mp hx] at hw
  exact absurd (begins_of_mem hw) (by decide)

theorem future_rfc {w : Bytes} (hw : w ∈ UriParser.ipvFuture.lang) : w ∈ Rfc3986.ipvFuture.lang := by
  obtain ⟨x, hx, y, hy, hxy⟩ := Language.mem_mul.mp hw
  rw [← hxy, (mem_char 'v').mp hx]
  exact Language.append_mem_mul (l := (UriParser.among "vV").lang) ⟨118, by decide, rfl⟩ hy

/-- A dotted address is a name as well. -/
theorem name_of_dotted {h : Bytes} (hh : h ∈ Rfc3986.ipv4Address.lang) :
    h ∈ UriParser.regName.lang := by
  apply mem_star_of_bytes
  intro b hb
  have hall : ∀ n : Fin 256, Rfc3986.ipv4Address.uses (UInt8.ofFin n) = true →
      isdigit (UInt8.ofFin n) = true ∨ UInt8.ofFin n = 46 := by
    decide +kernel
  have hbyte := hall b.toFin
  rw [UInt8.ofFin_toFin] at hbyte
  rcases hbyte (uses_of_mem hh hb) with hdigit | hdot
  · exact Or.inl (Or.inr (Or.inl ⟨b, hdigit, rfl⟩))
  · exact Or.inl (Or.inr (Or.inr ⟨b, by rw [hdot]; decide, rfl⟩))

/-- The hosts that one grammar has and the other has not. -/
inductive OddHost : Bytes → Prop
  /-- A later version with a capital `V`. -/
  | future {w : Bytes} (hw : w ∈ Rfc3986.ipvFuture.lang) (hhead : w.head? = some 86) :
      OddHost (91 :: w ++ [93])
  /-- Some groups in front of the two colons, but not all that are missing behind. -/
  | short {w : Bytes} (hw : Short w) : OddHost (91 :: w ++ [93])
  /-- An octet from 200 to 249 at the end of an address. -/
  | high {w : Bytes} (hw : w ∈ Rfc3986.ipv6Address.lang) (hhigh : EndsHigh w) :
      OddHost (91 :: w ++ [93])
  /-- The byte 2 in place of a digit. -/
  | literalByte {w : Bytes} (hw : w ∈ UriParser.ipv6Address.lang) (htwo : 2 ∈ w) :
      OddHost (91 :: w ++ [93])
  | byte {h : Bytes} (hh : h ∈ UriParser.ipv4Address.lang) (htwo : 2 ∈ h) : OddHost h

/-- Just one of the grammars has an odd host. -/
theorem OddHost.ne {h : Bytes} (hodd : OddHost h) :
    h ∈ Rfc3986.host.lang ∧ h ∉ UriParser.host.lang ∨
      h ∈ UriParser.host.lang ∧ h ∉ Rfc3986.host.lang := by
  cases hodd with
  | future hw hhead =>
    refine Or.inl ⟨(mem_rfc3986_literal _).mpr (Or.inr hw), ?_⟩
    rw [mem_uriParser_literal, not_or]
    refine ⟨?_, fun hmem => (future_uri hw).mp hmem hhead⟩
    intro hmem
    rename_i w
    cases w with
    | nil => cases hhead
    | cons d w =>
      rw [Option.some.inj hhead] at hmem
      exact absurd (begins_of_mem hmem) (by decide)
  | short hw =>
    have hmem := short_rfc hw
    refine Or.inl ⟨(mem_rfc3986_literal _).mpr (Or.inl hmem), ?_⟩
    rw [mem_uriParser_literal, not_or]
    exact ⟨short_not_uri hw, not_future_of_address hmem⟩
  | high hw hhigh =>
    refine Or.inl ⟨(mem_rfc3986_literal _).mpr (Or.inl hw), ?_⟩
    rw [mem_uriParser_literal, not_or]
    exact ⟨endsHigh_not_uri hhigh, not_future_of_address hw⟩
  | literalByte hw htwo =>
    refine Or.inr ⟨(mem_uriParser_literal _).mpr (Or.inl hw), ?_⟩
    intro hmem
    exact not_mem_of_uses (b := 2) (by decide) hmem (by simp [htwo])
  | byte hh htwo =>
    refine Or.inr ⟨Or.inr (Or.inl hh), ?_⟩
    exact fun hmem => not_mem_of_uses (b := 2) (by decide) hmem htwo

/-- Every other host is one for both. -/
theorem mem_host_iff {h : Bytes} (hodd : ¬ OddHost h) :
    h ∈ UriParser.host.lang ↔ h ∈ Rfc3986.host.lang := by
  constructor
  · intro hmem
    rcases hmem with hmem | hmem | hmem
    · obtain ⟨w, hw, heq⟩ := mem_bracketed.mp hmem
      rw [heq] at hodd ⊢
      rcases hw with hw | hw
      · have htwo : 2 ∉ w := fun htwo => hodd (.literalByte hw htwo)
        exact (mem_rfc3986_literal w).mpr (Or.inl (address_rfc hw htwo))
      · exact (mem_rfc3986_literal w).mpr (Or.inr (future_rfc hw))
    · have htwo : 2 ∉ h := fun htwo => hodd (.byte hmem htwo)
      exact Or.inr (Or.inl (dotted_rfc hmem htwo))
    · exact Or.inr (Or.inr hmem)
  · intro hmem
    rcases hmem with hmem | hmem | hmem
    · obtain ⟨w, hw, heq⟩ := mem_bracketed.mp hmem
      rw [heq] at hodd ⊢
      rcases hw with hw | hw
      · have hmem' := address_uri hw (fun h => hodd (.short h)) fun h => hodd (.high hw h)
        exact (mem_uriParser_literal w).mpr (Or.inl hmem')
      · have hmem' := (future_uri hw).mpr fun h => hodd (.future hw h)
        exact (mem_uriParser_literal w).mpr (Or.inr hmem')
    · exact Or.inr (Or.inr (name_of_dotted hmem))
    · exact Or.inr (Or.inr hmem)

end Azure
