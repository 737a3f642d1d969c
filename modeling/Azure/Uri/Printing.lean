import Azure.Uri.Extraction

/-!
# What `Uri::toString` writes

The text is put together from parts, like those that are read.  An authority is always written, and a
port that is negative is no port for the parser.
-/

namespace Azure

open Reasoning Machine Computability

/-! ## Numbers -/

theorem decimalValue_decimal (n : Nat) : decimalValue (decimal n) = n := foldl_decimal n

/-- What is written for a port that fits is read back. -/
theorem portValue_intText {p : Int} (hp : 0 ≤ p) (hlt : p < 2 ^ 31) :
    UriParser.portValue (Uri.intText p) = p := by
  have htext : Uri.intText p = decimal p.natAbs := by
    rw [Uri.intText, if_neg (by omega)]
    rfl
  rw [htext, portValue_eq (decimal_all _), decimalValue_decimal, intOfLong_of_lt (by omega)]
  omega

theorem portValue_nil : UriParser.portValue [] = 0 := rfl

/-- The port that is stored of digits fits, and it is not negative where the digits do. -/
theorem portValue_nonneg_iff {P : Bytes} (hP : P.all isdigit = true) :
    0 ≤ UriParser.portValue P ↔
      decimalValue P < 2 ^ 63 - 1 ∧ decimalValue P % 2 ^ 32 < 2 ^ 31 := by
  rw [portValue_eq hP, intOfLong]
  by_cases hlarge : decimalValue P < 2 ^ 63 - 1
  · have hmin : min (decimalValue P : Int) (2 ^ 63 - 1) = decimalValue P := by omega
    rw [hmin, and_iff_right hlarge, Int.bmod_def]
    split
    · omega
    · omega
  · have hmin : min (decimalValue P : Int) (2 ^ 63 - 1) = 2 ^ 63 - 1 := by omega
    rw [hmin]
    exact iff_of_false (by decide) fun h => hlarge h.1

/-! ## The parts that are written -/

namespace Uri

def printedAuthority (u : Uri) : Authority where
  userinfo := if u.userinfo = [] then none else some u.userinfo
  host := u.host
  port := if u.isDefaultPort then none else some (intText u.port)

def printed (u : Uri) : UriParts where
  scheme := some u.scheme
  authority := some u.printedAuthority
  path := u.getPath
  query := if u.query = [] then none else some u.query
  fragment := if u.fragment = [] then none else some u.fragment

theorem printed_userinfoText (u : Uri) :
    u.printedAuthority.userinfoText = u.userinfo ++ if u.userinfo = [] then [] else ascii ['@'] := by
  rw [Authority.userinfoText, printedAuthority]
  by_cases h : u.userinfo = []
  · simp [h]
  · simp [h, ascii]

theorem printed_portText (u : Uri) :
    u.printedAuthority.portText = if u.isDefaultPort then [] else ascii [':'] ++ intText u.port := by
  rw [Authority.portText, printedAuthority]
  by_cases h : u.isDefaultPort = true
  · simp [h]
  · simp [h, ascii]

theorem printed_queryText (u : Uri) :
    u.printed.queryText = (if u.query = [] then [] else ascii ['?']) ++ u.query := by
  rw [UriParts.queryText, printed]
  by_cases h : u.query = []
  · simp [h]
  · simp [h, ascii]

theorem printed_fragmentText (u : Uri) :
    u.printed.fragmentText = (if u.fragment = [] then [] else ascii ['#']) ++ u.fragment := by
  rw [UriParts.fragmentText, printed]
  by_cases h : u.fragment = []
  · simp [h]
  · simp [h, ascii]

theorem toString_eq (u : Uri) : u.toString = u.printed.text := by
  have hslashes : ascii "://".toList = [58, 47, 47] := by decide
  have hscheme : u.printed.schemeText = u.scheme ++ [58] := rfl
  have hauthority : u.printed.authorityText = 47 :: 47 :: u.printedAuthority.text := rfl
  have hpath : u.printed.path = u.getPath := rfl
  rw [toString, UriParts.text, hslashes, hscheme, hauthority, hpath, Authority.text,
    printed_userinfoText, printed_portText, printed_queryText, printed_fragmentText]
  simp [printedAuthority]

/-! ## The parts can be read -/

theorem isDefaultPort_of_neg {u : Uri} (h : u.port < 0) : u.isDefaultPort = false := by
  unfold isDefaultPort
  rw [if_neg (by omega)]
  split
  · exact decide_eq_false (by omega)
  · split
    · exact decide_eq_false (by omega)
    · rfl

end Uri

section Printed

variable {c : UriParts} (hc : c.WellFormed UriParser.host.lang)

open UriParser

theorem savedUserinfo_mem {U : Bytes} (hU : U ∈ userinfo.lang) : savedUserinfo U ∈ userinfo.lang := by
  by_cases hcolon : 58 ∈ U
  · obtain ⟨V, D, hUV, hV⟩ := List.eq_append_cons_of_mem hcolon
    rw [hUV] at hU
    rw [hUV, savedUserinfo_colon hV]
    split
    · exact (cut_userinfo hU hV).2
    · exact hU
  · rw [savedUserinfo_of_not_mem hcolon]
    exact hU

theorem nil_mem_host : ([] : Bytes) ∈ host.lang := (nullable_iff host).mp (by decide)

include hc

theorem userinfo_ofParts_mem : (Uri.ofParts c).userinfo ∈ userinfo.lang := by
  rw [Uri.ofParts]
  cases hauthority : c.authority with
  | none => exact (nullable_iff userinfo).mp (by decide)
  | some a =>
    cases huserinfo : a.userinfo with
    | none =>
      rw [Option.bind_some, huserinfo]
      exact (nullable_iff userinfo).mp (by decide)
    | some U =>
      rw [Option.bind_some, huserinfo]
      exact savedUserinfo_mem ((hc.authority a hauthority).userinfo U huserinfo)

theorem host_ofParts_mem : (Uri.ofParts c).host ∈ host.lang := by
  rw [Uri.ofParts]
  cases hauthority : c.authority with
  | none => exact nil_mem_host
  | some a => exact (hc.authority a hauthority).host

theorem getPath_ofParts_mem : (Uri.ofParts c).getPath ∈ Rfc3986.pathAbempty.lang := by
  have hslash : ascii ['/'] ∈ Rfc3986.pathAbempty.lang := (accepts_iff (by decide) _).mp (by decide)
  rw [Uri.getPath]
  by_cases hnil : (Uri.ofParts c).path = []
  · rw [if_pos hnil]
    exact hslash
  · rw [if_neg hnil]
    rw [Uri.ofParts] at hnil ⊢
    dsimp only at hnil ⊢
    split at hnil
    · rename_i hboth
      rw [if_pos hboth]
      have hpath := hc.path
      rwa [UriParts.pathLang, if_pos hboth.2] at hpath
    · exact absurd rfl hnil

end Printed

structure Uri.WellFormed (u : Uri) : Prop where
  scheme : u.scheme ∈ UriParser.scheme.lang
  userinfo : u.userinfo ∈ UriParser.userinfo.lang
  host : u.host ∈ UriParser.host.lang
  path : u.getPath ∈ Rfc3986.pathAbempty.lang
  query : u.query ∈ UriParser.query.lang
  fragment : u.fragment ∈ UriParser.fragment.lang
  port : u.port < 2 ^ 31

theorem wellFormed_ofParts {c : UriParts} (hc : c.WellFormed UriParser.host.lang)
    (hscheme : c.scheme.isSome = true) : (Uri.ofParts c).WellFormed where
  scheme := by
    obtain ⟨s, hs⟩ := Option.isSome_iff_exists.mp hscheme
    rw [Uri.ofParts, hs]
    exact hc.scheme s hs
  userinfo := userinfo_ofParts_mem hc
  host := host_ofParts_mem hc
  path := getPath_ofParts_mem hc
  query := by
    rw [Uri.ofParts]
    cases hq : c.query with
    | none => exact (nullable_iff UriParser.query).mp (by decide)
    | some q => exact hc.query q hq
  fragment := by
    rw [Uri.ofParts]
    cases hf : c.fragment with
    | none => exact (nullable_iff UriParser.fragment).mp (by decide)
    | some f => exact hc.fragment f hf
  port := (intOfLong_bounds _).2

namespace Uri

section Readable

variable {u : Uri} (hu : u.WellFormed)
include hu

theorem printed_userinfo_mem {U : Bytes} (hU : u.printedAuthority.userinfo = some U) :
    U ∈ UriParser.userinfo.lang := by
  rw [printedAuthority] at hU
  dsimp only at hU
  split at hU
  · cases hU
  · exact Option.some.inj hU ▸ hu.userinfo

omit hu in
theorem mem_intText {n : Int} {b : UInt8} (hb : b ∈ intText n) : b = 45 ∨ isdigit b = true := by
  rw [intText, List.mem_append] at hb
  rcases hb with hb | hb
  · split at hb
    · exact Or.inl (List.mem_singleton.mp hb)
    · cases hb
  · exact Or.inr (List.all_eq_true.mp (decimal_all _) b hb)

omit hu in
theorem not_mem_printed_port {b : UInt8} (hb : b = 64 ∨ b = 47 ∨ b = 63 ∨ b = 35) {P : Bytes}
    (hP : u.printedAuthority.port = some P) : b ∉ P := by
  rw [printedAuthority] at hP
  dsimp only at hP
  split at hP
  · cases hP
  · intro hmem
    rw [← Option.some.inj hP] at hmem
    rcases mem_intText hmem with h | h
    · rw [h] at hb
      exact absurd hb (by decide)
    · rcases hb with rfl | rfl | rfl | rfl
      · exact absurd h (by decide)
      · exact absurd h (by decide)
      · exact absurd h (by decide)
      · exact absurd h (by decide)

theorem printed_authority_delimited : u.printedAuthority.Delimited := by
  have hhost := UriParser.hosts u.host hu.host
  refine ⟨?_, hhost, fun P hP => not_mem_printed_port (Or.inl rfl) hP, ?_⟩
  · exact fun U hU => not_mem_of_uses (by decide) (printed_userinfo_mem hu hU)
  · intro b hb
    rw [Authority.text, List.mem_append, List.mem_append, not_or, not_or]
    refine ⟨?_, ?_, ?_⟩
    · cases huserinfo : u.printedAuthority.userinfo with
      | none =>
        rw [Authority.userinfoText, huserinfo]
        simp
      | some U =>
        have hU := printed_userinfo_mem hu huserinfo
        rw [Authority.userinfoText, huserinfo, Option.map_some, Option.getD_some, List.mem_append,
          not_or]
        rcases hb with rfl | rfl | rfl
        · exact ⟨not_mem_of_uses (by decide) hU, by decide⟩
        · exact ⟨not_mem_of_uses (by decide) hU, by decide⟩
        · exact ⟨not_mem_of_uses (by decide) hU, by decide⟩
    · rcases hb with rfl | rfl | rfl
      · exact hhost.slash
      · exact hhost.question
      · exact hhost.hash
    · cases hport : u.printedAuthority.port with
      | none =>
        rw [Authority.portText, hport]
        simp
      | some P =>
        have hP := not_mem_printed_port (Or.inr hb) hport
        rw [Authority.portText, hport, Option.map_some, Option.getD_some, List.mem_cons, not_or]
        refine ⟨?_, hP⟩
        rcases hb with rfl | rfl | rfl
        · decide
        · decide
        · decide

theorem printed_query_mem {q : Bytes} (hq : u.printed.query = some q) : q ∈ UriParser.query.lang := by
  rw [printed] at hq
  dsimp only at hq
  split at hq
  · cases hq
  · exact Option.some.inj hq ▸ hu.query

/-- What is written can be taken apart again. -/
theorem printed_delimited : u.printed.Delimited where
  scheme s hs := Option.some.inj hs ▸ hu.scheme
  authority a ha := Option.some.inj ha ▸ printed_authority_delimited hu
  path := hu.path
  query q hq := not_mem_of_uses (by decide) (printed_query_mem hu hq)

omit hu in
theorem printed_port_mem (hport : 0 ≤ u.port) {P : Bytes} (hP : u.printedAuthority.port = some P) :
    P ∈ UriParser.port.lang := by
  rw [printedAuthority] at hP
  dsimp only at hP
  split at hP
  · cases hP
  · rw [← Option.some.inj hP, intText, if_neg (by omega)]
    exact mem_star_of_bytes fun b hb => ⟨b, List.all_eq_true.mp (decimal_all _) b hb, rfl⟩

theorem printed_wellFormed (hport : 0 ≤ u.port) : u.printed.WellFormed UriParser.host.lang where
  scheme s hs := Option.some.inj hs ▸ hu.scheme
  authority a ha := by
    rw [← Option.some.inj ha]
    exact ⟨fun U hU => printed_userinfo_mem hu hU, hu.host,
      fun P hP => printed_port_mem hport hP⟩
  path := hu.path
  query q hq := printed_query_mem hu hq
  fragment f hf := by
    rw [printed] at hf
    dsimp only at hf
    split at hf
    · cases hf
    · exact Option.some.inj hf ▸ hu.fragment

end Readable

/-! ## Reading what is written -/

section Reread

variable {u : Uri}

theorem getPath_ne_nil (u : Uri) : u.getPath ≠ [] := by
  rw [getPath]
  split
  · exact List.cons_ne_nil _ _
  · assumption

theorem getPath_ofParts_printed (u : Uri) : (ofParts u.printed).getPath = u.getPath := by
  have hpath : (ofParts u.printed).path = u.getPath := rfl
  rw [getPath, hpath, if_neg (getPath_ne_nil u)]

/-- A default port is not written, and it is the one that is returned without it. -/
theorem getPort_of_isDefaultPort (h : u.isDefaultPort = true) : u.getPort = defaultPort u.scheme := by
  rw [getPort_eq]
  by_cases hzero : u.port = 0
  · rw [if_neg (not_not_intro hzero)]
  · rw [if_pos hzero]
    unfold isDefaultPort at h
    unfold defaultPort
    rw [if_neg hzero] at h
    split at h
    · rename_i hhttp
      rw [if_pos hhttp]
      exact of_decide_eq_true h
    · rename_i hhttp
      rw [if_neg hhttp]
      split at h
      · rename_i hhttps
        rw [if_pos hhttps]
        exact of_decide_eq_true h
      · cases h

theorem getPort_ofParts_printed (hport : 0 ≤ u.port) (hlt : u.port < 2 ^ 31) :
    (ofParts u.printed).getPort = u.getPort := by
  by_cases hdefault : u.isDefaultPort = true
  · have hzero : (ofParts u.printed).port = 0 := by
      show UriParser.portValue (u.printedAuthority.port.getD []) = 0
      rw [printedAuthority, if_pos hdefault]
      exact portValue_nil
    rw [getPort_of_isDefaultPort hdefault, getPort_eq, if_neg (not_not_intro hzero)]
    rfl
  · have hsame : (ofParts u.printed).port = u.port := by
      show UriParser.portValue (u.printedAuthority.port.getD []) = u.port
      rw [printedAuthority]
      dsimp only
      rw [if_neg hdefault]
      exact portValue_intText hport hlt
    rw [getPort_eq, getPort_eq, hsame]
    rfl

theorem userinfo_ofParts_printed (u : Uri) :
    (ofParts u.printed).userinfo = UriParser.savedUserinfo u.userinfo := by
  show ((u.printedAuthority.userinfo).map UriParser.savedUserinfo).getD [] = _
  rw [printedAuthority]
  dsimp only
  split
  · rename_i hnil
    rw [hnil]
    rfl
  · rfl

theorem getD_ite_nil (w : Bytes) : (if w = [] then none else some w).getD [] = w := by
  split
  · rename_i hnil
    exact hnil.symm
  · rfl

/-- All but the userinfo is read back. -/
theorem getters_ofParts_printed (hport : 0 ≤ u.port) (hlt : u.port < 2 ^ 31) :
    (ofParts u.printed).getters = u.getters ↔ ¬ UriParts.DigitBehindColon u.userinfo := by
  rw [← savedUserinfo_eq_iff, ← userinfo_ofParts_printed]
  constructor
  · exact fun h => congrArg UriGetters.userinfo h
  · intro h
    have hquery : (ofParts u.printed).query = u.query := getD_ite_nil u.query
    have hfragment : (ofParts u.printed).fragment = u.fragment := getD_ite_nil u.fragment
    rw [getters, getters, h, hquery, hfragment, getPath_ofParts_printed,
      getPort_ofParts_printed hport hlt]
    rfl

/-- What is written of a port that is negative is not a port. -/
theorem create_toString_of_neg (hu : u.WellFormed) (hport : u.port < 0) (v : Uri) :
    create u.toString ≠ some (some v) := by
  intro hcreate
  obtain ⟨hc, -⟩ := exists_parts (mem_of_create hcreate)
  rw [toString_eq, Rfc3986.components_text (printed_delimited hu)] at hc
  have hminus : u.printedAuthority.port = some (intText u.port) := by
    rw [printedAuthority, isDefaultPort_of_neg hport]
    rfl
  have hmem := (hc.authority _ rfl).port _ hminus
  have hfirst : (45 : UInt8) ∈ intText u.port := by
    rw [intText, if_pos hport]
    exact List.mem_append_left _ (List.mem_singleton_self _)
  exact not_mem_of_uses (by decide) hmem hfirst

theorem create_toString (hu : u.WellFormed) (hport : 0 ≤ u.port) :
    create u.toString = some (some (ofParts u.printed)) := by
  have hhollow : ¬ u.printed.Hollow := by
    intro h
    have hempty : u.printedAuthority.port = some [] := h.2
    have hmem := printed_port_mem hport hempty
    rw [printedAuthority] at hempty
    dsimp only at hempty
    split at hempty
    · cases hempty
    · have hnil := Option.some.inj hempty
      rw [intText, List.append_eq_nil_iff, decimal] at hnil
      exact Nat.toDigits_ne_nil (List.map_eq_nil_iff.mp hnil.2)
  rw [toString_eq, create_text (printed_wellFormed hu hport), if_neg hhollow]

end Reread

end Uri

/-- What is stored can be written: a userinfo that was taken for a port is not taken for one again,
and the stored port is not negative. -/
structure UriParts.Stable (c : UriParts) : Prop where
  userinfo : ∀ U, c.authority.bind Authority.userinfo = some U →
    ¬ (DigitBehindColon U ∧ DigitBehindColon (U.dropWhile (· ≠ 58)).tail)
  port : decimalValue c.portDigits < 2 ^ 63 - 1 ∧ decimalValue c.portDigits % 2 ^ 32 < 2 ^ 31

theorem stable_userinfo_iff (c : UriParts) :
    ¬ UriParts.DigitBehindColon (Uri.ofParts c).userinfo ↔
      ∀ U, c.authority.bind Authority.userinfo = some U →
        ¬ (UriParts.DigitBehindColon U ∧
          UriParts.DigitBehindColon (U.dropWhile (· ≠ 58)).tail) := by
  rw [Uri.ofParts]
  cases c.authority.bind Authority.userinfo with
  | none =>
    rw [Option.map_none, Option.getD_none]
    have hnil : ¬ UriParts.DigitBehindColon [] := Bool.false_ne_true
    exact iff_of_true hnil fun U hU => by cases hU
  | some U =>
    rw [Option.map_some, Option.getD_some]
    have hsaved : UriParts.DigitBehindColon (UriParser.savedUserinfo U) ↔
        UriParts.DigitBehindColon U ∧ UriParts.DigitBehindColon (U.dropWhile (· ≠ 58)).tail := by
      by_cases hdigit : UriParts.DigitBehindColon U
      · have hbehind : UriParser.savedUserinfo U = (U.dropWhile (· ≠ 58)).tail := if_pos hdigit
        rw [hbehind]
        exact (and_iff_right hdigit).symm
      · rw [(savedUserinfo_eq_iff U).mpr hdigit]
        exact iff_of_false hdigit fun h => hdigit h.1
    rw [hsaved]
    constructor
    · exact fun h V hV => Option.some.inj hV ▸ h
    · exact fun h => h U rfl

namespace Uri

open Rfc3986 (components)

/-- What is written is read back as it was where it can be written, and only there. -/
theorem create_toString_iff {s : Bytes} {u : Uri} (h : create s = some (some u))
    (hscheme : (components s).scheme.isSome = true) :
    (∃ v, create u.toString = some (some v) ∧ v.getters = u.getters) ↔ (components s).Stable := by
  obtain ⟨hs, -, hu⟩ := create_eq_some_iff.mp h
  have hc := (exists_parts hs).1
  have hwell : u.WellFormed := hu ▸ wellFormed_ofParts hc hscheme
  have huserinfo := stable_userinfo_iff (components s)
  have hport := portValue_nonneg_iff (portDigits_all hc)
  have hvalue : u.port = UriParser.portValue (components s).portDigits := by
    rw [hu]
    rfl
  rw [← hvalue] at hport
  rw [← hu] at huserinfo
  -- a port that has overflowed to a negative number is written with its sign, which no grammar takes
  by_cases hnonneg : 0 ≤ u.port
  · have hcreate := create_toString hwell hnonneg
    have hgetters := getters_ofParts_printed hnonneg hwell.port
    constructor
    · intro hread
      obtain ⟨v, hv, hsame⟩ := hread
      rw [hcreate] at hv
      rw [← Option.some.inj (Option.some.inj hv)] at hsame
      exact ⟨huserinfo.mp (hgetters.mp hsame), hport.mp hnonneg⟩
    · intro hstable
      exact ⟨_, hcreate, hgetters.mpr (huserinfo.mpr hstable.userinfo)⟩
  · refine iff_of_false ?_ fun hstable => hnonneg (hport.mpr hstable.port)
    intro hread
    obtain ⟨v, hv, -⟩ := hread
    exact create_toString_of_neg hwell (by omega) v hv

/-- A text with all parts. -/
theorem create_toString_iff_all : ∃ u, create (ascii "ws://a@h:81?q#f".toList) = some (some u) ∧
    ((∃ v, create u.toString = some (some v) ∧ v.getters = u.getters) ↔
      (components (ascii "ws://a@h:81?q#f".toList)).Stable) := by
  have hcreate := create_of_accepted (s := ascii "ws://a@h:81?q#f".toList)
    (c := ⟨some (ascii "ws".toList), some ⟨some [97], [104], some [56, 49]⟩, [], some [113],
      some [102]⟩)
    (by decide +kernel) (by decide) (by decide)
  exact ⟨_, hcreate, create_toString_iff hcreate (by decide)⟩

/-- A stored port may be negative, and a userinfo may be cut again. -/
theorem create_toString_lost :
    (∃ u, create (ascii "a://h:2147483648".toList) = some (some u) ∧
      (components (ascii "a://h:2147483648".toList)).scheme.isSome = true ∧
      ∀ v, create u.toString ≠ some (some v)) ∧
    ∃ u, create (ascii "a://u:1:2@h/".toList) = some (some u) ∧
      (components (ascii "a://u:1:2@h/".toList)).scheme.isSome = true ∧
      ∀ v, create u.toString = some (some v) → v.getters ≠ u.getters := by
  constructor
  · have hc : UriParser.accepted
        ⟨some [97], some ⟨none, [104], some (ascii "2147483648".toList)⟩, [], none, none⟩ = true := by
      decide +kernel
    refine ⟨_, create_of_accepted hc (by decide) (by decide), by decide, ?_⟩
    exact create_toString_of_neg (wellFormed_ofParts (UriParser.wellFormed_of_accepted hc) rfl)
      (by decide)
  · have hc : UriParser.accepted
        ⟨some [97], some ⟨some (ascii "u:1:2".toList), [104], none⟩, [47], none, none⟩ = true := by
      decide +kernel
    refine ⟨_, create_of_accepted hc (by decide) (by decide), by decide, ?_⟩
    intro v hv
    rw [create_toString (wellFormed_ofParts (UriParser.wellFormed_of_accepted hc) rfl)
      (by decide)] at hv
    rw [← Option.some.inj (Option.some.inj hv)]
    decide

end Uri

end Azure
