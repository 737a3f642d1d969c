import Azure.Uri.Execution

/-!
# Runs through an authority

The userinfo, the host and the port have one `mark` in common.  While the machine does not know yet
what it reads it sets the mark for a host and for a port, and saves a host, also within a userinfo.
-/

namespace Azure

open Reasoning Machine Computability

namespace UriParser

open UriAction

/-- What is saved of a userinfo: a digit behind its first colon is taken for the beginning of a
port. -/
def savedUserinfo (U : Bytes) : Bytes :=
  let behind := (U.dropWhile (· ≠ 58)).tail
  if behind.head?.any isdigit then behind else U

def inAuthority (c : UriParts) (x : Bytes) : Bytes := c.schemeText ++ 47 :: 47 :: x

theorem inAuthority_append (c : UriParts) (x y : Bytes) :
    inAuthority c x ++ y = inAuthority c (x ++ y) := by
  simp [inAuthority]

def behindAuthority (c : UriParts) : Bytes := c.path ++ (c.queryText ++ c.fragmentText)

theorem text_eq {c : UriParts} {a : Authority} (hauthority : c.authority = some a) :
    c.text = inAuthority c (a.text ++ behindAuthority c) := by
  rw [UriParts.text, UriParts.authorityText, hauthority]
  simp [inAuthority, behindAuthority]

/-- A byte that does not end an authority. -/
theorem not_endsAuthority {d : UInt8} (h : d ≠ 47 ∧ d ≠ 63 ∧ d ≠ 35) : ¬ EndsAuthority (some d) := by
  intro hends
  rcases hends with hd | hd | hd | hd
  · exact h.1 (Option.some.inj hd)
  · exact h.2.1 (Option.some.inj hd)
  · exact h.2.2 (Option.some.inj hd)
  · exact Option.some_ne_none d hd

theorem savedFired_inner (saved : Bool) (x : Bytes) {ch : Option UInt8} (h : ¬ EndsAuthority ch) :
    savedFired saved x ch = [] := by
  have hpath : ¬ EndsPath ch := fun hends => h (Or.inr hends)
  rw [savedFired]
  split
  · apply fired_part_none (by decide)
    · intro hmark
      rcases hmark.2 with hbegins | hends
      · exact h (Or.inl ((begins_pathAbempty ch).mp hbegins))
      · exact hpath hends.2
    · exact fun hsave => hpath hsave.2
  · rfl

/-- Behind a host there is no host with a colon. -/
theorem fired_savedPort_none {h : Bytes} (hh : h ∈ host.lang) (ch : Option UInt8) :
    fired h ch (host.lang * colon.lang) (EndsAuthority ch) savedPort = [] := by
  apply fired_part_none (by decide)
  · intro hmark
    obtain ⟨v, hv, hhv⟩ := mem_colon_iff.mp hmark.1
    exact not_host_colon hh (List.append_nil h).symm hv (d := []) (by rw [hhv, List.append_nil])
  · intro hsave
    obtain ⟨v, hv, d, -, hvd⟩ := Language.mem_mul.mp hsave.1
    obtain ⟨v', hv', hvv⟩ := mem_colon_iff.mp hv
    exact not_host_colon hh (List.append_nil h).symm hv' (by rw [← hvd, hvv])

section Authority

variable {c : UriParts} (hc : c.WellFormed host.lang) {a : Authority}
  (hauthority : c.authority = some a)
include hc hauthority

theorem authority_mem : a.text ∈ authority.lang :=
  Rfc3986.mem_authority.mpr ⟨a, hc.authority a hauthority, rfl⟩

theorem not_mem_text {d : UInt8} (hd : d ∈ a.text) : d ≠ 47 ∧ d ≠ 63 ∧ d ≠ 35 := by
  have hnot : ∀ b, b = 47 ∨ b = 63 ∨ b = 35 → d ≠ b := by
    intro b hb heq
    exact Rfc3986.not_mem_authority hosts (hc.authority a hauthority) hb (heq ▸ hd)
  exact ⟨hnot 47 (by simp), hnot 63 (by simp), hnot 35 (by simp)⟩

open Classical in
/-- The actions of all that can be read at a place in the authority: the authority itself, a userinfo,
a host and a port. -/
theorem performed_inAuthority {b : Authority} (hb : b.WellFormed host.lang) {y : Bytes}
    {ch : Option UInt8} (hat : 64 ∉ y) (htext : b.userinfoText ++ y <+: a.text)
    (hnext : b.userinfoText ++ y ++ ch.toList <+: a.text ++ behindAuthority c) :
    uriReference.performed (inAuthority c (b.userinfoText ++ y)) ch =
      ((if b.userinfoText ++ y = [] ∧ (authority.begins ch = true ∨ EndsAuthority ch)
          then [markh] else []) ++
        ((if b.userinfoText ++ y ∈ userinfo.lang ∧ ch = some 64 then [saveUserinfo] else []) ++
          (fired y ch 1 (ch = some 58 ∨ EndsAuthority ch) savedHost ++
            fired y ch (host.lang * colon.lang) (EndsAuthority ch) savedPort)) ++
        savedFired c.scheme.isSome (b.userinfoText ++ y) ch).eraseDups := by
  have hdelim : ∀ d, d ∈ b.userinfoText ++ y → d ≠ 47 ∧ d ≠ 63 ∧ d ≠ 35 :=
    fun d hd => not_mem_text hc hauthority (htext.subset hd)
  have hpre : inAuthority c (b.userinfoText ++ y) ++ ch.toList <+: c.text := by
    obtain ⟨z, hz⟩ := hnext
    rw [text_eq hauthority, ← hz, inAuthority_append]
    exact ⟨z, inAuthority_append c _ z⟩
  have hperformed := performed_authority hc hpre (fun h => (hdelim 63 h).2.1 rfl)
    fun h => (hdelim 35 h).2.2 rfl
  rw [inAuthority, hperformed, fired_authority, fired_hostPort_behind hb hat, fired_hostPort,
    one_mul]

open Classical in
/-- In front of what is no `@` no userinfo is saved. -/
theorem performed_inAuthority_of_ne {b : Authority} (hb : b.WellFormed host.lang) {y : Bytes}
    {ch : Option UInt8} (hat : 64 ∉ y) (htext : b.userinfoText ++ y <+: a.text)
    (hnext : b.userinfoText ++ y ++ ch.toList <+: a.text ++ behindAuthority c)
    (hch : ch ≠ some 64) :
    uriReference.performed (inAuthority c (b.userinfoText ++ y)) ch =
      ((if b.userinfoText ++ y = [] ∧ (authority.begins ch = true ∨ EndsAuthority ch)
          then [markh] else []) ++
        (fired y ch 1 (ch = some 58 ∨ EndsAuthority ch) savedHost ++
          fired y ch (host.lang * colon.lang) (EndsAuthority ch) savedPort) ++
        savedFired c.scheme.isSome (b.userinfoText ++ y) ch).eraseDups := by
  have hsave : ¬ (b.userinfoText ++ y ∈ userinfo.lang ∧ ch = some 64) := fun hsave => hch hsave.2
  rw [performed_inAuthority hc hauthority hb hat htext hnext, if_neg hsave, List.nil_append]

/-! ### A host in front of a colon -/

section Host

variable {b : Authority} (hb : b.WellFormed host.lang) {h rest : Bytes} (hh : h ∈ host.lang)
  (htext : b.userinfoText ++ h <+: a.text)
include hb hh htext

omit hb in
/-- A byte of the host is none of the delimiters. -/
theorem host_delimiters {y z : Bytes} {d : UInt8} (hy : h = y ++ d :: z) :
    64 ∉ y ∧ d ≠ 64 ∧ ¬ EndsAuthority (some d) := by
  have hat : (64 : UInt8) ∉ h := not_mem_of_uses (by decide) hh
  rw [hy, List.mem_append, List.mem_cons, not_or, not_or] at hat
  refine ⟨hat.1, fun heq => hat.2.1 heq.symm, not_endsAuthority (not_mem_text hc hauthority ?_)⟩
  apply htext.subset
  rw [hy]
  simp

theorem performed_host_inner {y z : Bytes} {d : UInt8} (hy : h = y ++ d :: z) :
    uriReference.performed (inAuthority c (b.userinfoText ++ y)) (some d) =
      if y = [] then [markh] else [] := by
  obtain ⟨hat, hd, hends⟩ := host_delimiters hc hauthority hh htext hy
  have hsilent : (host : Rule).silent = true := by decide
  have hpre : b.userinfoText ++ y ++ (some d).toList <+: a.text := by
    obtain ⟨r, hr⟩ := htext
    exact ⟨z ++ r, by rw [← hr, hy]; simp⟩
  have hport : fired y (some d) (host.lang * colon.lang) (EndsAuthority (some d)) savedPort = [] := by
    apply fired_part_none (by decide)
    · intro hmark
      obtain ⟨v, hv, hyv⟩ := mem_colon_iff.mp hmark.1
      exact not_host_colon hh hy (d := []) hv (by rw [hyv, List.append_nil])
    · exact fun hsave => hends hsave.2
  rw [performed_inAuthority_of_ne hc hauthority hb hat ((List.prefix_append _ _).trans hpre)
      (hpre.trans (List.prefix_append _ _)) fun heq => hd (Option.some.inj heq), hport,
    savedFired_inner _ _ hends]
  -- the host is marked at its first byte, which is not the colon of a port
  by_cases hnil : y = []
  · have hbegins : host.begins (some d) = true := by
      rw [hnil] at hy
      exact begins_of_mem (hy ▸ hh)
    have hcolon : d ≠ 58 := by
      intro heq
      rw [heq] at hy
      exact not_host_of_colon (hy ▸ hh) (hnil ▸ Or.inr (Or.inr (Language.nil_mem_kstar _)))
    have hfired : fired y (some d) 1 (some d = some 58 ∨ EndsAuthority (some d)) savedHost =
        [markh] := by
      apply fired_part_mark hsilent (hnil ▸ Language.nil_mem_one) (Or.inl hbegins)
      intro hsave
      rcases hsave.2 with heq | hends'
      · exact hcolon (Option.some.inj heq)
      · exact hends hends'
    rw [hfired, if_pos hnil]
    split
    · rfl
    · rfl
  · have hfired : fired y (some d) 1 (some d = some 58 ∨ EndsAuthority (some d)) savedHost = [] := by
      apply fired_part_none hsilent
      · exact fun hmark => hnil ((Language.mem_one y).mp hmark.1)
      · intro hsave
        rw [one_mul] at hsave
        rcases hsave.2 with heq | hends'
        · rw [Option.some.inj heq] at hy
          exact not_host_of_colon (hy ▸ hh) hsave.1
        · exact hends hends'
    rw [hfired, if_neg hnil, if_neg fun hempty => hnil (List.append_eq_nil_iff.mp hempty.1).2]
    rfl

theorem performed_host_colon
    (hcolon : b.userinfoText ++ h ++ [58] <+: a.text) :
    uriReference.performed (inAuthority c (b.userinfoText ++ h)) (some 58) =
      (if h = [] then [markh] else []) ++ [saveHost] := by
  have hat : (64 : UInt8) ∉ h := not_mem_of_uses (by decide) hh
  have hends : ¬ EndsAuthority (some 58) := not_endsAuthority (by decide)
  have hsilent : (host : Rule).silent = true := by decide
  have hmem : h ∈ (1 : Language UInt8) * host.lang := by rwa [one_mul]
  have hnext : b.userinfoText ++ h ++ (some (58 : UInt8)).toList <+: a.text ++ behindAuthority c :=
    hcolon.trans (List.prefix_append _ _)
  rw [performed_inAuthority_of_ne hc hauthority hb hat htext hnext (by decide),
    fired_savedPort_none hh, savedFired_inner _ _ hends]
  by_cases hnil : h = []
  · have hfired : fired h (some 58) 1 ((some 58 : Option UInt8) = some 58 ∨ EndsAuthority (some 58))
        savedHost =
        [markh, saveHost] :=
      fired_part_both hsilent (hnil ▸ Language.nil_mem_one) (Or.inr ⟨by decide, Or.inl rfl⟩) hmem
        (Or.inl rfl)
    rw [hfired, if_pos hnil]
    split
    · rfl
    · rfl
  · have hfired : fired h (some 58) 1 ((some 58 : Option UInt8) = some 58 ∨ EndsAuthority (some 58))
        savedHost =
        [saveHost] :=
      fired_part_save hsilent (fun hmark => hnil ((Language.mem_one h).mp hmark.1)) hmem (Or.inl rfl)
    rw [hfired, if_neg hnil, if_neg fun hempty => hnil (List.append_eq_nil_iff.mp hempty.1).2]
    rfl

/-- A host in front of a colon is saved; the mark stays at its first byte. -/
theorem run_host_colon {r : Bytes}
    (hsplit : c.text = inAuthority c b.userinfoText ++ (h ++ 58 :: r))
    (hcolon : b.userinfoText ++ h ++ [58] <+: a.text) (x : Uri × Option Nat) :
    uriReference.complete (Uri.act c.text) (inAuthority c b.userinfoText) (h ++ 58 :: r) x =
      uriReference.complete (Uri.act c.text) (inAuthority c (b.userinfoText ++ h ++ [58])) r
        ({ x.1 with host := h }, some (inAuthority c b.userinfoText).length) := by
  have hinner := fun (y : Bytes) (d : UInt8) (z : Bytes) (hy : h = y ++ d :: z) =>
    performed_host_inner hc hauthority hb hh htext hy
  rw [complete_saved (a := saveHost) (b := markh) (Uri.act c.text) (by decide)]
  · simp only [Uri.act, Option.bind_some, piece_eq hsplit]
    rw [proceed, inAuthority_append, inAuthority_append]
  · intro d z hdz
    have hfirst := hinner [] d z hdz
    rw [List.append_nil, if_pos rfl] at hfirst
    exact hfirst
  · intro y d z hy hyz
    have hrest := hinner y d z hyz
    rw [if_neg hy] at hrest
    rw [inAuthority_append]
    exact hrest
  · rw [inAuthority_append]
    exact performed_host_colon hc hauthority hb hh htext hcolon

end Host

/-! ### The userinfo -/

section Userinfo

variable {U : Bytes} (hU : a.userinfo = some U)
include hU

theorem userinfo_mem : U ∈ userinfo.lang := (hc.authority a hauthority).userinfo U hU

omit hU in
/-- The authority as it looks while its userinfo is read. -/
theorem wellFormed_start : Authority.WellFormed host.lang ⟨none, a.host, a.port⟩ where
  userinfo u hu := (Option.some_ne_none u hu.symm).elim
  host := (hc.authority a hauthority).host
  port := (hc.authority a hauthority).port

omit hc hauthority in
theorem text_userinfo : a.text = U ++ 64 :: (a.host ++ a.portText) := by
  rw [Authority.text, Authority.userinfoText, hU, Option.map_some, Option.getD_some,
    List.append_assoc]
  rfl

theorem userinfo_delimiters {y z : Bytes} {d : UInt8} (hy : U = y ++ d :: z) :
    64 ∉ y ∧ d ≠ 64 ∧ ¬ EndsAuthority (some d) := by
  have hat := at_not_mem_userinfo (hc.authority a hauthority) hU
  rw [hy, List.mem_append, List.mem_cons, not_or, not_or] at hat
  refine ⟨hat.1, fun heq => hat.2.1 heq.symm, not_endsAuthority (not_mem_text hc hauthority ?_)⟩
  rw [text_userinfo hU, hy]
  simp

/-- In front of the `@` the userinfo is saved. -/
theorem performed_userinfo_at :
    uriReference.performed (inAuthority c U) (some 64) =
      (if U = [] then [markh] else []) ++ [saveUserinfo] := by
  have hat := at_not_mem_userinfo (hc.authority a hauthority) hU
  have hends : ¬ EndsAuthority (some 64) := not_endsAuthority (by decide)
  have hpre : [] ++ U ++ (some (64 : UInt8)).toList <+: a.text := by
    rw [text_userinfo hU]
    exact ⟨a.host ++ a.portText, by simp⟩
  have hhost : fired U (some 64) 1 ((some 64 : Option UInt8) = some 58 ∨ EndsAuthority (some 64))
      savedHost = [] := by
    apply fired_part_none (by decide)
    · intro hmark
      rcases hmark.2 with hbegins | hnext
      · exact absurd hbegins (by decide)
      · rcases hnext.2 with heq | hends'
        · exact absurd (Option.some.inj heq) (by decide)
        · exact hends hends'
    · intro hsave
      rcases hsave.2 with heq | hends'
      · exact absurd (Option.some.inj heq) (by decide)
      · exact hends hends'
  have hport : fired U (some 64) (host.lang * colon.lang) (EndsAuthority (some 64)) savedPort = [] := by
    apply fired_part_none (by decide)
    · intro hmark
      rcases hmark.2 with hbegins | hnext
      · exact absurd hbegins (by decide)
      · exact hends hnext.2
    · exact fun hsave => hends hsave.2
  have hperformed := performed_inAuthority hc hauthority (wellFormed_start hc hauthority) hat
    ((List.prefix_append _ _).trans hpre) (hpre.trans (List.prefix_append _ _))
  rw [hhost, hport, savedFired_inner _ _ hends] at hperformed
  have hsave : ([] ++ U ∈ userinfo.lang ∧ (some 64 : Option UInt8) = some 64) :=
    ⟨userinfo_mem hc hauthority hU, rfl⟩
  have hstart : Authority.userinfoText ⟨none, a.host, a.port⟩ = [] := rfl
  rw [hstart, if_pos hsave, List.nil_append] at hperformed
  rw [hperformed]
  by_cases hnil : U = []
  · have hmark : U = [] ∧ (authority.begins (some 64) = true ∨ EndsAuthority (some 64)) := by
      refine ⟨hnil, Or.inl ?_⟩
      have hmem := authority_mem hc hauthority
      rw [text_userinfo hU, hnil] at hmem
      exact begins_of_mem hmem
    rw [if_pos hmark, if_pos hnil]
    rfl
  · rw [if_neg fun hmark => hnil hmark.1, if_neg hnil]
    rfl

open Classical in
/-- A byte of the userinfo that is no colon sets the mark at the beginning, and when it can be the
first digit of a port. -/
theorem performed_userinfo_inner {y z : Bytes} {d : UInt8} (hy : U = y ++ d :: z) (hd : d ≠ 58) :
    uriReference.performed (inAuthority c y) (some d) =
      if y = [] ∨ (∃ V, 58 ∉ V ∧ y = V ++ [58]) ∧ isdigit d = true then [markh] else [] := by
  obtain ⟨hat, hd64, hends⟩ := userinfo_delimiters hc hauthority hU hy
  have hmem := userinfo_mem hc hauthority hU
  have hpre : [] ++ y ++ (some d).toList <+: a.text := by
    rw [text_userinfo hU, hy]
    exact ⟨z ++ 64 :: (a.host ++ a.portText), by simp⟩
  have hperformed := performed_inAuthority_of_ne hc hauthority (wellFormed_start hc hauthority) hat
    ((List.prefix_append _ _).trans hpre) (hpre.trans (List.prefix_append _ _))
    fun heq => hd64 (Option.some.inj heq)
  have hstart : Authority.userinfoText ⟨none, a.host, a.port⟩ = [] := rfl
  rw [savedFired_inner _ _ hends, hstart, List.nil_append] at hperformed
  rw [hperformed]
  have hsave : ¬ (y ∈ (1 : Language UInt8) * host.lang ∧
      (some d = some 58 ∨ EndsAuthority (some d))) := by
    intro hsave
    rcases hsave.2 with heq | hends'
    · exact hd (Option.some.inj heq)
    · exact hends hends'
  by_cases hnil : y = []
  · have hmark : y = [] ∧ (authority.begins (some d) = true ∨ EndsAuthority (some d)) := by
      refine ⟨hnil, Or.inl ?_⟩
      have hbegins := authority_mem hc hauthority
      rw [text_userinfo hU, hy, hnil] at hbegins
      exact begins_of_mem hbegins
    have hport : fired y (some d) (host.lang * colon.lang) (EndsAuthority (some d)) savedPort = [] := by
      apply fired_part_none (by decide)
      · intro hport
        obtain ⟨v, -, hyv⟩ := mem_colon_iff.mp hport.1
        rw [hnil] at hyv
        exact absurd hyv (by simp)
      · exact fun hport => hends hport.2
    rw [if_pos hmark, hport, if_pos (Or.inl hnil)]
    -- a host begins here as well, unless the byte is a colon
    by_cases hhost : y ∈ (1 : Language UInt8) ∧ ((host : Rule).begins (some d) = true ∨
        (host : Rule).nullable = true ∧ (some d = some 58 ∨ EndsAuthority (some d)))
    · have hfired : fired y (some d) 1 (some d = some 58 ∨ EndsAuthority (some d)) savedHost =
          [markh] := fired_part_mark (by decide) hhost.1 hhost.2 hsave
      rw [hfired]
      rfl
    · have hfired : fired y (some d) 1 (some d = some 58 ∨ EndsAuthority (some d)) savedHost = [] :=
        fired_part_none (by decide) hhost hsave
      rw [hfired]
      rfl
  · have hhost : fired y (some d) 1 (some d = some 58 ∨ EndsAuthority (some d)) savedHost = [] :=
      fired_part_none (by decide) (fun hmark => hnil ((Language.mem_one y).mp hmark.1)) hsave
    have hcolon : y ∈ host.lang * colon.lang ↔ ∃ V, 58 ∉ V ∧ y = V ++ [58] := by
      rw [mem_colon_iff]
      constructor
      · intro h
        obtain ⟨V, hV, hyV⟩ := h
        refine ⟨V, colon_not_mem_of_host (z := 58 :: d :: z) ?_ hV, hyV⟩
        rw [hy, hyV] at hmem
        simpa using hmem
      · intro h
        obtain ⟨V, hV, hyV⟩ := h
        refine ⟨V, host_of_userinfo (z := d :: z) ?_ hV, hyV⟩
        rw [hy, hyV] at hmem
        simpa using hmem
    rw [hhost, if_neg fun hmark => hnil hmark.1]
    by_cases hport : (∃ V, 58 ∉ V ∧ y = V ++ [58]) ∧ isdigit d = true
    · have hfired : fired y (some d) (host.lang * colon.lang) (EndsAuthority (some d)) savedPort =
          [markh] :=
        fired_part_mark (by decide) (hcolon.mpr hport.1) (Or.inl hport.2)
          fun hport => hends hport.2
      rw [hfired, if_pos (Or.inr hport)]
      rfl
    · have hfired : fired y (some d) (host.lang * colon.lang) (EndsAuthority (some d)) savedPort =
          [] := by
        apply fired_part_none (by decide)
        · intro hmark
          rcases hmark.2 with hbegins | hnext
          · exact hport ⟨hcolon.mp hmark.1, hbegins⟩
          · exact hends hnext.2
        · exact fun hsave => hends hsave.2
      rw [hfired, if_neg]
      · rfl
      · exact fun h => h.elim hnil hport

/-- A second colon in the userinfo begins nothing and ends nothing. -/
theorem performed_userinfo_colon {y z : Bytes} (hy : U = y ++ 58 :: z) (hcolon : 58 ∈ y) :
    uriReference.performed (inAuthority c y) (some 58) = [] := by
  obtain ⟨hat, -, hends⟩ := userinfo_delimiters hc hauthority hU hy
  have hne : y ≠ [] := List.ne_nil_of_mem hcolon
  have hpre : [] ++ y ++ (some (58 : UInt8)).toList <+: a.text := by
    rw [text_userinfo hU, hy]
    exact ⟨z ++ 64 :: (a.host ++ a.portText), by simp⟩
  have hhost : fired y (some 58) 1 ((some 58 : Option UInt8) = some 58 ∨ EndsAuthority (some 58))
      savedHost = [] := by
    apply fired_part_none (by decide)
    · exact fun hmark => hne ((Language.mem_one y).mp hmark.1)
    · intro hsave
      rw [one_mul] at hsave
      exact colon_not_mem_of_host (hy ▸ userinfo_mem hc hauthority hU) hsave.1 hcolon
  have hport : fired y (some 58) (host.lang * colon.lang) (EndsAuthority (some 58)) savedPort =
      [] := by
    apply fired_part_none (by decide)
    · intro hmark
      rcases hmark.2 with hbegins | hnext
      · exact absurd hbegins (by decide)
      · exact hends hnext.2
    · exact fun hsave => hends hsave.2
  have hperformed := performed_inAuthority_of_ne hc hauthority (wellFormed_start hc hauthority) hat
    ((List.prefix_append _ _).trans hpre) (hpre.trans (List.prefix_append _ _)) (by decide)
  have hstart : Authority.userinfoText ⟨none, a.host, a.port⟩ = [] := rfl
  rw [savedFired_inner _ _ hends, hhost, hport, hstart, List.nil_append,
    if_neg fun hmark => hne hmark.1] at hperformed
  rw [hperformed]
  rfl

open Classical in
/-- Behind the first colon only the digit next to it begins something. -/
theorem performed_userinfo_behind {V y z : Bytes} {d : UInt8} (hV : 58 ∉ V)
    (hy : U = V ++ 58 :: (y ++ d :: z)) :
    uriReference.performed (inAuthority c (V ++ 58 :: y)) (some d) =
      if y = [] ∧ isdigit d = true then [markh] else [] := by
  have hU' : U = (V ++ 58 :: y) ++ d :: z := by rw [hy]; simp
  by_cases hd : d = 58
  · rw [hd] at hU' ⊢
    rw [performed_userinfo_colon hc hauthority hU hU' (by simp), if_neg]
    exact fun h => absurd h.2 (by decide)
  · rw [performed_userinfo_inner hc hauthority hU hU' hd]
    apply if_congr _ rfl rfl
    constructor
    · intro h
      rcases h with h | ⟨⟨W, hW, hWy⟩, hdigit⟩
      · exact absurd h (by simp)
      · refine ⟨?_, hdigit⟩
        have hcut := Rfc3986.cut_append hV (some y)
        have hcut' := Rfc3986.cut_append hW (some [])
        have hboth : (V, some y) = (W, some []) := by
          rw [← hcut, ← hcut']
          exact congrArg _ hWy
        exact Option.some.inj (congrArg Prod.snd hboth)
    · intro h
      rw [h.1]
      exact Or.inr ⟨⟨V, hV, rfl⟩, h.2⟩

omit hc hauthority hU in
theorem savedUserinfo_colon {V D : Bytes} (hV : 58 ∉ V) :
    savedUserinfo (V ++ 58 :: D) = if D.head?.any isdigit then D else V ++ 58 :: D := by
  have hdrop : (V ++ 58 :: D).dropWhile (· ≠ 58) = 58 :: D :=
    Rfc3986.dropWhile_append (fun b hb => decide_eq_true fun heq => hV (heq ▸ hb)) (by simp)
  rw [savedUserinfo, hdrop]
  rfl

omit hc hauthority hU in
theorem savedUserinfo_of_not_mem (hcolon : 58 ∉ U) : savedUserinfo U = U := by
  have hdrop : U.dropWhile (· ≠ 58) = [] := by
    have happend := Rfc3986.dropWhile_append (p := (· ≠ 58)) (x := U) (y := [])
      (fun b hb => decide_eq_true fun heq => hcolon (heq ▸ hb)) (by simp)
    rwa [List.append_nil] at happend
  rw [savedUserinfo, hdrop]
  rfl

/-- The userinfo is saved, or what can be a port behind its first colon.  Up to the colon it is
saved as a host too. -/
theorem run_userinfo {r : Bytes} (hsplit : c.text = inAuthority c [] ++ (U ++ 64 :: r)) (v : Uri)
    (m : Option Nat) :
    ∃ h, uriReference.complete (Uri.act c.text) (inAuthority c []) (U ++ 64 :: r) (v, m) =
      uriReference.complete (Uri.act c.text) (inAuthority c (U ++ [64])) r
        ({ v with userinfo := savedUserinfo U, host := h }, none) := by
  have hat := performed_userinfo_at hc hauthority hU
  by_cases hcolon : 58 ∈ U
  · obtain ⟨V, D, hUV, hV⟩ := List.eq_append_cons_of_mem hcolon
    have hne : U ≠ [] := List.ne_nil_of_mem hcolon
    have hmem := userinfo_mem hc hauthority hU
    rw [hUV] at hmem
    have htext := text_userinfo hU
    rw [hUV, List.append_assoc] at htext
    have hsplit' : c.text = inAuthority c [] ++ (V ++ 58 :: (D ++ 64 :: r)) := by
      rw [hsplit, hUV, List.append_assoc]
      rfl
    have hhost := run_host_colon hc hauthority (wellFormed_start hc hauthority)
      (host_of_userinfo hmem hV) ⟨_, htext.symm⟩ hsplit'
      ⟨D ++ 64 :: (a.host ++ a.portText), by rw [htext]; simp [Authority.userinfoText]⟩ (v, m)
    have hstart : Authority.userinfoText ⟨none, a.host, a.port⟩ = [] := rfl
    rw [hstart, List.nil_append] at hhost
    rw [if_neg hne, List.nil_append] at hat
    refine ⟨V, ?_⟩
    have hbehind := fun (y : Bytes) (d : UInt8) (z : Bytes) (hD : D = y ++ d :: z) =>
      performed_userinfo_behind hc hauthority hU (y := y) (d := d) (z := z) hV (by rw [hUV, hD])
    have hplace : ∀ y, inAuthority c (V ++ [58]) ++ y = inAuthority c (V ++ 58 :: y) := by
      intro y
      rw [inAuthority_append, List.append_assoc]
      rfl
    rw [hUV, List.append_assoc, List.cons_append, hhost, savedUserinfo_colon hV, ← hUV]
    by_cases hdigit : D.head?.any isdigit = true
    · -- the digit sets the mark
      have hneD : D ≠ [] := by
        intro hnil
        rw [hnil] at hdigit
        cases hdigit
      rw [if_pos hdigit, complete_saved (a := saveUserinfo) (b := markh) (Uri.act c.text) (by decide)]
      · have hsplit'' : c.text = inAuthority c (V ++ [58]) ++ (D ++ 64 :: r) := by
          rw [hsplit', inAuthority_append, inAuthority_append]
          simp
        simp only [Uri.act, Option.bind_some, piece_eq hsplit'']
        rw [proceed, hplace, ← hUV, inAuthority_append]
      · intro d z hdz
        have hfirst := hbehind [] d z hdz
        rw [hdz] at hdigit
        rw [hfirst, if_pos ⟨rfl, hdigit⟩]
      · intro y d z hy hyz
        rw [hplace, hbehind y d z hyz, if_neg fun h => hy h.1]
      · rw [hplace, ← hUV, if_neg hneD]
        exact hat
    · -- the mark is still that of the host
      rw [if_neg hdigit, complete_append, complete_cons, hplace, ← hUV, hat]
      · simp only [List.foldlM_cons, List.foldlM_nil, Uri.act]
        have hpiece := piece_eq hsplit
        rw [inAuthority_append, List.nil_append] at hpiece
        rw [hpiece, inAuthority_append]
        rfl
      · intro y d z hyz
        rw [hplace, hbehind y d z hyz, if_neg]
        intro h
        rw [h.1] at hyz
        rw [hyz] at hdigit
        exact hdigit h.2
  · refine ⟨v.host, ?_⟩
    rw [complete_saved (a := saveUserinfo) (b := markh) (Uri.act c.text) (by decide)]
    · simp only [Uri.act, Option.bind_some, piece_eq hsplit]
      rw [proceed, inAuthority_append, inAuthority_append, savedUserinfo_of_not_mem hcolon]
      rfl
    · intro d z hdz
      have hd : d ≠ 58 := fun heq => hcolon (by rw [hdz, heq]; simp)
      rw [performed_userinfo_inner hc hauthority hU (y := []) hdz hd, if_pos (Or.inl rfl)]
    · intro y d z hy hyz
      have hd : d ≠ 58 := fun heq => hcolon (by rw [hyz, heq]; simp)
      rw [inAuthority_append, List.nil_append,
        performed_userinfo_inner hc hauthority hU hyz hd, if_neg]
      intro h
      rcases h with h | ⟨⟨W, -, hW⟩, -⟩
      · exact hy h
      · exact hcolon (by rw [hyz, hW]; simp)
    · rw [inAuthority_append]
      exact hat

end Userinfo

end Authority

end UriParser

end Azure
