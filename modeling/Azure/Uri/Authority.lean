import Azure.Uri.Firing

/-!
# What `uri_parser` performs in an authority

In front of the `@` of an authority the machine does not know whether it reads a userinfo or a host
with its port, so it performs the actions of all of them.
-/

namespace Azure

open Reasoning Machine Computability

namespace UriParser

open UriAction

/-- `userinfo %save_userinfo "@"` -/
def users : Rule := opt (seq [leaving saveUserinfo userinfo, char '@'])

/-- `host >markh %save_host` -/
def savedHost : Rule := leaving saveHost (entering markh host)

/-- `port >markh %save_port` -/
def savedPort : Rule := leaving savePort (entering markh port)

def hostPort : Rule := cat savedHost (opt (seq [colon, savedPort]))

section Fired

variable (u : Bytes) (c : Option UInt8) (B : Language UInt8) (k : Prop)

open Classical in
theorem fired_users :
    fired u c 1 (hostPort.begins c = true ∨ hostPort.nullable = true ∧ k) users =
      if u ∈ userinfo.lang ∧ c = some 64 then [saveUserinfo] else [] := by
  have hat : ((char '@' : Rule).begins c = true ∨ (char '@' : Rule).nullable = true ∧
      (hostPort.begins c = true ∨ hostPort.nullable = true ∧ k)) ↔ c = some 64 := by
    rw [begins_char]
    exact or_iff_left fun h => Bool.false_ne_true h.1
  rw [users, fired_opt]
  show fired u c 1 _ (cat (leaving saveUserinfo userinfo) (char '@')) = _
  rw [fired, hat, fired, fired_of_silent (r := userinfo) (by decide), List.nil_append, one_mul,
    fired_of_silent (r := char '@') rfl, List.append_nil]
  by_cases h : u ∈ userinfo.lang ∧ c = some 64
  · rw [if_pos h, if_pos h]
  · rw [if_neg h, if_neg h]

open Classical in
theorem fired_authority :
    fired u c 1 k authority =
      (if u = [] ∧ (authority.begins c = true ∨ k) then [markh] else []) ++
        ((if u ∈ userinfo.lang ∧ c = some 64 then [saveUserinfo] else []) ++
          fired u c users.lang k hostPort) := by
  have henter : (u ∈ (1 : Language UInt8) ∧ ((cat users hostPort).begins c = true ∨
      (cat users hostPort).nullable = true ∧ k)) ↔ u = [] ∧ (authority.begins c = true ∨ k) := by
    have hnullable : (cat users hostPort).nullable = true := by decide
    rw [and_iff_right hnullable, Language.mem_one]
    rfl
  show fired u c 1 k (entering markh (cat users hostPort)) = _
  rw [fired, if_congr henter rfl rfl, fired, fired_users, one_mul]

theorem fired_hostPort :
    fired u c B k hostPort =
      fired u c B (c = some 58 ∨ k) savedHost ++
        fired u c (B * host.lang * colon.lang) k savedPort := by
  have hcolon : ((opt (seq [colon, savedPort]) : Rule).begins c = true ∨
      (opt (seq [colon, savedPort]) : Rule).nullable = true ∧ k) ↔ c = some 58 ∨ k := by
    show ((((char ':' : Rule).begins c || false && _) || false) = true ∨ true = true ∧ k) ↔ _
    rw [Bool.false_and, Bool.or_false, Bool.or_false, begins_char, eq_self, true_and]
    rfl
  rw [hostPort, fired, hcolon]
  congr 1
  exact fired_opt_char u c _ k ':' savedPort

end Fired

/-! ## Hosts -/

/-- In brackets nothing that ends in front of a colon is a host. -/
theorem not_host_of_colon {y z : Bytes} (h : y ++ 58 :: z ∈ host.lang) : y ∉ host.lang := by
  intro hy
  rcases (hosts _ h).brackets with ⟨hcolon, -⟩ | ⟨m, hm, heq⟩
  · exact hcolon (by simp)
  · cases y with
    | nil =>
      rw [List.nil_append, List.cons_append, List.cons_eq_cons] at heq
      exact absurd heq.1 (by decide)
    | cons b y =>
      rw [List.cons_append, List.cons_append, List.cons_eq_cons] at heq
      rcases (hosts _ hy).brackets with ⟨-, hbracket⟩ | ⟨n, -, heq'⟩
      · exact hbracket (by rw [heq.1]; simp)
      · rw [List.cons_append, List.cons_eq_cons] at heq'
        have hmem : (93 : UInt8) ∈ m := by
          have hsplit := heq.2
          rw [heq'.2, List.append_assoc, List.singleton_append] at hsplit
          rcases List.append_eq_append_iff.mp hsplit with ⟨w, hw, hw'⟩ | ⟨w, hw, hw'⟩
          · cases w with
            | nil =>
              rw [List.nil_append, List.cons_eq_cons] at hw'
              cases hw'.2
            | cons e w =>
              rw [List.cons_append, List.cons_eq_cons] at hw'
              rw [hw, ← hw'.1]
              simp
          · cases w with
            | nil =>
              rw [List.nil_append, List.cons_eq_cons] at hw'
              cases hw'.2
            | cons e w =>
              have hlen := congrArg List.length hw'
              simp at hlen
        exact hm hmem

theorem mem_colon_iff {w : Bytes} {L : Language UInt8} :
    w ∈ L * colon.lang ↔ ∃ v ∈ L, w = v ++ [58] := by
  constructor
  · intro h
    obtain ⟨v, hv, x, hx, hw⟩ := Language.mem_mul.mp h
    rw [(mem_char ':').mp hx] at hw
    exact ⟨v, hv, hw.symm⟩
  · intro h
    obtain ⟨v, hv, hw⟩ := h
    exact Language.mem_mul.mpr ⟨v, hv, [58], (mem_char ':').mpr rfl, hw.symm⟩

/-- In a host no host with a colon behind it begins. -/
theorem not_host_colon {w y z : Bytes} (hw : w ∈ host.lang) (hy : w = y ++ z) {d : Bytes} {v : Bytes}
    (hv : v ∈ host.lang) : y ≠ v ++ [58] ++ d := by
  intro heq
  rw [hy, heq, List.append_assoc, List.append_assoc] at hw
  exact not_host_of_colon hw hv

/-! ## In front of the host -/

section Userinfo

variable {a : Authority} (ha : a.WellFormed host.lang)
include ha

theorem at_not_mem_userinfo {U : Bytes} (hU : a.userinfo = some U) : 64 ∉ U :=
  not_mem_of_uses (by decide) (ha.userinfo U hU)

/-- Behind the userinfo a host begins. -/
theorem aligned_users {y : Bytes} (hy : 64 ∉ y) :
    Aligned 64 a.userinfoText y users.lang 1 := by
  intro L hL
  rw [one_mul, Language.mem_mul]
  constructor
  · intro h
    obtain ⟨x, hx, z, hz, hxz⟩ := h
    have hz64 := hL z hz
    -- the word of the grammar has a userinfo or none, and so has the text; the `@` tells which
    rcases (mem_opt _).mp hx with hx | hx
    · obtain ⟨U', hU', t, ht, hUt⟩ := Language.mem_mul.mp hx
      rw [(mem_char '@').mp ht] at hUt
      have hU64 : (64 : UInt8) ∉ U' := not_mem_of_uses (r := userinfo) (by decide) hU'
      have hcut := Rfc3986.cut_append hU64 (some z)
      cases huserinfo : a.userinfo with
      | none =>
        rw [Authority.userinfoText, huserinfo, ← hUt, Option.map_none, Option.getD_none,
          List.nil_append] at hxz
        exact absurd (hxz ▸ by simp) hy
      | some U =>
        have hcut' := Rfc3986.cut_append (at_not_mem_userinfo ha huserinfo) (some y)
        rw [Authority.userinfoText, huserinfo, ← hUt, Option.map_some, Option.getD_some,
          List.append_assoc, List.append_assoc] at hxz
        have hboth : (U', some z) = (U, some y) := by
          rw [← hcut, ← hcut']
          exact congrArg _ hxz
        rw [← Option.some.inj (congrArg Prod.snd hboth)]
        exact hz
    · rw [hx, List.nil_append] at hxz
      cases huserinfo : a.userinfo with
      | none =>
        rw [Authority.userinfoText, huserinfo, Option.map_none, Option.getD_none,
          List.nil_append] at hxz
        exact hxz ▸ hz
      | some U =>
        rw [Authority.userinfoText, huserinfo, Option.map_some, Option.getD_some] at hxz
        exact absurd (hxz ▸ by simp) hz64
  · intro h
    refine ⟨a.userinfoText, ?_, y, h, rfl⟩
    cases huserinfo : a.userinfo with
    | none =>
      rw [Authority.userinfoText, huserinfo]
      exact (mem_opt _).mpr (Or.inr rfl)
    | some U =>
      rw [Authority.userinfoText, huserinfo]
      exact (mem_opt _).mpr (Or.inl (Language.append_mem_mul (ha.userinfo U huserinfo)
        ((mem_char '@').mpr rfl)))

/-- What is performed behind the userinfo is up to the host and the port. -/
theorem fired_hostPort_behind {y : Bytes} (hy : 64 ∉ y) (c : Option UInt8) (k : Prop) :
    fired (a.userinfoText ++ y) c users.lang k hostPort = fired y c 1 k hostPort :=
  fired_aligned (aligned_users ha hy) (by decide)

end Userinfo

/-- A userinfo is cut at its first colon into a name and a userinfo. -/
theorem cut_userinfo {y z : Bytes} (h : y ++ 58 :: z ∈ userinfo.lang) (hy : 58 ∉ y) :
    y ∈ regName.lang ∧ z ∈ userinfo.lang := by
  obtain ⟨parts, hflat, hparts⟩ := Language.mem_kstar.mp h
  clear h
  induction parts generalizing y with
  | nil => exact absurd hflat (by simp)
  | cons part parts ih =>
    have hrest : ∀ v ∈ parts, v ∈ (oneOf [unreserved, pctEncoded, subDelims, colon] : Rule).lang :=
      fun v hv => hparts v (List.mem_cons_of_mem part hv)
    have hpart : part ∈ (oneOf [unreserved, pctEncoded, subDelims] : Rule).lang ∨ part = [58] := by
      rcases hparts part List.mem_cons_self with h | h | h | h
      · exact Or.inl (Or.inl h)
      · exact Or.inl (Or.inr (Or.inl h))
      · exact Or.inl (Or.inr (Or.inr h))
      · exact Or.inr ((mem_char ':').mp h)
    rw [List.flatten_cons] at hflat
    rcases hpart with hpart | hpart
    · -- the part is in front of the colon
      have hcolon : (58 : UInt8) ∉ part := not_mem_of_uses (by decide) hpart
      have hbehind : ∃ w, y = part ++ w ∧ w ++ 58 :: z = parts.flatten := by
        rcases List.append_eq_append_iff.mp hflat with ⟨w, hw, hw'⟩ | ⟨w, hw, hw'⟩
        · cases w with
          | nil => exact ⟨[], by rw [hw]; simp, hw'⟩
          | cons b w =>
            rw [List.cons_append, List.cons_eq_cons] at hw'
            exact absurd (by rw [hw, ← hw'.1]; simp) hcolon
        · exact ⟨w, hw, hw'.symm⟩
      obtain ⟨w, hw, hw'⟩ := hbehind
      obtain ⟨hname, hz⟩ := ih (fun hmem => hy (hw ▸ List.mem_append_right part hmem)) hw' hrest
      obtain ⟨front, hfront, hfronts⟩ := Language.mem_kstar.mp hname
      refine ⟨?_, hz⟩
      rw [hw, hfront]
      refine Language.mem_kstar.mpr ⟨part :: front, rfl, ?_⟩
      intro v hv
      rcases List.mem_cons.mp hv with hv | hv
      · rw [hv]
        exact hpart
      · exact hfronts v hv
    · cases y with
      | nil =>
        rw [hpart, List.nil_append, List.singleton_append, List.cons_eq_cons] at hflat
        exact ⟨Language.nil_mem_kstar _, Language.mem_kstar.mpr ⟨parts, hflat.2, hrest⟩⟩
      | cons b y =>
        rw [hpart, List.cons_append, List.cons_append, List.cons_eq_cons] at hflat
        exact absurd (by rw [hflat.1]; simp) hy

/-- Up to its first colon a userinfo is a host. -/
theorem host_of_userinfo {y z : Bytes} (h : y ++ 58 :: z ∈ userinfo.lang) (hy : 58 ∉ y) :
    y ∈ host.lang := Or.inr (Or.inr (cut_userinfo h hy).1)

/-- No host begins in a userinfo, and ends behind its first colon. -/
theorem colon_not_mem_of_host {y z : Bytes} (h : y ++ z ∈ userinfo.lang) (hy : y ∈ host.lang) :
    58 ∉ y := by
  have hbracket : (91 : UInt8) ∉ y ++ z := not_mem_of_uses (by decide) h
  rcases (hosts y hy).brackets with ⟨hcolon, -⟩ | ⟨m, -, heq⟩
  · exact hcolon
  · exact absurd (by rw [heq]; simp) hbracket

end UriParser

end Azure
