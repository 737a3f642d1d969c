import Azure.Uri.Boundary

/-!
# `Uri::Create`

The stages of a run, from the scheme to the fragment, put together: what is made of a text is a
function of its parts.
-/

namespace Azure

open Reasoning Machine Computability

def UriParts.Hollow (c : UriParts) : Prop :=
  c.scheme.isSome = true ∧ c.authority.bind Authority.port = some []

instance (c : UriParts) : Decidable c.Hollow := inferInstanceAs (Decidable (_ ∧ _))

def Uri.ofParts (c : UriParts) : Uri where
  scheme := c.scheme.getD []
  userinfo := ((c.authority.bind Authority.userinfo).map UriParser.savedUserinfo).getD []
  host := (c.authority.map Authority.host).getD []
  path := if c.scheme.isSome ∧ c.authority.isSome then c.path else []
  query := c.query.getD []
  fragment := c.fragment.getD []
  port := UriParser.portValue ((c.authority.bind Authority.port).getD [])

namespace UriParser

open UriAction

section Runs

variable {c : UriParts} (hc : c.WellFormed host.lang)
include hc

/-- The scheme is saved up to its colon. -/
theorem run_scheme {s : Bytes} (hscheme : c.scheme = some s) (x : Uri × Option Nat) :
    uriReference.complete (Uri.act c.text) [] c.text x =
      uriReference.complete (Uri.act c.text) c.schemeText
        (c.authorityText ++ (c.path ++ (c.queryText ++ c.fragmentText)))
        ({ x.1 with scheme := s }, none) := by
  have hs := hc.scheme s hscheme
  have htext : c.schemeText = s ++ [58] := by
    rw [UriParts.schemeText, hscheme]
    rfl
  have hsplit : c.text = [] ++ (s ++ 58 :: (c.authorityText ++ (c.path ++ (c.queryText ++
      c.fragmentText)))) := by
    rw [UriParts.text, htext]
    simp
  have hsilent : (cat alpha (star (oneOf [alpha, digit, among "+-."])) : Rule).silent = true := by
    decide
  have hpart := complete_part (r := uriReference) (Uri.act c.text) hsilent
    (a := saveScheme) (b := marku) (by decide) (k := fun ch => ch = some 58) (u := [])
    (t := 58 :: (c.authorityText ++ (c.path ++ (c.queryText ++ c.fragmentText)))) hs
    (fun d hd h => colon_not_mem_scheme hs (Option.some.inj h ▸ hd)) rfl ?_ x
  · have hpiece := piece_eq hsplit
    have hwhole : s ++ 58 :: (c.authorityText ++ (c.path ++ (c.queryText ++ c.fragmentText))) =
        c.text := hsplit.symm
    rw [hwhole] at hpart
    rw [hpart, htext]
    simp only [Uri.act, Option.bind_some, hpiece, Option.map_some]
    rfl
  · intro y ch hy
    have hpre : y <+: s := by
      rcases hy with ⟨d, z, hyz, -⟩ | ⟨hy, -⟩
      · exact ⟨d :: z, hyz.symm⟩
      · rw [hy]
    exact performed_scheme hs ch hpre

/-- In front of the second slash nothing is performed. -/
theorem performed_slash {y : Bytes} (hy : c.schemeText ++ y ++ [47] <+: c.text)
    (hslashes : ∀ z, y ≠ 47 :: 47 :: z) (hquestion : 63 ∉ y) (hhash : 35 ∉ y) :
    uriReference.performed (c.schemeText ++ y) (some 47) = [] := by
  cases hscheme : c.scheme with
  | none =>
    rw [UriParts.schemeText, hscheme, Option.map_none, Option.getD_none, List.nil_append] at hy ⊢
    rcases performed_relativePart (c := some 47) (noScheme_text hc hscheme) hy hquestion hhash with h | h
    · rw [h, fired_relativePart_front hslashes]
      rfl
    · obtain ⟨b, hb, hne⟩ := h.2.1
      exact absurd (Option.some.inj hb).symm hne
  | some s =>
    rw [UriParts.schemeText, hscheme, Option.map_some, Option.getD_some,
      performed_hierPart (hc.scheme s hscheme) _ hquestion hhash, fired_hierPart_front hslashes]
    rfl

/-- The slashes in front of the authority. -/
theorem run_slashes {a : Authority} (hauthority : c.authority = some a) (x : Uri × Option Nat) :
    uriReference.complete (Uri.act c.text) c.schemeText
        (47 :: 47 :: (a.text ++ behindAuthority c)) x =
      uriReference.complete (Uri.act c.text) (inAuthority c []) (a.text ++ behindAuthority c) x := by
  have htext := text_eq hauthority
  have hfirst := performed_slash hc (y := [])
    ⟨47 :: (a.text ++ behindAuthority c), by rw [htext]; simp [inAuthority]⟩ (by simp) (by simp)
    (by simp)
  have hsecond := performed_slash hc (y := [47])
    ⟨a.text ++ behindAuthority c, by rw [htext]; simp [inAuthority]⟩ (by simp) (by decide)
    (by decide)
  rw [List.append_nil] at hfirst
  rw [complete_cons, hfirst, List.foldlM_nil]
  show uriReference.complete _ (c.schemeText ++ [47]) _ x = _
  rw [complete_cons, hsecond, List.foldlM_nil, inAuthority, List.append_assoc]
  rfl

/-- A path without an authority leaves the result as it is. -/
theorem run_front (hauthority : c.authority = none) (v : Uri) (m : Option Nat) :
    ∃ m', uriReference.complete (Uri.act c.text) c.schemeText
        (c.path ++ (c.queryText ++ c.fragmentText)) (v, m) =
      uriReference.proceed (Uri.act c.text) (c.schemeText ++ c.path)
        (c.queryText ++ c.fragmentText) (v, m') := by
  have htext : c.text = c.schemeText ++ (c.path ++ (c.queryText ++ c.fragmentText)) := by
    rw [UriParts.text, UriParts.authorityText, hauthority]
    rfl
  -- what is performed in front of the path and behind it
  have hfirst : ∀ ch : Option UInt8, c.schemeText ++ [] ++ ch.toList <+: c.text →
      ∃ m', (uriReference.performed c.schemeText ch).foldlM
        (fun x e => Uri.act c.text c.schemeText.length e x) (v, m) = some (v, m') := by
    intro ch hch
    have hperformed := performed_path hc hauthority hch (List.nil_prefix)
    rw [List.append_nil] at hperformed
    rcases hperformed with h | h
    · exact ⟨m, by rw [h]; rfl⟩
    · exact ⟨some c.schemeText.length, by rw [h.2]; rfl⟩
  have hlater : ∀ (y : Bytes) (ch : Option UInt8), y ≠ [] → y <+: c.path →
      c.schemeText ++ y ++ ch.toList <+: c.text →
        uriReference.performed (c.schemeText ++ y) ch = [] := by
    intro y ch hne hy hch
    rcases performed_path hc hauthority hch hy with h | h
    · exact h
    · exact absurd h.1 hne
  cases hpath : c.path with
  | nil =>
    obtain ⟨m', hm'⟩ := hfirst (c.queryText ++ c.fragmentText).head? (by
      rw [htext, hpath, List.nil_append, List.append_nil]
      exact append_head_front _ _)
    refine ⟨m', ?_⟩
    rw [List.nil_append, complete_eq, hm', List.append_nil]
    rfl
  | cons b p =>
    obtain ⟨m', hm'⟩ := hfirst (some b) (by
      rw [htext, hpath]
      exact ⟨p ++ (c.queryText ++ c.fragmentText), by simp⟩)
    refine ⟨m', ?_⟩
    have hplace : ∀ y, c.schemeText ++ [b] ++ y = c.schemeText ++ b :: y := by simp
    rw [List.cons_append, complete_cons, hm', Option.bind_some, complete_append, complete_eq, hplace,
      hlater (b :: p) _ (List.cons_ne_nil b p) (hpath ▸ List.prefix_refl _)]
    · rfl
    · rw [htext, hpath, ← List.append_assoc]
      exact append_head_front _ _
    · intro y d z hyz
      rw [hplace]
      apply hlater (b :: y) (some d) (List.cons_ne_nil b y)
      · exact ⟨d :: z, by rw [hpath, hyz]; rfl⟩
      · rw [htext, hpath, hyz]
        exact ⟨z ++ (c.queryText ++ c.fragmentText), by simp⟩

section Authority

variable {a : Authority} (hauthority : c.authority = some a)
include hauthority

theorem run_users (v : Uri) (m : Option Nat) :
    ∃ h m', uriReference.complete (Uri.act c.text) (inAuthority c [])
        (a.text ++ behindAuthority c) (v, m) =
      uriReference.complete (Uri.act c.text) (inAuthority c a.userinfoText)
        (a.host ++ (a.portText ++ behindAuthority c))
        ({ v with userinfo := (a.userinfo.map savedUserinfo).getD v.userinfo, host := h }, m') := by
  cases huserinfo : a.userinfo with
  | none =>
    refine ⟨v.host, m, ?_⟩
    rw [Authority.text, Authority.userinfoText, huserinfo, Option.map_none, Option.map_none,
      Option.getD_none, Option.getD_none, List.nil_append, List.append_assoc]
  | some U =>
    have htext := text_userinfo huserinfo
    have hsplit : c.text = inAuthority c [] ++ (U ++ 64 :: (a.host ++ (a.portText ++
        behindAuthority c))) := by
      rw [text_eq hauthority, htext, inAuthority_append]
      simp
    obtain ⟨h, hrun⟩ := run_userinfo hc hauthority huserinfo hsplit v m
    refine ⟨h, none, ?_⟩
    rw [htext, List.append_assoc, List.cons_append, List.append_assoc, hrun, Authority.userinfoText,
      huserinfo]
    rfl

/-- The colon in front of the port. -/
theorem run_colon {P : Bytes} (hport : a.port = some P) (x : Uri × Option Nat) :
    uriReference.complete (Uri.act c.text) (inAuthority c a.userinfoText)
        (a.host ++ (a.portText ++ behindAuthority c)) x =
      uriReference.complete (Uri.act c.text) (inAuthority c (a.userinfoText ++ (a.host ++ [58])))
        (P ++ behindAuthority c)
        ({ x.1 with host := a.host }, some (inAuthority c a.userinfoText).length) := by
  have ha := hc.authority a hauthority
  have htext := text_port hport
  have hportText : a.portText = 58 :: P := by
    rw [Authority.portText, hport]
    rfl
  have hsplit : c.text = inAuthority c a.userinfoText ++ (a.host ++ 58 :: (P ++
      behindAuthority c)) := by
    rw [text_eq hauthority, htext, inAuthority_append]
    simp
  have hrun := run_host_colon hc hauthority ha ha.host ⟨58 :: P, by rw [htext]; simp⟩ hsplit
    ⟨P, by rw [htext]; simp⟩ x
  rw [List.append_assoc] at hrun
  rw [hportText, List.cons_append, hrun]

theorem run_authority (hollow : ¬ c.Hollow) (v : Uri) (hv : v.port = 0) (m : Option Nat) :
    ∃ m', uriReference.complete (Uri.act c.text) (inAuthority c [])
        (a.text ++ behindAuthority c) (v, m) =
      uriReference.proceed (Uri.act c.text) (pathEnd c a) (c.queryText ++ c.fragmentText)
        ({ v with
            userinfo := (a.userinfo.map savedUserinfo).getD v.userinfo
            host := a.host
            port := portValue (a.port.getD [])
            path := savedPathOf c v.path }, m') := by
  obtain ⟨h, m₁, husers⟩ := run_users hc hauthority v m
  rw [husers]
  cases hport : a.port with
  | none =>
    obtain ⟨m', hrun⟩ := run_host hc hauthority hport
      { v with userinfo := (a.userinfo.map savedUserinfo).getD v.userinfo, host := h } m₁
    refine ⟨m', ?_⟩
    have hzero : portValue [] = v.port := hv.symm
    rw [Authority.portText, hport, Option.map_none, Option.getD_none, List.nil_append, hrun,
      hzero]
  | some P =>
    have hfull : ¬ (c.scheme.isSome = true ∧ P = []) := by
      intro hempty
      apply hollow
      refine ⟨hempty.1, ?_⟩
      rw [hauthority, Option.bind_some, hport, hempty.2]
    rw [run_colon hc hauthority hport]
    exact run_port hc hauthority hport hfull
      { v with userinfo := (a.userinfo.map savedUserinfo).getD v.userinfo, host := a.host } hv _

theorem run_authority_hollow (hollow : c.Hollow) (v : Uri) (m : Option Nat) :
    uriReference.complete (Uri.act c.text) (inAuthority c []) (a.text ++ behindAuthority c) (v, m) =
      none := by
  have hport : a.port = some [] := by
    have hempty := hollow.2
    rwa [hauthority, Option.bind_some] at hempty
  obtain ⟨h, m₁, husers⟩ := run_users hc hauthority v m
  rw [husers, run_colon hc hauthority hport]
  exact run_hollow hc hauthority hollow.1 hport _ _

end Authority

/-- All stages of a run. -/
theorem complete_text :
    (c.Hollow → uriReference.complete (Uri.act c.text) [] c.text ({}, none) = none) ∧
      (¬ c.Hollow → ∃ m, uriReference.complete (Uri.act c.text) [] c.text ({}, none) =
        some (Uri.ofParts c, m)) := by
  -- the scheme
  have hscheme : ∃ v : Uri, v = { scheme := c.scheme.getD [] } ∧
      uriReference.complete (Uri.act c.text) [] c.text ({}, none) =
        uriReference.complete (Uri.act c.text) c.schemeText
          (c.authorityText ++ (c.path ++ (c.queryText ++ c.fragmentText))) (v, none) := by
    cases hs : c.scheme with
    | none =>
      refine ⟨{}, rfl, ?_⟩
      rw [UriParts.text, UriParts.schemeText, hs]
      rfl
    | some s => exact ⟨_, rfl, run_scheme hc hs _⟩
  obtain ⟨v, hv, hrun⟩ := hscheme
  rw [hrun]
  cases hauthority : c.authority with
  | none =>
    constructor
    · intro hollow
      have hport := hollow.2
      rw [hauthority] at hport
      cases hport
    · intro _
      obtain ⟨m₁, hfront⟩ := run_front hc hauthority v none
      obtain ⟨m, hend⟩ := run_ending hc v m₁
      have htext : c.authorityText = [] := by
        rw [UriParts.authorityText, hauthority]
        rfl
      rw [htext, List.nil_append] at hend ⊢
      refine ⟨m, ?_⟩
      rw [hfront, hend, hv]
      simp only [Uri.ofParts, hauthority, Option.isSome_none, Bool.false_eq_true, and_false, if_false]
      rfl
  | some a =>
    have htext : c.authorityText ++ (c.path ++ (c.queryText ++ c.fragmentText)) =
        47 :: 47 :: (a.text ++ behindAuthority c) := by
      rw [UriParts.authorityText, hauthority]
      rfl
    rw [htext, run_slashes hc hauthority]
    constructor
    · exact fun hollow => run_authority_hollow hc hauthority hollow v none
    · intro hollow
      obtain ⟨m₁, hrun⟩ := run_authority hc hauthority hollow v (by rw [hv]) none
      have hplace : pathEnd c a = c.schemeText ++ (c.authorityText ++ c.path) := by
        rw [UriParts.authorityText, hauthority, pathEnd, inAuthority]
        rfl
      rw [hrun, hplace]
      obtain ⟨m, hend⟩ := run_ending hc _ m₁
      refine ⟨m, hend.trans ?_⟩
      simp only [hv, Uri.ofParts, hauthority, Option.isSome_some, and_true, savedPathOf]
      rfl

end Runs

def accepted (c : UriParts) : Bool :=
  c.scheme.all scheme.accepts &&
    (c.authority.all fun a =>
      a.userinfo.all userinfo.accepts && host.accepts a.host && a.port.all port.accepts) &&
    (if c.authority.isSome then Rfc3986.pathAbempty.accepts c.path
      else (oneOf [pathAbsolute, if c.scheme.isSome then pathRootless else pathNoscheme,
        pathEmpty]).accepts c.path) &&
    c.query.all query.accepts && c.fragment.all fragment.accepts

theorem wellFormed_of_accepted {c : UriParts} (h : accepted c = true) :
    c.WellFormed host.lang := by
  have hsome : ∀ {r : Rule} {o : Option Bytes}, r.alive = false → o.all r.accepts = true →
      ∀ w, o = some w → w ∈ r.lang := by
    intro r o hr ho w hw
    rw [hw, Option.all_some] at ho
    exact (accepts_iff hr w).mp ho
  simp only [accepted, Bool.and_eq_true] at h
  obtain ⟨⟨⟨⟨hscheme, hauthority⟩, hpath⟩, hquery⟩, hfragment⟩ := h
  refine ⟨hsome (r := scheme) (by decide) hscheme, ?_, ?_, hsome (r := query) (by decide) hquery,
    hsome (r := fragment) (by decide) hfragment⟩
  · intro a ha
    rw [ha, Option.all_some, Bool.and_eq_true, Bool.and_eq_true] at hauthority
    exact ⟨hsome (r := userinfo) (by decide) hauthority.1.1,
      (accepts_iff (by decide) _).mp hauthority.1.2, hsome (r := port) (by decide) hauthority.2⟩
  · rw [UriParts.pathLang]
    split at hpath
    · rename_i hauth
      rw [if_pos hauth]
      exact (accepts_iff (by decide) _).mp hpath
    · rename_i hauth
      rw [if_neg hauth]
      split at hpath
      · rename_i hsch
        rw [if_pos hsch]
        exact (accepts_iff (by decide) _).mp hpath
      · rename_i hsch
        rw [if_neg hsch]
        exact (accepts_iff (by decide) _).mp hpath

end UriParser

namespace Uri

open UriParser

theorem alive_uriReference : uriReference.alive = false := by decide

theorem create_of_mem {s : Bytes} (hs : s ∈ uriReference.lang) :
    create s = (uriReference.complete (act s) [] s ({}, none)).map fun x => some x.1 := by
  have herror : uriReference.scanner.isError (uriReference.after s) = false :=
    not_isError_after (w := []) (by rwa [List.append_nil])
  have hfinished := (isFinished_after s).mpr hs
  have hscan := scan_of_mem (act s) alive_uriReference hs ({}, none)
  rw [create]
  dsimp only
  rw [hscan, complete, List.length_nil, List.nil_append]
  cases uriReference.scanner.follow (act s) 0 (uriReference.after []) ({}, none) s with
  | none => rfl
  | some x =>
    rw [Option.map_some, Option.bind_some, Option.bind_some]
    dsimp only
    rw [herror, hfinished, final_after]
    rfl

theorem mem_of_create {s : Bytes} {u : Uri} (h : create s = some (some u)) :
    s ∈ uriReference.lang := by
  rw [create] at h
  dsimp only at h
  obtain ⟨⟨p, cs, x⟩, hscan, hrest⟩ := Option.bind_eq_some_iff.mp h
  dsimp only at hrest
  cases herror : uriReference.scanner.isError cs with
  | true =>
    rw [herror] at hrest
    cases hrest
  | false =>
    cases hfinished : uriReference.scanner.isFinished cs with
    | true => exact mem_of_scan (act s) alive_uriReference hscan herror hfinished
    | false =>
      rw [herror, hfinished] at hrest
      cases hrest

/-- A text of a grammar is put together from the parts it is taken apart into. -/
theorem components_of_mem {host : Rfc3986.Rule} (hhosts : Rfc3986.Hosts host.lang) {s : Bytes}
    (hs : s ∈ (Rfc3986.uriReference host).lang) :
    (Rfc3986.components s).WellFormed host.lang ∧ (Rfc3986.components s).text = s := by
  obtain ⟨c, hc, htext⟩ := Rfc3986.mem_uriReference.mp hs
  rw [← htext, Rfc3986.components_text (Rfc3986.delimited hhosts hc)]
  exact ⟨hc, rfl⟩

/-- The parts that `uri_parser` finds. -/
theorem exists_parts {s : Bytes} (hs : s ∈ uriReference.lang) :
    (Rfc3986.components s).WellFormed UriParser.host.lang ∧ (Rfc3986.components s).text = s := by
  rw [uriReference_lang] at hs
  exact components_of_mem UriParser.hosts hs

theorem text_mem {c : UriParts} (hc : c.WellFormed UriParser.host.lang) : c.text ∈ uriReference.lang := by
  rw [uriReference_lang]
  exact Rfc3986.mem_uriReference.mpr ⟨c, hc, rfl⟩

/-- What is made of a text that is put together from well formed parts. -/
theorem create_text {c : UriParts} (hc : c.WellFormed UriParser.host.lang) :
    create c.text = if c.Hollow then none else some (some (ofParts c)) := by
  obtain ⟨hhollow, hrun⟩ := complete_text hc
  rw [create_of_mem (text_mem hc)]
  by_cases h : c.Hollow
  · rw [hhollow h, if_pos h]
    rfl
  · obtain ⟨m, hm⟩ := hrun h
    rw [hm, if_neg h]
    rfl

theorem create_of_accepted {s : Bytes} {c : UriParts} (hc : accepted c = true) (hs : c.text = s)
    (hhollow : ¬ c.Hollow) : create s = some (some (ofParts c)) := by
  rw [← hs, create_text (wellFormed_of_accepted hc), if_neg hhollow]

/-- The texts that a URI is made of, and what it is. -/
theorem create_eq_some_iff {s : Bytes} {u : Uri} :
    create s = some (some u) ↔ s ∈ uriReference.lang ∧ ¬ (Rfc3986.components s).Hollow ∧
      u = ofParts (Rfc3986.components s) := by
  constructor
  · intro h
    have hs := mem_of_create h
    obtain ⟨hc, htext⟩ := exists_parts hs
    have hcreate := create_text hc
    rw [htext, h] at hcreate
    by_cases hhollow : (Rfc3986.components s).Hollow
    · rw [if_pos hhollow] at hcreate
      cases hcreate
    · rw [if_neg hhollow] at hcreate
      exact ⟨hs, hhollow, Option.some.inj (Option.some.inj hcreate)⟩
  · intro h
    obtain ⟨hc, htext⟩ := exists_parts h.1
    have hcreate := create_text hc
    rw [htext, if_neg h.2.1, ← h.2.2] at hcreate
    exact hcreate

end Uri

end Azure
