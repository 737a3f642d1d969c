import Azure.Uri.Authority

/-!
# Runs of `uri_parser`

What `Uri::Create` makes of a text that is put together from well formed parts.  The machine goes
through the parts one after another; of each part its actions save the text, or some of it.
-/

namespace Azure

open Reasoning Machine Computability

namespace UriParser

open UriAction

/-! ## What is performed where -/

theorem head_rest (c : UriParts) {b : UInt8} (hb : (c.queryText ++ c.fragmentText).head? = some b) :
    b = 63 ∨ b = 35 := by
  cases hq : c.query with
  | some q =>
    rw [UriParts.queryText, hq] at hb
    exact Or.inl (Option.some.inj hb).symm
  | none =>
    rw [UriParts.queryText, hq, Option.map_none, Option.getD_none, List.nil_append] at hb
    cases hf : c.fragment with
    | some f =>
      rw [UriParts.fragmentText, hf] at hb
      exact Or.inr (Option.some.inj hb).symm
    | none =>
      rw [UriParts.fragmentText, hf] at hb
      cases hb

section Text

variable {c : UriParts} (hc : c.WellFormed host.lang)
include hc

theorem noScheme_text (hscheme : c.scheme = none) : NoScheme c.text := by
  intro v hv hpre
  have hv47 : (47 : UInt8) ∉ v := slash_not_mem_scheme hv
  have hdelim : ∀ b, b = 47 ∨ b = 63 ∨ b = 35 → b ∉ v ++ [58] := by
    intro b hb
    rw [List.mem_append, not_or]
    rcases hb with rfl | rfl | rfl
    · exact ⟨hv47, by decide⟩
    · exact ⟨not_mem_of_uses (by decide) hv, by decide⟩
    · exact ⟨not_mem_of_uses (by decide) hv, by decide⟩
  have htext : ∃ x z, c.text = x ++ z ∧ 58 ∉ x ∧
      ∀ b, z.head? = some b → b = 47 ∨ b = 63 ∨ b = 35 := by
    rw [UriParts.text, UriParts.schemeText, hscheme, Option.map_none, Option.getD_none,
      List.nil_append]
    cases hauthority : c.authority with
    | some a =>
      refine ⟨[], _, rfl, by simp, ?_⟩
      rw [UriParts.authorityText, hauthority]
      exact fun b hb => Or.inl (Option.some.inj hb).symm
    | none =>
      obtain ⟨x, y, hxy, hcolon, -, hy⟩ := Rfc3986.colon_path hscheme hauthority hc.path
      rw [UriParts.authorityText, hauthority, Option.map_none, Option.getD_none, List.nil_append,
        hxy, List.append_assoc]
      refine ⟨x, _, rfl, hcolon, ?_⟩
      intro b hb
      cases y with
      | nil => exact Or.inr (head_rest c hb)
      | cons d y => exact Or.inl (hy b hb)
  obtain ⟨x, z, hxz, hcolon, hz⟩ := htext
  obtain ⟨rest, hrest⟩ := hpre
  rw [hxz] at hrest
  rcases List.append_eq_append_iff.mp hrest with ⟨w, hw, -⟩ | ⟨w, hw, hw'⟩
  · exact hcolon (by rw [hw]; simp)
  · cases w with
    | nil =>
      rw [List.append_nil] at hw
      exact hcolon (by rw [← hw]; simp)
    | cons b w =>
      have hb := hz b (by rw [hw']; rfl)
      exact hdelim b hb (by rw [hw]; simp)

open Classical in
noncomputable def savedFired (saved : Bool) (x : Bytes) (ch : Option UInt8) : List UriAction :=
  if saved then fired x ch authority.lang (EndsPath ch) savedPath else []

/-- Behind the slashes the machine is at work on the authority and the path. -/
theorem performed_authority {x : Bytes} {ch : Option UInt8}
    (hx : c.schemeText ++ 47 :: 47 :: x ++ ch.toList <+: c.text) (hquestion : 63 ∉ x)
    (hhash : 35 ∉ x) :
    uriReference.performed (c.schemeText ++ 47 :: 47 :: x) ch =
      (fired x ch 1 (EndsAuthority ch) authority ++
        savedFired c.scheme.isSome x ch).eraseDups := by
  have hquestion' : (63 : UInt8) ∉ 47 :: 47 :: x := by simp [hquestion]
  have hhash' : (35 : UInt8) ∉ 47 :: 47 :: x := by simp [hhash]
  cases hscheme : c.scheme with
  | none =>
    rw [UriParts.schemeText, hscheme, Option.map_none, Option.getD_none, List.nil_append] at hx ⊢
    rcases performed_relativePart (noScheme_text hc hscheme) hx hquestion' hhash' with h | h
    · rw [h, fired_relativePart_authority]
      exact congrArg _ (List.append_nil _).symm
    · cases h.1
  | some s =>
    rw [UriParts.schemeText, hscheme, Option.map_some, Option.getD_some,
      performed_hierPart (hc.scheme s hscheme) ch hquestion' hhash', fired_hierPart_authority]
    rfl

/-- Without an authority nothing is performed on the path, but that the first byte of a relative
reference may begin a scheme. -/
theorem performed_path (hauthority : c.authority = none) {y : Bytes} {ch : Option UInt8}
    (hy : c.schemeText ++ y ++ ch.toList <+: c.text) (hpath : y <+: c.path) :
    uriReference.performed (c.schemeText ++ y) ch = [] ∨
      y = [] ∧ uriReference.performed (c.schemeText ++ y) ch = [marku] := by
  have hquestion : 63 ∉ y :=
    fun hmem => Rfc3986.not_mem_path hc.path (Or.inl rfl) (hpath.subset hmem)
  have hhash : 35 ∉ y :=
    fun hmem => Rfc3986.not_mem_path hc.path (Or.inr rfl) (hpath.subset hmem)
  have hslashes : ∀ z, y ≠ 47 :: 47 :: z := by
    intro z heq
    obtain ⟨rest, hrest⟩ := hpath
    rw [heq] at hrest
    exact Rfc3986.slashes_path hauthority hc.path hrest.symm
  cases hscheme : c.scheme with
  | none =>
    rw [UriParts.schemeText, hscheme, Option.map_none, Option.getD_none, List.nil_append] at hy ⊢
    rcases performed_relativePart (noScheme_text hc hscheme) hy hquestion hhash with h | h
    · rw [h, fired_relativePart_front hslashes]
      exact Or.inl rfl
    · exact Or.inr ⟨h.1, h.2.2⟩
  | some s =>
    rw [UriParts.schemeText, hscheme, Option.map_some, Option.getD_some,
      performed_hierPart (hc.scheme s hscheme) ch hquestion hhash, fired_hierPart_front hslashes]
    exact Or.inl rfl

end Text

/-! ## The query and the fragment -/

def frontLang (c : UriParts) : Language UInt8 :=
  if c.scheme.isSome then schemeColon * hierPart.lang else relativePart.lang

section Ending

variable {c : UriParts} (hc : c.WellFormed host.lang)
include hc

/-- The text in front of the query and the fragment. -/
theorem front_mem : c.schemeText ++ (c.authorityText ++ c.path) ∈ frontLang c := by
  have hpart : ∀ paths : Rule, c.path ∈ (if c.authority.isSome then Rfc3986.pathAbempty.lang
      else Rfc3986.pathAbsolute.lang + (paths.lang + Rfc3986.pathEmpty.lang)) →
      c.authorityText ++ c.path ∈ (oneOf [seq [text "//", Rfc3986.authority host,
        Rfc3986.pathAbempty], Rfc3986.pathAbsolute, paths, Rfc3986.pathEmpty]).lang :=
    fun paths hpath => (Rfc3986.mem_part paths).mpr ⟨c.authority, c.path, hc.authority, hpath, rfl⟩
  have hpath := hc.path
  rw [UriParts.pathLang] at hpath
  rw [frontLang]
  cases hscheme : c.scheme with
  | none =>
    rw [hscheme] at hpath
    rw [UriParts.schemeText, hscheme, Option.map_none, Option.getD_none, List.nil_append,
      if_neg (by simp), relativePart_lang]
    exact hpart Rfc3986.pathNoscheme hpath
  | some s =>
    rw [hscheme] at hpath
    rw [UriParts.schemeText, hscheme, Option.map_some, Option.getD_some,
      if_pos Option.isSome_some, hierPart_lang]
    exact Language.append_mem_mul
      (Language.append_mem_mul (hc.scheme s hscheme) ((mem_char ':').mpr rfl))
      (hpart Rfc3986.pathRootless hpath)

omit hc in
theorem not_mem_frontLang (c : UriParts) {b : UInt8} (hb : b = 63 ∨ b = 35) :
    ∀ v ∈ frontLang c, b ∉ v := by
  rw [frontLang]
  split
  · apply not_mem_of_mem_mul (not_mem_schemeColon hb)
    rcases hb with rfl | rfl
    · exact fun v hv => not_mem_of_uses (by decide) hv
    · exact fun v hv => not_mem_of_uses (by decide) hv
  · rcases hb with rfl | rfl
    · exact fun v hv => not_mem_of_uses (by decide) hv
    · exact fun v hv => not_mem_of_uses (by decide) hv

theorem performed_behind {z : Bytes} {ch : Option UInt8} {b : UInt8} (hb : b = 63 ∨ b = 35)
    (hmem : b ∈ z) (hz : c.schemeText ++ z ++ ch.toList <+: c.text) :
    uriReference.performed (c.schemeText ++ z) ch =
      (fired (c.schemeText ++ z) ch (frontLang c) (ch = none) ending).eraseDups := by
  cases hscheme : c.scheme with
  | none =>
    rw [UriParts.schemeText, hscheme, Option.map_none, Option.getD_none, List.nil_append] at hz ⊢
    rw [performed_ending_relative (noScheme_text hc hscheme) hz hb hmem, frontLang, hscheme]
    rfl
  | some s =>
    rw [UriParts.schemeText, hscheme, Option.map_some, Option.getD_some,
      performed_ending (hc.scheme s hscheme) ch hb hmem, frontLang, hscheme]
    rfl

/-- Behind the question mark the machine is at work on the query. -/
theorem performed_query {p y : Bytes} (hp : c.schemeText ++ p ∈ frontLang c) {ch : Option UInt8}
    (hy : c.schemeText ++ (p ++ [63] ++ y) ++ ch.toList <+: c.text) (hhash : 35 ∉ y) :
    uriReference.performed (c.schemeText ++ (p ++ [63] ++ y)) ch =
      (fired y ch 1 (EndsQuery ch) query).eraseDups := by
  have hfront : ∀ v ∈ frontLang c, 63 ∉ v := not_mem_frontLang c (Or.inl rfl)
  have hhash' : (35 : UInt8) ∉ c.schemeText ++ p ++ [63] ++ y := by
    rw [List.mem_append, List.mem_append, not_or, not_or]
    exact ⟨⟨not_mem_frontLang c (Or.inr rfl) _ hp, by decide⟩, hhash⟩
  have hbehind := behind_delimiter hfront hp y
  have hlang : (char '?' : Rule).lang = {[63]} := lang_char '?'
  rw [← hlang] at hbehind
  rw [performed_behind hc (Or.inl rfl) (by simp) hy, fired_ending]
  have hsplit : c.schemeText ++ (p ++ [63] ++ y) = c.schemeText ++ p ++ [63] ++ y := by
    simp only [List.append_assoc]
  have hfragment : fired (c.schemeText ++ p ++ [63] ++ y) ch
      (queried (frontLang c) * (char '#' : Rule).lang) (ch = none) fragment = [] :=
    fired_of_no_prefix fun v hv hpre => hhash' (mem_of_front (mem_char_self '#') hv hpre)
  rw [hsplit, fired_behind hbehind, hfragment, List.append_nil]
  rfl

/-- Behind the hash the machine is at work on the fragment. -/
theorem performed_fragment {p y : Bytes} (hp : c.schemeText ++ p ∈ queried (frontLang c))
    {ch : Option UInt8} (hy : c.schemeText ++ (p ++ [35] ++ y) ++ ch.toList <+: c.text) :
    uriReference.performed (c.schemeText ++ (p ++ [35] ++ y)) ch =
      (fired y ch 1 (ch = none) fragment).eraseDups := by
  have hfront : ∀ v ∈ frontLang c, 35 ∉ v := not_mem_frontLang c (Or.inr rfl)
  have hqueried : ∀ v ∈ queried (frontLang c), 35 ∉ v :=
    not_mem_of_mem_mul hfront fun v hv => not_mem_of_uses (by decide) hv
  have hbehind := behind_delimiter hqueried hp y
  have hlang : (char '#' : Rule).lang = {[35]} := lang_char '#'
  rw [← hlang] at hbehind
  have hquery : ∀ v ∈ frontLang c * (char '?' : Rule).lang, 35 ∉ v :=
    not_mem_of_mem_mul hfront fun v hv => not_mem_of_uses (by decide) hv
  have hsplit : c.schemeText ++ (p ++ [35] ++ y) = c.schemeText ++ p ++ [35] ++ y := by
    simp only [List.append_assoc]
  rw [performed_behind hc (Or.inr rfl) (by simp) hy, fired_ending, hsplit, fired_behind hbehind,
    fired_of_foreign (b := 35) (by simp) hquery (by decide)]
  rfl

end Ending

/-! ## Saving the parts -/

theorem piece_eq {t u w r : Bytes} (h : t = u ++ (w ++ r)) :
    Uri.piece t (some u.length) (u ++ w).length = some w := by
  rw [h, Uri.piece, Option.map_some, List.drop_left, List.length_append, Nat.add_sub_cancel_left,
    List.take_left]

section Runs

variable {c : UriParts} (hc : c.WellFormed host.lang)
include hc

theorem run_fragment {p f : Bytes} (hp : c.schemeText ++ p ∈ queried (frontLang c))
    (hf : f ∈ fragment.lang) (htext : c.text = c.schemeText ++ (p ++ [35]) ++ f)
    (x : Uri × Option Nat) :
    uriReference.complete (Uri.act c.text) (c.schemeText ++ (p ++ [35])) f x =
      some ({ x.1 with fragment := f }, none) := by
  have hsilent : (star (oneOf [pchar, char '/', char '?']) : Rule).silent = true := by decide
  have hpart := complete_part (r := uriReference) (Uri.act c.text) hsilent
    (a := saveFragment) (b := marku) (by decide) (k := fun ch => ch = none)
    (u := c.schemeText ++ (p ++ [35])) (t := []) hf
    (fun d _ h => Option.some_ne_none d h) rfl ?_ x
  · rw [List.append_nil] at hpart
    have hpiece := piece_eq (r := []) (htext.trans (by rw [List.append_nil]))
    rw [hpart]
    simp only [Uri.act, Option.bind_some, hpiece, Option.map_some]
    rfl
  · intro y ch hy
    have hpre : y ++ ch.toList <+: f := by
      rcases hy with ⟨d, z, hyz, hd⟩ | ⟨hy, hd⟩
      · rw [hyz, hd]
        exact ⟨z, by simp⟩
      · rw [hy, hd]
        simp
    rw [List.append_assoc]
    apply performed_fragment hc hp
    rw [htext]
    obtain ⟨z, hz⟩ := hpre
    exact ⟨z, by rw [← hz]; simp only [List.append_assoc]⟩

theorem run_query {p q : Bytes} (hp : c.schemeText ++ p ∈ frontLang c) (hq : q ∈ query.lang)
    (htext : c.text = c.schemeText ++ (p ++ [63]) ++ (q ++ c.fragmentText))
    (x : Uri × Option Nat) :
    uriReference.complete (Uri.act c.text) (c.schemeText ++ (p ++ [63])) (q ++ c.fragmentText) x =
      uriReference.proceed (Uri.act c.text) (c.schemeText ++ (p ++ [63]) ++ q) c.fragmentText
        ({ x.1 with query := q }, none) := by
  have hsilent : (star (oneOf [pchar, char '/', char '?']) : Rule).silent = true := by decide
  have hhash : (35 : UInt8) ∉ q := not_mem_of_uses (r := query) (by decide) hq
  have hend : EndsQuery c.fragmentText.head? := by
    cases hf : c.fragment with
    | none => exact Or.inr (by rw [UriParts.fragmentText, hf]; rfl)
    | some f => exact Or.inl (by rw [UriParts.fragmentText, hf]; rfl)
  have hpart := complete_part (r := uriReference) (Uri.act c.text) hsilent
    (a := saveQuery) (b := marku) (by decide) (k := EndsQuery)
    (u := c.schemeText ++ (p ++ [63])) (t := c.fragmentText) hq ?_ hend ?_ x
  · have hpiece := piece_eq htext
    rw [hpart]
    simp only [Uri.act, Option.bind_some, hpiece, Option.map_some]
  · intro d hd h
    rcases h with h | h
    · exact hhash (Option.some.inj h ▸ hd)
    · exact Option.some_ne_none d h
  · intro y ch hy
    have hpre : y <+: q ∧ y ++ ch.toList <+: q ++ c.fragmentText := by
      rcases hy with ⟨d, z, hyz, hd⟩ | ⟨hy, hd⟩
      · rw [hyz, hd]
        exact ⟨⟨_, rfl⟩, ⟨z ++ c.fragmentText, by simp⟩⟩
      · rw [hy, hd]
        refine ⟨List.prefix_refl q, ?_⟩
        cases c.fragmentText with
        | nil => simp
        | cons b rest => exact ⟨rest, by simp⟩
    rw [List.append_assoc]
    apply performed_query hc hp
    · rw [htext]
      obtain ⟨z, hz⟩ := hpre.2
      exact ⟨z, by rw [← hz]; simp only [List.append_assoc]⟩
    · exact fun hmem => hhash (hpre.1.subset hmem)

/-- What comes behind the path. -/
theorem run_ending (v : Uri) (m : Option Nat) :
    ∃ m', uriReference.proceed (Uri.act c.text)
      (c.schemeText ++ (c.authorityText ++ c.path)) (c.queryText ++ c.fragmentText) (v, m) =
        some ({ v with query := c.query.getD v.query, fragment := c.fragment.getD v.fragment },
          m') := by
  have hfront := front_mem hc
  have htext : c.text = c.schemeText ++ (c.authorityText ++ c.path) ++
      (c.queryText ++ c.fragmentText) := by
    simp only [UriParts.text, List.append_assoc]
  -- the fragment, behind what is in front of it
  have hfragment : ∀ (p : Bytes) (x : Uri × Option Nat),
      c.schemeText ++ p ∈ queried (frontLang c) → c.text = c.schemeText ++ p ++ c.fragmentText →
        ∃ m', uriReference.proceed (Uri.act c.text) (c.schemeText ++ p) c.fragmentText x =
          some ({ x.1 with fragment := c.fragment.getD x.1.fragment }, m') := by
    intro p x hp hsplit
    cases hf : c.fragment with
    | none =>
      rw [UriParts.fragmentText, hf]
      exact ⟨x.2, rfl⟩
    | some f =>
      have hrest : c.fragmentText = 35 :: f := by rw [UriParts.fragmentText, hf]; rfl
      have hrun := run_fragment hc (f := f) hp (hc.fragment f hf)
        (by rw [hsplit, hrest]; simp only [List.append_assoc, List.singleton_append]) x
      rw [hrest, proceed, List.append_assoc, hrun]
      exact ⟨none, rfl⟩
  cases hq : c.query with
  | none =>
    have hrest : c.queryText = [] := by rw [UriParts.queryText, hq]; rfl
    rw [hrest, List.nil_append] at htext ⊢
    obtain ⟨m', hm'⟩ := hfragment _ (v, m)
      (by
        have hmem := Language.append_mem_mul hfront
          (show ([] : Bytes) ∈ (opt (seq [char '?', query]) : Rule).lang from Or.inr rfl)
        rwa [List.append_nil] at hmem) htext
    exact ⟨m', hm'⟩
  | some q =>
    have hrest : c.queryText = 63 :: q := by rw [UriParts.queryText, hq]; rfl
    have hqlang := hc.query q hq
    rw [hrest] at htext ⊢
    have hrun := run_query hc (p := c.authorityText ++ c.path) (q := q) hfront hqlang
      (by rw [htext]; simp) (v, m)
    obtain ⟨m', hm'⟩ := hfragment (c.authorityText ++ c.path ++ [63] ++ q) ({ v with query := q }, none)
      (by
        have hmem := Language.append_mem_mul hfront (show ([63] ++ q : Bytes) ∈
          (opt (seq [char '?', query]) : Rule).lang from
            Or.inl (Language.append_mem_mul ((mem_char '?').mpr rfl) hqlang))
        rw [List.append_assoc, ← List.append_assoc _ [63] q] at hmem
        exact hmem)
      (by rw [htext]; simp)
    rw [List.cons_append, proceed, List.append_assoc, hrun, List.append_assoc, hm']
    exact ⟨m', rfl⟩

end Runs

end UriParser

end Azure
