import Azure.Uri.Rfc3986

/-!
# The parts of a text

The parts of a URI reference are found at its delimiters, without a grammar.  For the words of a
grammar these are the parts it is put together from, and `uri_parser` is such a grammar: it differs
from that of the RFC in the hosts.
-/

namespace Azure

open Reasoning Machine Computability

namespace Rfc3986

/-- What stands in front of the first `b`, and what stands behind it. -/
def cut (b : UInt8) (s : Bytes) : Bytes × Option Bytes :=
  (s.takeWhile (· ≠ b), if b ∈ s then some (s.dropWhile (· ≠ b)).tail else none)

def cutHost (s : Bytes) : Bytes × Option Bytes :=
  if s.head? = some 91 then
    let (literal, behind) := cut 93 s
    match behind with
    | some (58 :: p) => (literal ++ [93], some p)
    | some _ => (literal ++ [93], none)
    | none => (s, none)
  else cut 58 s

def cutAuthority (s : Bytes) : Authority :=
  match cut 64 s with
  | (u, some hostport) => ⟨some u, (cutHost hostport).1, (cutHost hostport).2⟩
  | (_, none) => ⟨none, (cutHost s).1, (cutHost s).2⟩

def cutPart (s : Bytes) : Option Authority × Bytes :=
  match s with
  | 47 :: 47 :: rest =>
    (some (cutAuthority (rest.takeWhile (· ≠ 47))), rest.dropWhile (· ≠ 47))
  | _ => (none, s)

def cutScheme (s : Bytes) : Option Bytes × Bytes :=
  let name := s.takeWhile fun b => b ≠ 58 ∧ b ≠ 47
  if name ≠ [] ∧ (s.drop name.length).head? = some 58 then
    (some name, s.drop (name.length + 1))
  else (none, s)

def components (s : Bytes) : UriParts :=
  let (s, fragment) := cut 35 s
  let (s, query) := cut 63 s
  let (scheme, s) := cutScheme s
  ⟨scheme, (cutPart s).1, (cutPart s).2, query, fragment⟩

/-! ## What delimits the parts -/

theorem takeWhile_append {p : UInt8 → Bool} {x y : Bytes} (hx : ∀ b ∈ x, p b = true)
    (hy : ∀ b, y.head? = some b → p b = false) : (x ++ y).takeWhile p = x := by
  rw [List.takeWhile_append_of_pos hx]
  cases y with
  | nil => simp
  | cons b y => simp [hy b rfl]

theorem dropWhile_append {p : UInt8 → Bool} {x y : Bytes} (hx : ∀ b ∈ x, p b = true)
    (hy : ∀ b, y.head? = some b → p b = false) : (x ++ y).dropWhile p = y := by
  rw [List.dropWhile_append_of_pos hx]
  cases y with
  | nil => rfl
  | cons b y => simp [hy b rfl]

theorem cut_append {b : UInt8} {x : Bytes} (h : b ∉ x) (o : Option Bytes) :
    cut b (x ++ (o.map fun y => b :: y).getD []) = (x, o) := by
  have hx : ∀ c ∈ x, decide (c ≠ b) = true := fun c hc => decide_eq_true fun heq => h (heq ▸ hc)
  cases o with
  | none =>
    rw [Option.map_none, Option.getD_none, cut, takeWhile_append hx (by simp)]
    simp [h]
  | some y =>
    rw [Option.map_some, Option.getD_some, cut, takeWhile_append hx (by simp),
      dropWhile_append hx (by simp), if_pos (by simp)]
    rfl

structure IsHost (h : Bytes) : Prop where
  slash : 47 ∉ h
  question : 63 ∉ h
  hash : 35 ∉ h
  at_ : 64 ∉ h
  /-- A colon or a bracket is within brackets. -/
  brackets : 58 ∉ h ∧ 91 ∉ h ∨ ∃ m, 93 ∉ m ∧ h = 91 :: m ++ [93]

theorem cutHost_append {h : Bytes} (hhost : IsHost h) {o : Option Bytes} :
    cutHost (h ++ (o.map fun y => 58 :: y).getD []) = (h, o) := by
  rcases hhost.brackets with ⟨hcolon, hbracket⟩ | ⟨m, hm, heq⟩
  · have hhead : (h ++ (o.map fun y => 58 :: y).getD []).head? ≠ some 91 := by
      cases h with
      | nil => cases o <;> simp
      | cons b h =>
        rw [List.cons_append, List.head?_cons]
        intro hb
        rw [Option.some.inj hb] at hbracket
        exact hbracket List.mem_cons_self
    rw [cutHost, if_neg hhead, cut_append hcolon]
  · have hcut : cut 93 (h ++ (o.map fun y => 58 :: y).getD []) =
        (91 :: m, some ((o.map fun y => 58 :: y).getD [])) := by
      have hsplit : h ++ (o.map fun y => 58 :: y).getD [] = (91 :: m) ++
          ((some ((o.map fun y => 58 :: y).getD [])).map fun y => 93 :: y).getD [] := by
        rw [heq]
        simp
      rw [hsplit]
      apply cut_append
      rw [List.mem_cons, not_or]
      exact ⟨by decide, hm⟩
    have hhead : (h ++ (o.map fun y => 58 :: y).getD []).head? = some 91 := by
      rw [heq]
      rfl
    rw [cutHost, if_pos hhead, hcut, heq]
    cases o with
    | none => rfl
    | some p => rfl

/-- The hosts that the delimiters of an authority and of its parts can be told from. -/
def Hosts (host : Language UInt8) : Prop := ∀ h ∈ host, IsHost h

end Rfc3986

structure Authority.Delimited (a : Authority) : Prop where
  userinfo : ∀ u, a.userinfo = some u → 64 ∉ u
  host : Rfc3986.IsHost a.host
  port : ∀ p, a.port = some p → 64 ∉ p
  text : ∀ b, b = 47 ∨ b = 63 ∨ b = 35 → b ∉ a.text

structure UriParts.Delimited (c : UriParts) : Prop where
  scheme : ∀ s, c.scheme = some s → s ∈ Rfc3986.scheme.lang
  authority : ∀ a, c.authority = some a → a.Delimited
  path : c.path ∈ c.pathLang
  query : ∀ q, c.query = some q → 35 ∉ q

namespace Rfc3986

theorem cutAuthority_text {a : Authority} (ha : a.Delimited) : cutAuthority a.text = a := by
  obtain ⟨userinfo, h, port⟩ := a
  have hhost := ha.host
  cases userinfo with
  | none =>
    have hat : (64 : UInt8) ∉ h ++ (port.map fun y => 58 :: y).getD [] := by
      rw [List.mem_append, not_or]
      refine ⟨hhost.at_, ?_⟩
      cases port with
      | none => simp
      | some p =>
        rw [Option.map_some, Option.getD_some, List.mem_cons, not_or]
        exact ⟨by decide, ha.port p rfl⟩
    have hcut := cut_append hat none
    rw [Option.map_none, Option.getD_none, List.append_nil] at hcut
    show cutAuthority (h ++ (port.map fun y => 58 :: y).getD []) = _
    rw [cutAuthority, hcut]
    dsimp only
    rw [cutHost_append hhost]
  | some u =>
    have hcut := cut_append (ha.userinfo u rfl) (some (h ++ (port.map fun y => 58 :: y).getD []))
    have htext : Authority.text ⟨some u, h, port⟩ =
        u ++ ((some (h ++ (port.map fun y => 58 :: y).getD [])).map fun y => 64 :: y).getD [] := by
      show u ++ [64] ++ _ = _
      rw [List.append_assoc]
      rfl
    rw [htext, cutAuthority, hcut]
    dsimp only
    rw [cutHost_append hhost]

section Hosts

variable {host : Language UInt8} (hhosts : Hosts host)
include hhosts

theorem not_mem_authority {a : Authority} (ha : a.WellFormed host) {b : UInt8}
    (hb : b = 47 ∨ b = 63 ∨ b = 35) : b ∉ a.text := by
  have hhost := hhosts a.host ha.host
  rw [Authority.text, List.mem_append, List.mem_append, not_or, not_or]
  refine ⟨?_, ?_, ?_⟩
  · cases huserinfo : a.userinfo with
    | none => rw [Authority.userinfoText, huserinfo]; simp
    | some u =>
      rw [Authority.userinfoText, huserinfo, Option.map_some, Option.getD_some, List.mem_append,
        not_or]
      have hu := ha.userinfo u huserinfo
      rcases hb with rfl | rfl | rfl
      · exact ⟨not_mem_of_uses (by decide) hu, by decide⟩
      · exact ⟨not_mem_of_uses (by decide) hu, by decide⟩
      · exact ⟨not_mem_of_uses (by decide) hu, by decide⟩
  · rcases hb with rfl | rfl | rfl
    · exact hhost.slash
    · exact hhost.question
    · exact hhost.hash
  · cases hport : a.port with
    | none => rw [Authority.portText, hport]; simp
    | some p =>
      rw [Authority.portText, hport, Option.map_some, Option.getD_some, List.mem_cons, not_or]
      have hp := ha.port p hport
      rcases hb with rfl | rfl | rfl
      · exact ⟨by decide, not_mem_of_uses (by decide) hp⟩
      · exact ⟨by decide, not_mem_of_uses (by decide) hp⟩
      · exact ⟨by decide, not_mem_of_uses (by decide) hp⟩

theorem authority_delimited {a : Authority} (ha : a.WellFormed host) : a.Delimited where
  userinfo u hu := not_mem_of_uses (by decide) (ha.userinfo u hu)
  host := hhosts a.host ha.host
  port p hp := not_mem_of_uses (by decide) (ha.port p hp)
  text _ hb := not_mem_authority hhosts ha hb

/-- Well formed parts can be told apart. -/
theorem delimited {c : UriParts} (hc : c.WellFormed host) : c.Delimited where
  scheme := hc.scheme
  authority a ha := authority_delimited hhosts (hc.authority a ha)
  path := hc.path
  query q hq := not_mem_of_uses (by decide) (hc.query q hq)

end Hosts

/-! ## Paths -/

theorem head_abempty {p : Bytes} (hp : p ∈ pathAbempty.lang) {b : UInt8} (hb : p.head? = some b) :
    b = 47 := by
  cases p with
  | nil => cases hb
  | cons c p =>
    cases hb
    have hbegins := begins_of_mem hp
    exact of_decide_eq_true (by simpa [pathAbempty, slashSegment, seq, char, begins, nullable] using
      hbegins)

/-- Without an authority a path does not begin with two slashes. -/
theorem slashes_path {c : UriParts} (hauthority : c.authority = none) (hpath : c.path ∈ c.pathLang)
    {y : Bytes} : c.path ≠ 47 :: 47 :: y := by
  intro heq
  have hnot : ∀ r : Rule, r.begins (some 47) = false → 47 :: 47 :: y ∉ r.lang := by
    intro r hr hmem
    rw [begins_of_mem hmem] at hr
    cases hr
  have habsolute : 47 :: 47 :: y ∉ pathAbsolute.lang := by
    intro hmem
    obtain ⟨x, hx, z, hz, hxz⟩ := Language.mem_mul.mp hmem
    rw [(mem_char '/').mp hx] at hxz
    have hz' : z = 47 :: y := List.tail_eq_of_cons_eq hxz
    rcases (mem_opt _).mp hz with hz | hz
    · have hbegins := begins_of_mem (hz' ▸ hz)
      exact absurd hbegins (by decide)
    · rw [hz] at hz'
      cases hz'
  rw [UriParts.pathLang, hauthority, heq] at hpath
  cases hscheme : c.scheme with
  | none =>
    rw [hscheme] at hpath
    rcases hpath with h | h | h
    · exact habsolute h
    · exact hnot pathNoscheme (by decide) h
    · exact hnot pathEmpty (by decide) h
  | some s =>
    rw [hscheme] at hpath
    rcases hpath with h | h | h
    · exact habsolute h
    · exact hnot pathRootless (by decide) h
    · exact hnot pathEmpty (by decide) h

/-- Without a scheme a path has no colon in front of the first slash. -/
theorem colon_path {c : UriParts} (hscheme : c.scheme = none) (hauthority : c.authority = none)
    (hpath : c.path ∈ c.pathLang) :
    ∃ x y, c.path = x ++ y ∧ 58 ∉ x ∧ 47 ∉ x ∧ ∀ b, y.head? = some b → b = 47 := by
  rw [UriParts.pathLang, hauthority, hscheme] at hpath
  rcases hpath with h | h | h
  · obtain ⟨x, hx, z, hz, hxz⟩ := Language.mem_mul.mp h
    rw [(mem_char '/').mp hx] at hxz
    refine ⟨[], c.path, rfl, by simp, by simp, ?_⟩
    intro b hb
    rw [← hxz] at hb
    exact (Option.some.inj hb).symm
  · obtain ⟨x, hx, y, hy, hxy⟩ := Language.mem_mul.mp h
    exact ⟨x, y, hxy.symm, not_mem_of_uses (by decide) hx, not_mem_of_uses (by decide) hx,
      fun b hb => head_abempty hy hb⟩
  · refine ⟨[], c.path, rfl, by simp, by simp, ?_⟩
    intro b hb
    rw [(Language.mem_one _).mp h] at hb
    cases hb

theorem not_mem_path {c : UriParts} (hpath : c.path ∈ c.pathLang) {b : UInt8}
    (hb : b = 63 ∨ b = 35) : b ∉ c.path := by
  have hsome : ∀ r : Rule, r.uses 63 = false → r.uses 35 = false → c.path ∈ r.lang → b ∉ c.path := by
    intro r hquestion hhash hmem
    rcases hb with rfl | rfl
    · exact not_mem_of_uses hquestion hmem
    · exact not_mem_of_uses hhash hmem
  rw [UriParts.pathLang] at hpath
  split at hpath
  · exact hsome pathAbempty (by decide) (by decide) hpath
  · split at hpath
    · rcases hpath with h | h | h
      · exact hsome pathAbsolute (by decide) (by decide) h
      · exact hsome pathRootless (by decide) (by decide) h
      · exact hsome pathEmpty (by decide) (by decide) h
    · rcases hpath with h | h | h
      · exact hsome pathAbsolute (by decide) (by decide) h
      · exact hsome pathNoscheme (by decide) (by decide) h
      · exact hsome pathEmpty (by decide) (by decide) h

/-! ## Taking a text apart -/

section Components

variable {c : UriParts} (hc : c.Delimited)
include hc

theorem cutPart_text : cutPart (c.authorityText ++ c.path) = (c.authority, c.path) := by
  cases hauthority : c.authority with
  | none =>
    rw [UriParts.authorityText, hauthority, Option.map_none, Option.getD_none, List.nil_append]
    unfold cutPart
    split
    · next y heq => exact absurd heq (slashes_path hauthority hc.path)
    · rfl
  | some a =>
    have ha := hc.authority a hauthority
    have hslash : ∀ b ∈ a.text, decide (b ≠ 47) = true :=
      fun b hb => decide_eq_true fun heq => ha.text 47 (Or.inl rfl) (heq ▸ hb)
    have hpath : ∀ b, c.path.head? = some b → decide (b ≠ 47) = false := by
      have hmem := hc.path
      rw [UriParts.pathLang, hauthority] at hmem
      intro b hb
      rw [head_abempty hmem hb]
      rfl
    rw [UriParts.authorityText, hauthority, Option.map_some, Option.getD_some, List.cons_append,
      List.cons_append, cutPart, takeWhile_append hslash hpath, dropWhile_append hslash hpath,
      cutAuthority_text ha]

theorem cutScheme_text :
    cutScheme (c.schemeText ++ (c.authorityText ++ c.path)) =
      (c.scheme, c.authorityText ++ c.path) := by
  cases hscheme : c.scheme with
  -- without a scheme the first segment has no colon, so the cut finds none in front of a slash
  | none =>
    rw [UriParts.schemeText, hscheme, Option.map_none, Option.getD_none, List.nil_append, cutScheme]
    apply if_neg
    intro h
    cases hauthority : c.authority with
    | none =>
      obtain ⟨x, y, hxy, hcolon, hslash, hy⟩ := colon_path hscheme hauthority hc.path
      rw [UriParts.authorityText, hauthority, Option.map_none, Option.getD_none, List.nil_append,
        hxy, takeWhile_append, List.drop_left] at h
      · exact absurd (hy 58 h.2) (by decide)
      · intro b hb
        exact decide_eq_true ⟨fun heq => hcolon (heq ▸ hb), fun heq => hslash (heq ▸ hb)⟩
      · intro b hb
        rw [hy b hb]
        rfl
    | some a =>
      apply h.1
      rw [UriParts.authorityText, hauthority]
      rfl
  | some s =>
    have hs := hc.scheme s hscheme
    have hname : ∀ b ∈ s, decide (b ≠ 58 ∧ b ≠ 47) = true := by
      intro b hb
      have hcolon : (58 : UInt8) ∉ s := not_mem_of_uses (by decide) hs
      have hslash : (47 : UInt8) ∉ s := not_mem_of_uses (by decide) hs
      exact decide_eq_true ⟨fun heq => hcolon (heq ▸ hb), fun heq => hslash (heq ▸ hb)⟩
    have hne : s ≠ [] := by
      intro hnil
      have hnullable := (nullable_iff Rfc3986.scheme).mpr (hnil ▸ hs)
      exact absurd hnullable (by decide)
    have htake : ((s ++ [58]) ++ (c.authorityText ++ c.path)).takeWhile
        (fun b => decide (b ≠ 58 ∧ b ≠ 47)) = s := by
      rw [List.append_assoc]
      exact takeWhile_append hname fun b hb => by
        rw [← Option.some.inj hb]
        rfl
    rw [UriParts.schemeText, hscheme, Option.map_some, Option.getD_some, cutScheme, htake]
    have hdrop : ((s ++ [58]) ++ (c.authorityText ++ c.path)).drop (s.length + 1) =
        c.authorityText ++ c.path := by
      have hlen : s.length + 1 = (s ++ [58]).length := by simp
      rw [hlen, List.drop_left]
    rw [hdrop, if_pos]
    refine ⟨hne, ?_⟩
    rw [List.append_assoc, List.drop_left]
    rfl

theorem not_mem_front {b : UInt8} (hb : b = 63 ∨ b = 35) :
    b ∉ c.schemeText ++ (c.authorityText ++ c.path) := by
  rw [List.mem_append, List.mem_append, not_or, not_or]
  refine ⟨?_, ?_, not_mem_path hc.path hb⟩
  · cases hscheme : c.scheme with
    | none => rw [UriParts.schemeText, hscheme]; simp
    | some s =>
      have hs := hc.scheme s hscheme
      rw [UriParts.schemeText, hscheme, Option.map_some, Option.getD_some, List.mem_append, not_or]
      rcases hb with rfl | rfl
      · exact ⟨not_mem_of_uses (by decide) hs, by decide⟩
      · exact ⟨not_mem_of_uses (by decide) hs, by decide⟩
  · cases hauthority : c.authority with
    | none => rw [UriParts.authorityText, hauthority]; simp
    | some a =>
      have ha := (hc.authority a hauthority).text b (Or.inr hb)
      rw [UriParts.authorityText, hauthority, Option.map_some, Option.getD_some, List.mem_cons,
        List.mem_cons, not_or, not_or]
      rcases hb with rfl | rfl
      · exact ⟨by decide, by decide, ha⟩
      · exact ⟨by decide, by decide, ha⟩

/-- A text is taken apart into the parts that it is put together from. -/
theorem components_text : components c.text = c := by
  have hquery : (35 : UInt8) ∉ c.schemeText ++ (c.authorityText ++ c.path) ++ c.queryText := by
    rw [List.mem_append, not_or]
    refine ⟨not_mem_front hc (Or.inr rfl), ?_⟩
    cases hq : c.query with
    | none => rw [UriParts.queryText, hq]; simp
    | some q =>
      rw [UriParts.queryText, hq, Option.map_some, Option.getD_some, List.mem_cons, not_or]
      exact ⟨by decide, hc.query q hq⟩
  have htext : c.text = c.schemeText ++ (c.authorityText ++ c.path) ++ c.queryText ++
      c.fragmentText := by
    simp only [UriParts.text, List.append_assoc]
  rw [components, htext, UriParts.fragmentText, cut_append hquery]
  dsimp only
  rw [UriParts.queryText, cut_append (not_mem_front hc (Or.inl rfl))]
  dsimp only
  rw [cutScheme_text hc]
  dsimp only
  rw [cutPart_text hc]

end Components

/-! ## The two grammars -/

/-- A host in brackets, or one without colons and brackets. -/
theorem hosts_oneOf {m v4 name : Rule}
    (hdelims : ∀ b, b = 47 ∨ b = 63 ∨ b = 35 ∨ b = 64 →
      (oneOf [seq [char '[', m, char ']'], v4, name]).uses b = false)
    (hm : m.uses 93 = false) (hplain : ∀ b, b = 58 ∨ b = 91 → (alt v4 name).uses b = false) :
    Hosts (oneOf [seq [char '[', m, char ']'], v4, name]).lang := by
  intro h hmem
  have hnot : ∀ b, b = 47 ∨ b = 63 ∨ b = 35 ∨ b = 64 → b ∉ h :=
    fun b hb => not_mem_of_uses (hdelims b hb) hmem
  refine ⟨hnot 47 (by simp), hnot 63 (by simp), hnot 35 (by simp), hnot 64 (by simp), ?_⟩
  rcases hmem with hmem | hmem
  · obtain ⟨x, hx, y, hy, hxy⟩ := Language.mem_mul.mp hmem
    obtain ⟨z, hz, e, he, hze⟩ := Language.mem_mul.mp hy
    refine Or.inr ⟨z, not_mem_of_uses hm hz, ?_⟩
    rw [← hxy, ← hze, (mem_char '[').mp hx, (mem_char ']').mp he]
    rfl
  · exact Or.inl ⟨not_mem_of_uses (hplain 58 (by simp)) hmem,
      not_mem_of_uses (hplain 91 (by simp)) hmem⟩

theorem hosts : Hosts Rfc3986.host.lang := by
  apply hosts_oneOf
  · rintro b (rfl | rfl | rfl | rfl) <;> decide
  · decide
  · rintro b (rfl | rfl) <;> decide

end Rfc3986

namespace UriParser

theorem hosts : Rfc3986.Hosts host.lang := by
  apply Rfc3986.hosts_oneOf
  · rintro b (rfl | rfl | rfl | rfl) <;> decide
  · decide
  · rintro b (rfl | rfl) <;> decide

theorem pathAbempty_lang : pathAbempty.lang = Rfc3986.pathAbempty.lang := by
  show (slashSegment.lang + 1) * slashSegment.lang∗ = slashSegment.lang∗
  have hle : slashSegment.lang * slashSegment.lang∗ ≤ slashSegment.lang∗ := mul_kstar_le_kstar
  rw [add_mul, one_mul]
  exact sup_eq_right.mpr hle

theorem hierPart_lang : hierPart.lang = (Rfc3986.hierPart host).lang := by
  show (text "//" : Rule).lang * (authority.lang * pathAbempty.lang) + _ = _
  rw [pathAbempty_lang]
  rfl

theorem relativePart_lang : relativePart.lang = (Rfc3986.relativePart host).lang := by
  show (text "//" : Rule).lang * (authority.lang * pathAbempty.lang) + _ = _
  rw [pathAbempty_lang]
  rfl

/-- The grammar of `uri_parser` is that of the RFC with other hosts. -/
theorem uriReference_lang : uriReference.lang = (Rfc3986.uriReference host).lang := by
  show scheme.lang * (colon.lang * (hierPart.lang * _)) + relativePart.lang * _ = _
  rw [hierPart_lang, relativePart_lang]
  rfl

end UriParser

end Azure
