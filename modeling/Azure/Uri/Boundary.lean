import Azure.Http.Tokens
import Azure.Uri.AuthorityRun

/-!
# The end of an authority

What ends the host or the port also begins the path.  Behind a scheme the path is saved, from the mark
that is set there; but an empty port takes the mark away when it is set.
-/

namespace Azure

open Reasoning Machine Computability

namespace UriParser

open UriAction

def pathSaved (c : UriParts) : List UriAction := if c.scheme.isSome then [savePath] else []

def pathBegun (c : UriParts) : List UriAction :=
  (if c.scheme.isSome then [markh] else []) ++ if c.path = [] then pathSaved c else []

theorem head_behindAuthority (c : UriParts) :
    (behindAuthority c).head? = c.path.head?.or (c.queryText ++ c.fragmentText).head? := by
  rw [behindAuthority, List.head?_append]

/-- Nothing, a query or a fragment comes behind the path. -/
theorem endsPath_rest (c : UriParts) : EndsPath (c.queryText ++ c.fragmentText).head? := by
  cases hhead : (c.queryText ++ c.fragmentText).head? with
  | none => exact Or.inr (Or.inr rfl)
  | some b =>
    rcases head_rest c hhead with hb | hb
    · exact Or.inl (congrArg some hb)
    · exact Or.inr (Or.inl (congrArg some hb))

section Boundary

variable {c : UriParts} (hc : c.WellFormed host.lang) {a : Authority}
  (hauthority : c.authority = some a)
include hc hauthority

theorem path_abempty : c.path ∈ pathAbempty.lang := by
  have hpath := hc.path
  rwa [UriParts.pathLang, hauthority, ← pathAbempty_lang] at hpath

theorem head_path {b : UInt8} (hb : c.path.head? = some b) : b = 47 := by
  have hmem := path_abempty hc hauthority
  rw [pathAbempty_lang] at hmem
  exact Rfc3986.head_abempty hmem hb

theorem endsAuthority_behind : EndsAuthority (behindAuthority c).head? := by
  rw [head_behindAuthority]
  cases hpath : c.path.head? with
  | none => exact Or.inr (endsPath_rest c)
  | some b => exact Or.inl (by rw [head_path hc hauthority hpath]; rfl)

theorem endsPath_behind : EndsPath (behindAuthority c).head? ↔ c.path = [] := by
  rw [head_behindAuthority]
  cases hpath : c.path with
  | nil => exact iff_of_true (endsPath_rest c) rfl
  | cons b p =>
    have hb := head_path hc hauthority (b := b) (by rw [hpath]; rfl)
    refine iff_of_false ?_ (List.cons_ne_nil b p)
    rw [hb]
    intro hends
    rcases hends with h | h | h
    · exact absurd (Option.some.inj h) (by decide)
    · exact absurd (Option.some.inj h) (by decide)
    · exact Option.some_ne_none 47 h

/-- At the end of the authority the path begins. -/
theorem savedFired_end :
    savedFired c.scheme.isSome a.text (behindAuthority c).head? = pathBegun c := by
  rw [savedFired, pathBegun, pathSaved]
  split
  · have hmem := authority_mem hc hauthority
    have hends := endsAuthority_behind hc hauthority
    have henter : pathAbempty.begins (behindAuthority c).head? = true ∨
        pathAbempty.nullable = true ∧ EndsPath (behindAuthority c).head? := by
      rcases hends with h | h
      · exact Or.inl ((begins_pathAbempty _).mpr h)
      · exact Or.inr ⟨by decide, h⟩
    by_cases hpath : c.path = []
    · have hleave : a.text ∈ authority.lang * pathAbempty.lang := by
        have hnil := Language.append_mem_mul hmem ((nullable_iff pathAbempty).mp (by decide))
        rwa [List.append_nil] at hnil
      rw [if_pos hpath]
      exact fired_part_both (by decide) hmem henter hleave ((endsPath_behind hc hauthority).mpr hpath)
    · rw [if_neg hpath]
      apply fired_part_mark (by decide) hmem henter
      exact fun hleave => hpath ((endsPath_behind hc hauthority).mp hleave.2)
  · exact (ite_self []).symm

/-! ## The path -/

/-- Behind the first slash of the path the machine is at work on the path alone. -/
theorem performed_path_behind {y : Bytes} (hne : y ≠ []) (hy : y <+: c.path) {ch : Option UInt8}
    (hnext : y ++ ch.toList <+: behindAuthority c) :
    uriReference.performed (inAuthority c (a.text ++ y)) ch =
      (savedFired c.scheme.isSome (a.text ++ y) ch).eraseDups := by
  have hslash : (47 : UInt8) ∈ a.text ++ y := by
    obtain ⟨rest, hrest⟩ := hy
    cases y with
    | nil => exact absurd rfl hne
    | cons b y =>
      have hb := head_path hc hauthority (b := b) (by rw [← hrest]; rfl)
      rw [hb]
      simp
  have hnot : ∀ b, b = 63 ∨ b = 35 → b ∉ a.text ++ y := by
    intro b hb
    rw [List.mem_append, not_or]
    constructor
    · exact Rfc3986.not_mem_authority hosts (hc.authority a hauthority) (Or.inr hb)
    · exact fun hmem => Rfc3986.not_mem_path hc.path hb (hy.subset hmem)
  have hpre : inAuthority c (a.text ++ y) ++ ch.toList <+: c.text := by
    obtain ⟨z, hz⟩ := hnext
    rw [text_eq hauthority, ← hz, inAuthority_append]
    exact ⟨z, by rw [inAuthority_append]; simp⟩
  have hforeign : fired (a.text ++ y) ch 1 (EndsAuthority ch) authority = [] := by
    apply fired_of_foreign hslash
    · intro v hv
      rw [(Language.mem_one v).mp hv]
      exact List.not_mem_nil
    · decide
  rw [inAuthority, performed_authority hc hpre (hnot 63 (Or.inl rfl)) (hnot 35 (Or.inr rfl)),
    hforeign, List.nil_append]

/-- No authority ends within the path. -/
theorem not_authority_of_path {y : Bytes} (hne : y ≠ []) (hy : y <+: c.path) :
    a.text ++ y ∉ authority.lang := by
  intro hmem
  cases y with
  | nil => exact hne rfl
  | cons b y =>
    obtain ⟨rest, hrest⟩ := hy
    have hb := head_path hc hauthority (b := b) (by rw [← hrest]; rfl)
    exact not_mem_of_uses (r := authority) (b := 47) (by decide) hmem (by rw [hb]; simp)

theorem performed_path_inner {y z : Bytes} {d : UInt8} (hne : y ≠ []) (hy : c.path = y ++ d :: z) :
    uriReference.performed (inAuthority c (a.text ++ y)) (some d) = [] := by
  have hpre : y <+: c.path := ⟨d :: z, hy.symm⟩
  have hd : ¬ EndsPath (some d) := by
    intro hends
    have hmem : d ∈ c.path := by rw [hy]; simp
    rcases hends with h | h | h
    · exact Rfc3986.not_mem_path hc.path (Or.inl rfl) (Option.some.inj h ▸ hmem)
    · exact Rfc3986.not_mem_path hc.path (Or.inr rfl) (Option.some.inj h ▸ hmem)
    · exact Option.some_ne_none d h
  have hnext : y ++ (some d).toList <+: behindAuthority c :=
    ⟨z ++ (c.queryText ++ c.fragmentText), by rw [behindAuthority, hy]; simp⟩
  rw [performed_path_behind hc hauthority hne hpre hnext, savedFired]
  split
  · have hquiet : fired (a.text ++ y) (some d) authority.lang (EndsPath (some d)) savedPath = [] := by
      apply fired_part_none (by decide)
      · exact fun hmark => not_authority_of_path hc hauthority hne hpre hmark.1
      · exact fun hsave => hd hsave.2
    rw [hquiet]
    rfl
  · rfl

theorem performed_path_end (hne : c.path ≠ []) :
    uriReference.performed (inAuthority c (a.text ++ c.path))
      (c.queryText ++ c.fragmentText).head? = pathSaved c := by
  have hnext : c.path ++ (c.queryText ++ c.fragmentText).head?.toList <+: behindAuthority c := by
    rw [behindAuthority]
    cases c.queryText ++ c.fragmentText with
    | nil => simp
    | cons b rest => exact ⟨rest, by simp⟩
  have hmem : a.text ++ c.path ∈ authority.lang * pathAbempty.lang :=
    Language.append_mem_mul (authority_mem hc hauthority) (path_abempty hc hauthority)
  rw [performed_path_behind hc hauthority hne (List.prefix_refl _) hnext, savedFired, pathSaved]
  split
  · have hsaved : fired (a.text ++ c.path) (c.queryText ++ c.fragmentText).head? authority.lang
        (EndsPath (c.queryText ++ c.fragmentText).head?) savedPath = [savePath] := by
      apply fired_part_save (by decide) _ hmem (endsPath_rest c)
      exact fun hmark => not_authority_of_path hc hauthority hne (List.prefix_refl _) hmark.1
    rw [hsaved]
    rfl
  · rfl

def pathEnd (c : UriParts) (a : Authority) : Bytes := inAuthority c (a.text ++ c.path)

/-- The path behind an authority, from its first byte on. -/
theorem run_path (x : Uri × Option Nat) :
    ((if c.path = [] then pathSaved c else []).foldlM
        (fun x e => Uri.act c.text (inAuthority c a.text).length e x) x).bind
      (uriReference.proceed (Uri.act c.text) (inAuthority c a.text) (behindAuthority c)) =
      ((pathSaved c).foldlM (fun x e => Uri.act c.text (pathEnd c a).length e x) x).bind
        (uriReference.proceed (Uri.act c.text) (pathEnd c a) (c.queryText ++ c.fragmentText)) := by
  have hinner := fun (y : Bytes) (d : UInt8) (z : Bytes) => performed_path_inner hc hauthority
    (y := y) (d := d) (z := z)
  have hend := performed_path_end hc hauthority
  rw [pathEnd, behindAuthority]
  cases hpath : c.path with
  | nil => rw [if_pos rfl, List.nil_append, List.append_nil]
  | cons b p =>
    rw [hpath] at hinner hend
    have hplace : ∀ y, inAuthority c a.text ++ [b] ++ y = inAuthority c (a.text ++ b :: y) := by
      intro y
      rw [List.append_assoc, inAuthority_append]
      rfl
    rw [if_neg (List.cons_ne_nil b p), List.foldlM_nil, List.cons_append]
    show uriReference.complete (Uri.act c.text) (inAuthority c a.text ++ [b]) _ x = _
    rw [complete_append, complete_eq, hplace, hend (List.cons_ne_nil b p)]
    intro y d z hyz
    rw [hplace]
    exact hinner (b :: y) d z (List.cons_ne_nil b y) (by rw [hyz]; rfl)

/-! ## What ends the authority -/

omit hc hauthority in
theorem eraseDups_pathBegun {s : UriAction} (hs : s = saveHost ∨ s = savePort) :
    (s :: pathBegun c).eraseDups = s :: pathBegun c := by
  rw [pathBegun, pathSaved]
  rcases hs with rfl | rfl
  · split <;> split <;> rfl
  · split <;> split <;> rfl

omit hc hauthority in
/-- The mark is set once in a place. -/
theorem eraseDups_pathBegun_marked {s : UriAction} (hs : s = saveHost ∨ s = savePort) :
    ((s :: pathBegun c).filter fun e => !e == markh).eraseDups =
      s :: if c.path = [] then pathSaved c else [] := by
  rw [pathBegun, pathSaved]
  rcases hs with rfl | rfl
  · split <;> split <;> rfl
  · split <;> split <;> rfl

/-- The last part of the authority is saved, then the path.  A part that is not empty leaves the
mark to the path. -/
theorem run_last {s : UriAction} (hs : s = saveHost ∨ s = savePort) {u w : Bytes}
    (hplace : u ++ w = inAuthority c a.text)
    (hfirst : ∀ d z, w = d :: z → uriReference.performed u (some d) = [markh])
    (hinner : ∀ y d z, y ≠ [] → w = y ++ d :: z → uriReference.performed (u ++ y) (some d) = [])
    (hlast : uriReference.performed (u ++ w) (behindAuthority c).head? =
      ((if w = [] then [markh] else []) ++ s :: pathBegun c).eraseDups) (v : Uri) (m : Option Nat) :
    uriReference.complete (Uri.act c.text) u (w ++ behindAuthority c) (v, m) =
      (Uri.act c.text (inAuthority c a.text).length s (v, some u.length)).bind fun x =>
        ((pathSaved c).foldlM (fun x e => Uri.act c.text (pathEnd c a).length e x)
          (x.1, if c.scheme.isSome = true ∧ w ≠ [] then some (inAuthority c a.text).length
            else x.2)).bind
          (uriReference.proceed (Uri.act c.text) (pathEnd c a)
            (c.queryText ++ c.fragmentText)) := by
  rw [complete_marked (Uri.act c.text) hfirst hinner hlast, hplace]
  show (some (v, some u.length)).bind _ = _
  rw [Option.bind_some]
  have hrun := run_path hc hauthority
  by_cases hw : w = []
  · have hmark : ¬ (c.scheme.isSome = true ∧ w ≠ []) := fun h => h.2 hw
    rw [if_pos hw, eraseDups_pathBegun_marked hs, List.foldlM_cons]
    cases Uri.act c.text (inAuthority c a.text).length s (v, some u.length) with
    | none => rfl
    | some x =>
      rw [Option.bind_some, if_neg hmark]
      exact hrun x
  · rw [if_neg hw, eraseDups_pathBegun hs, List.foldlM_cons]
    cases Uri.act c.text (inAuthority c a.text).length s (v, some u.length) with
    | none => rfl
    | some x =>
      rw [Option.bind_some, pathBegun]
      by_cases hscheme : c.scheme.isSome = true
      · have hmark : c.scheme.isSome = true ∧ w ≠ [] := ⟨hscheme, hw⟩
        rw [if_pos hscheme, if_pos hmark]
        exact hrun _
      · have hmark : ¬ (c.scheme.isSome = true ∧ w ≠ []) := fun h => hscheme h.1
        rw [if_neg hscheme, if_neg hmark]
        exact hrun x

omit hc hauthority in
theorem append_head_front (x y : Bytes) : x ++ y.head?.toList <+: x ++ y := by
  cases y with
  | nil => exact List.prefix_refl _
  | cons b y => exact ⟨y, by simp⟩

theorem at_not_mem_host : 64 ∉ a.host := (hosts _ (hc.authority a hauthority).host).at_

/-- Without a port the host ends the authority. -/
theorem performed_host_end (hport : a.port = none) :
    uriReference.performed (inAuthority c (a.userinfoText ++ a.host)) (behindAuthority c).head? =
      ((if a.host = [] then [markh] else []) ++ saveHost :: pathBegun c).eraseDups := by
  have ha := hc.authority a hauthority
  have hends := endsAuthority_behind hc hauthority
  have hmem : a.host ∈ (1 : Language UInt8) * host.lang := by
    rw [one_mul]
    exact ha.host
  have htext : a.text = a.userinfoText ++ a.host := by
    rw [Authority.text, Authority.portText, hport, Option.map_none, Option.getD_none,
      List.append_nil]
  have hat : (behindAuthority c).head? ≠ some 64 := by
    intro heq
    rw [heq] at hends
    exact not_endsAuthority (by decide) hends
  rw [performed_inAuthority_of_ne hc hauthority ha (at_not_mem_host hc hauthority)
      (htext ▸ List.prefix_refl _) (htext ▸ append_head_front _ _) hat,
    fired_savedPort_none ha.host, List.append_nil, ← htext, savedFired_end hc hauthority]
  by_cases hnil : a.host = []
  · have hfired : fired a.host (behindAuthority c).head? 1
        ((behindAuthority c).head? = some 58 ∨ EndsAuthority (behindAuthority c).head?) savedHost =
          [markh, saveHost] :=
      fired_part_both (by decide) (hnil ▸ Language.nil_mem_one) (Or.inr ⟨by decide, Or.inr hends⟩)
        hmem (Or.inr hends)
    rw [hfired, if_pos hnil]
    split
    · simp [List.eraseDups_cons]
    · rfl
  · have hfired : fired a.host (behindAuthority c).head? 1
        ((behindAuthority c).head? = some 58 ∨ EndsAuthority (behindAuthority c).head?) savedHost =
          [saveHost] :=
      fired_part_save (by decide) (fun hmark => hnil ((Language.mem_one _).mp hmark.1)) hmem
        (Or.inr hends)
    have htext' : ¬ (a.text = [] ∧ (authority.begins (behindAuthority c).head? = true ∨
        EndsAuthority (behindAuthority c).head?)) := by
      intro h
      rw [htext] at h
      exact hnil (List.append_eq_nil_iff.mp h.1).2
    rw [hfired, if_neg hnil, if_neg htext']
    rfl

/-! ## The port -/

omit hc hauthority in
/-- In front of a port there is one host only. -/
theorem behind_host {h e : Bytes} (hh : h ∈ host.lang) (he : 58 ∉ e) :
    Behind (h ++ [58]) e (host.lang * colon.lang) 1 := by
  intro v hv
  rw [mem_colon_iff]
  constructor
  · intro hmem
    obtain ⟨w, hw, hvw⟩ := hmem
    refine ⟨[], Language.nil_mem_one, ?_⟩
    obtain ⟨r, hr⟩ := hv
    rw [hvw, List.append_assoc, List.append_assoc, List.singleton_append,
      List.singleton_append] at hr
    have heq : w = h := by
      rcases List.append_eq_append_iff.mp hr with ⟨z, hz, hz'⟩ | ⟨z, hz, hz'⟩
      · cases z with
        | nil => rw [hz, List.append_nil]
        | cons d z =>
          rw [List.cons_append, List.cons_eq_cons] at hz'
          rw [hz, ← hz'.1] at hh
          exact absurd hw (not_host_of_colon hh)
      · cases z with
        | nil => rw [hz, List.append_nil]
        | cons d z =>
          rw [List.cons_append, List.cons_eq_cons] at hz'
          exact absurd (by rw [hz'.2]; simp) he
    rw [hvw, heq, List.append_nil]
  · intro hmem
    obtain ⟨y, hy, hvy⟩ := hmem
    rw [(Language.mem_one y).mp hy, List.append_nil] at hvy
    exact ⟨h, hh, hvy.symm⟩

section Port

variable {P : Bytes} (hport : a.port = some P)
include hport

omit hc hauthority in
theorem text_port : a.text = a.userinfoText ++ (a.host ++ 58 :: P) := by
  rw [Authority.text, Authority.portText, hport]
  rfl

theorem port_mem : P ∈ port.lang := (hc.authority a hauthority).port P hport

/-- Behind the colon the machine is at work on the port, and at its end on the path. -/
theorem performed_port {y : Bytes} (hy : y <+: P) {ch : Option UInt8}
    (hnext : y ++ ch.toList <+: P ++ behindAuthority c) (hat : ch ≠ some 64) :
    uriReference.performed (inAuthority c (a.userinfoText ++ (a.host ++ 58 :: y))) ch =
      (fired y ch 1 (EndsAuthority ch) savedPort ++
        savedFired c.scheme.isSome (a.userinfoText ++ (a.host ++ 58 :: y)) ch).eraseDups := by
  have ha := hc.authority a hauthority
  have hdigits : ∀ b, port.uses b = false → b ∉ y :=
    fun b hb hmem => not_mem_of_uses hb (port_mem hc hauthority hport) (hy.subset hmem)
  have hat' : 64 ∉ a.host ++ 58 :: y := by
    rw [List.mem_append, List.mem_cons, not_or, not_or]
    exact ⟨at_not_mem_host hc hauthority, by decide, hdigits 64 (by decide)⟩
  have htext := text_port hport
  have hpre : a.userinfoText ++ (a.host ++ 58 :: y) <+: a.text := by
    obtain ⟨z, hz⟩ := hy
    exact ⟨z, by rw [htext, ← hz]; simp⟩
  have hpre' : a.userinfoText ++ (a.host ++ 58 :: y) ++ ch.toList <+: a.text ++ behindAuthority c := by
    obtain ⟨z, hz⟩ := hnext
    refine ⟨z, ?_⟩
    have hall : a.text ++ behindAuthority c =
        a.userinfoText ++ (a.host ++ 58 :: (P ++ behindAuthority c)) := by
      rw [htext]
      simp
    rw [hall, ← hz]
    simp
  have hhost : fired (a.host ++ 58 :: y) ch 1 (ch = some 58 ∨ EndsAuthority ch) savedHost = [] := by
    apply fired_part_none (by decide)
    · intro hmark
      exact absurd ((Language.mem_one _).mp hmark.1) (by simp)
    · intro hsave
      rw [one_mul] at hsave
      exact not_host_of_colon hsave.1 ha.host
  have hsplit : a.host ++ 58 :: y = a.host ++ [58] ++ y := by simp
  have hfired : fired (a.host ++ 58 :: y) ch (host.lang * colon.lang) (EndsAuthority ch) savedPort =
      fired y ch 1 (EndsAuthority ch) savedPort := by
    rw [hsplit]
    exact fired_behind (behind_host ha.host (hdigits 58 (by decide)))
  have hne : ¬ (a.userinfoText ++ (a.host ++ 58 :: y) = [] ∧
      (authority.begins ch = true ∨ EndsAuthority ch)) := fun h => absurd h.1 (by simp)
  rw [performed_inAuthority_of_ne hc hauthority ha hat' hpre hpre' hat, hhost, hfired, if_neg hne]
  rfl

theorem performed_port_inner {y z : Bytes} {d : UInt8} (hy : P = y ++ d :: z) :
    uriReference.performed (inAuthority c (a.userinfoText ++ (a.host ++ 58 :: y))) (some d) =
      if y = [] then [markh] else [] := by
  have hmem := port_mem hc hauthority hport
  have hd : ∀ b, port.uses b = false → d ≠ b :=
    fun b hb heq => not_mem_of_uses hb hmem (by rw [hy, heq]; simp)
  have hends : ¬ EndsAuthority (some d) :=
    not_endsAuthority ⟨hd 47 (by decide), hd 63 (by decide), hd 35 (by decide)⟩
  have hat : (some d : Option UInt8) ≠ some 64 :=
    fun heq => hd 64 (by decide) (Option.some.inj heq)
  rw [performed_port hc hauthority hport ⟨d :: z, hy.symm⟩
      ⟨z ++ behindAuthority c, by rw [hy]; simp⟩ hat, savedFired_inner _ _ hends]
  by_cases hnil : y = []
  · have hfired : fired y (some d) 1 (EndsAuthority (some d)) savedPort = [markh] := by
      apply fired_part_mark (by decide) (hnil ▸ Language.nil_mem_one)
      · rw [hnil] at hy
        exact Or.inl (begins_of_mem (hy ▸ hmem))
      · exact fun hsave => hends hsave.2
    rw [hfired, if_pos hnil]
    rfl
  · have hfired : fired y (some d) 1 (EndsAuthority (some d)) savedPort = [] := by
      apply fired_part_none (by decide)
      · exact fun hmark => hnil ((Language.mem_one y).mp hmark.1)
      · exact fun hsave => hends hsave.2
    rw [hfired, if_neg hnil]
    rfl

theorem performed_port_end :
    uriReference.performed (inAuthority c (a.userinfoText ++ (a.host ++ 58 :: P)))
        (behindAuthority c).head? =
      ((if P = [] then [markh] else []) ++ savePort :: pathBegun c).eraseDups := by
  have hends := endsAuthority_behind hc hauthority
  have hmem : P ∈ (1 : Language UInt8) * port.lang := by
    rw [one_mul]
    exact port_mem hc hauthority hport
  have hat : (behindAuthority c).head? ≠ some 64 := by
    intro heq
    rw [heq] at hends
    exact not_endsAuthority (by decide) hends
  rw [performed_port hc hauthority hport (List.prefix_refl P) (append_head_front _ _) hat,
    ← text_port hport, savedFired_end hc hauthority]
  by_cases hnil : P = []
  · have hfired : fired P (behindAuthority c).head? 1 (EndsAuthority (behindAuthority c).head?)
        savedPort = [markh, savePort] :=
      fired_part_both (by decide) (hnil ▸ Language.nil_mem_one) (Or.inr ⟨by decide, hends⟩) hmem
        hends
    rw [hfired, if_pos hnil]
    rfl
  · have hfired : fired P (behindAuthority c).head? 1 (EndsAuthority (behindAuthority c).head?)
        savedPort = [savePort] :=
      fired_part_save (by decide) (fun hmark => hnil ((Language.mem_one P).mp hmark.1)) hmem hends
    rw [hfired, if_neg hnil]
    rfl

end Port

/-! ## The host, the port and the path -/

def portValue (P : Bytes) : Int := intOfLong (min (leadingDigits 10 0 P : Int) (2 ^ 63 - 1))

omit hc hauthority in
theorem port_digits {P : Bytes} (hP : P ∈ port.lang) : P.all isdigit = true := by
  rw [List.all_eq_true]
  exact fun b hb => uses_of_mem hP hb

theorem atoi_port {P : Bytes} (hport : a.port = some P) (hne : P ≠ []) :
    atoi (P ++ behindAuthority c) = portValue P := by
  apply atoi_digits hne (port_digits (port_mem hc hauthority hport))
  intro b hb
  have hends := endsAuthority_behind hc hauthority
  rw [hb] at hends
  rcases hends with h | h | h | h
  · rw [Option.some.inj h]
    rfl
  · rw [Option.some.inj h]
    rfl
  · rw [Option.some.inj h]
    rfl
  · cases h

omit hc in
theorem piece_path :
    Uri.piece c.text (some (inAuthority c a.text).length) (pathEnd c a).length = some c.path := by
  have hsplit : c.text = inAuthority c a.text ++ (c.path ++ (c.queryText ++ c.fragmentText)) := by
    rw [text_eq hauthority, inAuthority_append]
    rfl
  rw [pathEnd, ← inAuthority_append]
  exact piece_eq hsplit

def savedPathOf (c : UriParts) (p : Bytes) : Bytes := if c.scheme.isSome then c.path else p

omit hc in
theorem save_path (v : Uri) (m : Option Nat)
    (hmark : c.scheme.isSome = true → m = some (inAuthority c a.text).length) :
    ∃ m', (pathSaved c).foldlM (fun x e => Uri.act c.text (pathEnd c a).length e x) (v, m) =
      some ({ v with path := savedPathOf c v.path }, m') := by
  rw [pathSaved, savedPathOf]
  by_cases hscheme : c.scheme.isSome = true
  · refine ⟨none, ?_⟩
    rw [if_pos hscheme, if_pos hscheme, hmark hscheme]
    simp only [List.foldlM_cons, List.foldlM_nil, Uri.act, piece_path hauthority]
    rfl
  · refine ⟨m, ?_⟩
    rw [if_neg hscheme, if_neg hscheme]
    rfl

theorem run_host (hport : a.port = none) (v : Uri) (m : Option Nat) :
    ∃ m', uriReference.complete (Uri.act c.text) (inAuthority c a.userinfoText)
        (a.host ++ behindAuthority c) (v, m) =
      uriReference.proceed (Uri.act c.text) (pathEnd c a) (c.queryText ++ c.fragmentText)
        ({ v with host := a.host, path := savedPathOf c v.path }, m') := by
  have ha := hc.authority a hauthority
  have htext : a.text = a.userinfoText ++ a.host := by
    rw [Authority.text, Authority.portText, hport, Option.map_none, Option.getD_none,
      List.append_nil]
  have hplace : inAuthority c a.userinfoText ++ a.host = inAuthority c a.text := by
    rw [inAuthority_append, htext]
  have hsplit : c.text = inAuthority c a.userinfoText ++ (a.host ++ behindAuthority c) := by
    rw [text_eq hauthority, htext, inAuthority_append, List.append_assoc]
  have hinner := fun (y : Bytes) (d : UInt8) (z : Bytes) (hy : a.host = y ++ d :: z) =>
    performed_host_inner hc hauthority ha ha.host (htext ▸ List.prefix_refl _) hy
  rw [run_last hc hauthority (Or.inl rfl) hplace]
  · have hpiece := piece_eq hsplit
    rw [hplace] at hpiece
    have hact : Uri.act c.text (inAuthority c a.text).length saveHost
        (v, some (inAuthority c a.userinfoText).length) =
          some ({ v with host := a.host }, some (inAuthority c a.userinfoText).length) := by
      simp only [Uri.act, hpiece]
    obtain ⟨m', hm'⟩ := save_path hauthority { v with host := a.host }
      (if c.scheme.isSome = true ∧ a.host ≠ [] then some (inAuthority c a.text).length
        else some (inAuthority c a.userinfoText).length) (by
        intro hscheme
        by_cases hnil : a.host = []
        · rw [if_neg fun h => h.2 hnil, htext, hnil, List.append_nil]
        · rw [if_pos ⟨hscheme, hnil⟩])
    refine ⟨m', ?_⟩
    rw [hact, Option.bind_some, hm', Option.bind_some]
  · intro d z hdz
    have hfirst := hinner [] d z hdz
    rwa [List.append_nil, if_pos rfl] at hfirst
  · intro y d z hy hyz
    rw [inAuthority_append, hinner y d z hyz, if_neg hy]
  · rw [inAuthority_append]
    exact performed_host_end hc hauthority hport

/-- An empty port behind a scheme: the path is saved from the null pointer. -/
theorem run_hollow (hscheme : c.scheme.isSome = true) (hport : a.port = some []) (v : Uri)
    (m : Option Nat) :
    uriReference.complete (Uri.act c.text) (inAuthority c (a.userinfoText ++ (a.host ++ [58])))
      (behindAuthority c) (v, m) = none := by
  have htext := text_port hport
  have hplace : inAuthority c (a.userinfoText ++ (a.host ++ [58])) ++ [] = inAuthority c a.text := by
    rw [htext, List.append_nil]
  have hrun := run_last hc hauthority (w := []) (Or.inr rfl) hplace (by simp) (by simp)
    (by
      rw [hplace, htext]
      exact performed_port_end hc hauthority hport) v m
  have hact : Uri.act c.text (inAuthority c a.text).length savePort
      (v, some (inAuthority c (a.userinfoText ++ (a.host ++ [58]))).length) = some (v, none) := by
    rw [← hplace, List.append_nil]
    exact if_pos rfl
  rw [List.nil_append] at hrun
  rw [hrun, hact, pathSaved, if_pos hscheme]
  simp [Uri.act, Uri.piece]

theorem run_port {P : Bytes} (hport : a.port = some P) (hollow : ¬ (c.scheme.isSome = true ∧ P = []))
    (v : Uri) (hv : v.port = 0) (m : Option Nat) :
    ∃ m', uriReference.complete (Uri.act c.text) (inAuthority c (a.userinfoText ++ (a.host ++ [58])))
        (P ++ behindAuthority c) (v, m) =
      uriReference.proceed (Uri.act c.text) (pathEnd c a) (c.queryText ++ c.fragmentText)
        ({ v with port := portValue P, path := savedPathOf c v.path }, m') := by
  have htext := text_port hport
  have hplace : ∀ y, inAuthority c (a.userinfoText ++ (a.host ++ [58])) ++ y =
      inAuthority c (a.userinfoText ++ (a.host ++ 58 :: y)) := by
    intro y
    rw [inAuthority_append]
    simp
  have hsplit : c.text = inAuthority c (a.userinfoText ++ (a.host ++ [58])) ++
      (P ++ behindAuthority c) := by
    rw [text_eq hauthority, hplace, htext]
    simp
  have hinner := fun (y : Bytes) (d : UInt8) (z : Bytes) (hy : P = y ++ d :: z) =>
    performed_port_inner hc hauthority hport hy
  rw [run_last hc hauthority (Or.inr rfl) ((hplace P).trans (by rw [htext]))]
  -- an empty port is not stored, and the field is 0 as it was
  · have hact : ∃ m', Uri.act c.text (inAuthority c a.text).length savePort
        (v, some (inAuthority c (a.userinfoText ++ (a.host ++ [58]))).length) =
          some ({ v with port := portValue P }, m') := by
      have hlen : (inAuthority c a.text).length =
          (inAuthority c (a.userinfoText ++ (a.host ++ [58]))).length + P.length := by
        rw [← List.length_append, hplace, htext]
      by_cases hnil : P = []
      · have hzero : ({ v with port := portValue P } : Uri) = v := by
          rw [hnil, show portValue [] = v.port from hv.symm]
        rw [hzero, hlen, hnil]
        exact ⟨none, if_pos rfl⟩
      · have hne : some (inAuthority c (a.userinfoText ++ (a.host ++ [58]))).length ≠
            some (inAuthority c a.text).length := by
          have hpos := List.length_pos_iff.mpr hnil
          rw [hlen, ne_eq, Option.some.injEq]
          omega
        rw [Uri.act, if_neg hne, Option.map_some, hsplit, List.drop_left,
          atoi_port hc hauthority hport hnil]
        exact ⟨none, rfl⟩
    obtain ⟨m₁, hact⟩ := hact
    obtain ⟨m', hm'⟩ := save_path hauthority { v with port := portValue P }
      (if c.scheme.isSome = true ∧ P ≠ [] then some (inAuthority c a.text).length else m₁)
      fun hscheme => if_pos ⟨hscheme, fun hnil => hollow ⟨hscheme, hnil⟩⟩
    refine ⟨m', ?_⟩
    rw [hact, Option.bind_some, hm', Option.bind_some]
  · intro d z hdz
    have hfirst := hinner [] d z hdz
    rwa [if_pos rfl] at hfirst
  · intro y d z hy hyz
    rw [hplace, hinner y d z hyz, if_neg hy]
  · rw [hplace]
    exact performed_port_end hc hauthority hport

end Boundary

end UriParser

end Azure
