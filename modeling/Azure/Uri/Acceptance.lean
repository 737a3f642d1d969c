import Azure.Uri.Create
import Azure.Uri.Hosts

/-!
# What `Uri::Create` accepts

The grammar of `uri.rl` is that of the RFC with other hosts, so that a text is accepted by one and not
by the other when its host is odd.  Besides, no `Uri` comes of an empty port behind a scheme.
-/

namespace Azure

open Reasoning Machine

namespace UriParts

variable {c : UriParts} {host host' : Language UInt8}

/-- Well formed parts with another kind of host. -/
theorem WellFormed.with_host (hc : c.WellFormed host)
    (h : ∀ a, c.authority = some a → a.host ∈ host') : c.WellFormed host' where
  scheme := hc.scheme
  authority a ha := ⟨(hc.authority a ha).userinfo, h a ha, (hc.authority a ha).port⟩
  path := hc.path
  query := hc.query
  fragment := hc.fragment

end UriParts

def allHosts : Language UInt8 := Rfc3986.host.lang + UriParser.host.lang

/-- The texts on which `uri_parser` and the RFC are not of one mind. -/
inductive Exceptional (s : Bytes) : Prop where
  /-- A reference with a scheme and an empty port. -/
  | hollow {c : UriParts} (htext : c.text = s) (hc : c.WellFormed Rfc3986.host.lang)
      (h : c.Hollow)
  /-- A host that one of the grammars has and the other has not. -/
  | host {c : UriParts} {a : Authority} (htext : c.text = s)
      (hc : c.WellFormed allHosts) (ha : c.authority = some a)
      (hodd : OddHost a.host) (hfull : ¬ c.Hollow)

namespace Uri

open Rfc3986 (components)

theorem hosts_all : Rfc3986.Hosts allHosts := by
  intro h hh
  rcases hh with hh | hh
  · exact Rfc3986.hosts h hh
  · exact UriParser.hosts h hh

theorem not_accepted_of_exceptional {s : Bytes} (hs : Exceptional s) :
    ¬ ((∃ u, create s = some (some u)) ↔ s ∈ (Rfc3986.uriReference Rfc3986.host).lang) := by
  intro hiff
  cases hs with
  | hollow htext hc h =>
    rename_i c
    have hcomponents := Rfc3986.components_text (Rfc3986.delimited Rfc3986.hosts hc)
    rw [htext] at hcomponents
    obtain ⟨u, hu⟩ := hiff.mpr (Rfc3986.mem_uriReference.mpr ⟨c, hc, htext⟩)
    have hfull := (create_eq_some_iff.mp hu).2.1
    rw [hcomponents] at hfull
    exact hfull h
  | host htext hc ha hodd hfull =>
    rename_i c a
    have hcomponents := Rfc3986.components_text (Rfc3986.delimited hosts_all hc)
    rw [htext] at hcomponents
    have hother : ∀ {L : Language UInt8}, a.host ∈ L → c.WellFormed L := by
      intro L hL
      apply hc.with_host
      intro a' ha'
      rw [ha] at ha'
      exact Option.some.inj ha' ▸ hL
    rcases hodd.ne with ⟨hin, hout⟩ | ⟨hin, hout⟩
    · obtain ⟨u, hu⟩ := hiff.mpr (Rfc3986.mem_uriReference.mpr ⟨c, hother hin, htext⟩)
      obtain ⟨hwell, -⟩ := exists_parts (mem_of_create hu)
      rw [hcomponents] at hwell
      exact hout (hwell.authority a ha).host
    · have hcreate := create_text (hother hin)
      rw [htext, if_neg hfull] at hcreate
      obtain ⟨hwell, -⟩ := components_of_mem Rfc3986.hosts (hiff.mp ⟨_, hcreate⟩)
      rw [hcomponents] at hwell
      exact hout (hwell.authority a ha).host

/-- A text is accepted if and only if the RFC derives it, but for the exceptional ones, on which the
two always differ. -/
theorem create_iff_derivable (s : Bytes) :
    ((∃ u, create s = some (some u)) ↔ s ∈ (Rfc3986.uriReference Rfc3986.host).lang) ↔
      ¬ Exceptional s := by
  constructor
  · exact fun hiff hs => not_accepted_of_exceptional hs hiff
  · intro hs
    -- on texts that are not exceptional the two grammars agree about the host
    have hplain : ∀ {c : UriParts}, c.text = s →
        c.WellFormed allHosts → ¬ c.Hollow → ∀ a, c.authority = some a →
          (a.host ∈ UriParser.host.lang ↔ a.host ∈ Rfc3986.host.lang) := by
      intro c htext hc hfull a ha
      exact mem_host_iff fun hodd => hs (.host htext hc ha hodd hfull)
    constructor
    · intro h
      -- the parts of an accepted text are well formed for the parser's hosts, so for those of the RFC
      obtain ⟨u, hu⟩ := h
      obtain ⟨hmem, hfull, -⟩ := create_eq_some_iff.mp hu
      obtain ⟨hc, htext⟩ := exists_parts hmem
      have hboth : (components s).WellFormed allHosts :=
        hc.with_host fun a ha => Or.inr (hc.authority a ha).host
      refine Rfc3986.mem_uriReference.mpr ⟨components s, hc.with_host fun a ha => ?_, htext⟩
      exact (hplain htext hboth hfull a ha).mp (hc.authority a ha).host
    · intro h
      obtain ⟨hc, htext⟩ := components_of_mem Rfc3986.hosts h
      -- a hollow text would be exceptional, so `create` does not reject it
      have hfull : ¬ (components s).Hollow := fun hollow => hs (.hollow htext hc hollow)
      have hboth : (components s).WellFormed allHosts :=
        hc.with_host fun a ha => Or.inl (hc.authority a ha).host
      have hwell := hc.with_host fun a ha =>
        (hplain htext hboth hfull a ha).mpr (hc.authority a ha).host
      have hcreate := create_text hwell
      rw [htext, if_neg hfull] at hcreate
      exact ⟨_, hcreate⟩

/-- The parts of a reference that is only an authority with a host. -/
theorem wellFormed_host {L : Language UInt8} {h : Bytes} (hh : h ∈ L) :
    UriParts.WellFormed L ⟨none, some ⟨none, h, none⟩, [], none, none⟩ where
  scheme s hs := by cases hs
  authority a ha := by
    rw [← Option.some.inj ha]
    exact ⟨fun u hu => (by cases hu), hh, fun p hp => (by cases hp)⟩
  path := Language.nil_mem_kstar _
  query q hq := by cases hq
  fragment f hf := by cases hf

/-- An address with one group in front of the two colons is not accepted, nor is an empty port; the
byte 2 in an octet is. -/
theorem create_differs :
    ¬ ((∃ u, create (ascii "//[fe80::1]".toList) = some (some u)) ↔
      ascii "//[fe80::1]".toList ∈ (Rfc3986.uriReference Rfc3986.host).lang) ∧
    ¬ ((∃ u, create (ascii "http://h:".toList) = some (some u)) ↔
      ascii "http://h:".toList ∈ (Rfc3986.uriReference Rfc3986.host).lang) ∧
    ¬ ((∃ u, create (ascii "//\x0213.1.1.1".toList) = some (some u)) ↔
      ascii "//\x0213.1.1.1".toList ∈ (Rfc3986.uriReference Rfc3986.host).lang) := by
  refine ⟨not_accepted_of_exceptional ?_, not_accepted_of_exceptional ?_,
    not_accepted_of_exceptional ?_⟩
  · have hgroup : ∀ g, g = ascii "fe80".toList ∨ g = ascii ['1'] → g ∈ Rfc3986.h16.lang := by
      intro g hg
      rcases hg with hg | hg
      · rw [hg]
        exact (accepts_iff (by decide) _).mp (by decide +kernel)
      · rw [hg]
        exact (accepts_iff (by decide) _).mp (by decide +kernel)
    have hshort : Ipv6.Short (ascii "fe80::1".toList) := by
      refine ⟨[ascii "fe80".toList], [ascii ['1']], 1, ?_, Or.inl ⟨rfl, ?_⟩, by simp, by decide,
        by decide⟩
      · exact fun g hg => hgroup g (Or.inl (List.mem_singleton.mp hg))
      · exact fun g hg => hgroup g (Or.inr (List.mem_singleton.mp hg))
    have hhost := (mem_rfc3986_literal _).mpr (Or.inl (Ipv6.short_rfc hshort))
    exact .host (by decide) (wellFormed_host (Or.inl hhost)) rfl (.short hshort) (by decide)
  · have hc := UriParser.wellFormed_of_accepted
      (c := ⟨some (ascii "http".toList), some ⟨none, [104], some []⟩, [], none, none⟩)
      (by decide +kernel)
    have hname : ([104] : Bytes) ∈ Rfc3986.host.lang :=
      Or.inr (Or.inr ((accepts_iff (r := Rfc3986.regName) (by decide) _).mp (by decide +kernel)))
    refine .hollow (by decide) (hc.with_host fun a ha => ?_) (by decide)
    rw [← Option.some.inj ha]
    exact hname
  · have hquad : 2 :: ascii "13.1.1.1".toList ∈ UriParser.ipv4Address.lang :=
      (accepts_iff (by decide) _).mp (by decide +kernel)
    exact .host (by decide) (wellFormed_host (Or.inr (Or.inr (Or.inl hquad)))) rfl
      (.byte hquad (by simp)) (by decide)

end Uri

end Azure
