import CertPath.Proofs.Addresses
import CertPath.Proofs.Base64Text
import CertPath.Proofs.Decoding
import CertPath.Proofs.Documents
import CertPath.TrustList
import Mathlib.Data.List.Sort
import Mathlib.Logic.Relation

namespace CertPath.TrustList

open Xml Xml.Node

variable {s : List Char} {doc n j : Node} {c d : Certificate} {p : List ℕ}

def asciiBlanks : List Char := [' ', '\t', '\n', '\x0c', '\r']

theorem isAsciiBlank_eq (c : Char) : isAsciiBlank c = decide (c ∈ asciiBlanks) := by
  simp [isAsciiBlank, asciiBlanks, Bool.or_assoc]

theorem certificateOf_eq_some : certificateOf s = some c ↔
    ∃ der, s.filter (· ∉ asciiBlanks) = Base64.encode der ∧ Certificate.ofDer der = .ok c := by
  simp only [certificateOf, Option.bind_eq_bind, Option.bind_eq_some_iff, isAsciiBlank_eq,
    Base64.decodeWhole_eq_some, ← decide_not]
  refine exists_congr fun der ↦ and_congr_right fun _ ↦ ?_
  cases Certificate.ofDer der <;> simp [Except.toOption]

/-- The texts that stand in an element for certificates itself say the octets in base 64, once they
are joined and have no blanks. -/
def Says (der : Bytes) (n : Node) : Prop :=
  ∃ children, n = .element "X509Certificate" children ∧
    (joined children).filter (· ∉ asciiBlanks) = Base64.encode der

def entry (n : Node) : Option Certificate :=
  if n.name? = some certificateElement then certificateOf n.ownText else none

theorem entry_eq_some : entry n = some c ↔ ∃ der, Says der n ∧ Certificate.ofDer der = .ok c := by
  rw [entry, Option.ite_none_right_eq_some, certificateOf_eq_some]
  constructor
  · rintro ⟨hname, der, hder, hc⟩
    cases n with
    | element name children =>
      cases hname
      rw [ownText_element] at hder
      exact ⟨der, ⟨children, rfl, hder⟩, hc⟩
    | _ => cases hname
  · rintro ⟨der, ⟨children, rfl, hder⟩, hc⟩
    rw [← ownText_element "X509Certificate"] at hder
    exact ⟨rfl, der, hder, hc⟩

theorem certificates_eq (doc : Node) : certificates doc = doc.descendants.filterMap entry := by
  rw [certificates, List.filterMap_filter]
  simp only [decide_eq_true_eq]
  rfl

/-- The certificate is listed in the document at the address. -/
def Lists (doc : Node) (p : List ℕ) (c : Certificate) : Prop :=
  ∃ n der, doc.at? p = some n ∧ Says der n ∧ Certificate.ofDer der = .ok c

def entries (doc : Node) : List (List ℕ × Certificate) :=
  (places doc).filterMap fun e ↦ (entry e.2).map (e.1, ·)

theorem mem_entries : (p, c) ∈ entries doc ↔ Lists doc p c := by
  simp only [entries, List.mem_filterMap, Prod.exists, mem_places, Option.map_eq_some_iff,
    entry_eq_some, Prod.mk.injEq]
  constructor
  · rintro ⟨p, n, hn, c, ⟨der, hsays, hc⟩, rfl, rfl⟩
    exact ⟨n, der, hn, hsays, hc⟩
  · rintro ⟨n, der, hn, hsays, hc⟩
    exact ⟨p, n, hn, c, ⟨der, hsays, hc⟩, rfl, rfl⟩

theorem map_snd_entries (doc : Node) : (entries doc).map (·.2) = certificates doc := by
  rw [certificates_eq, ← map_snd_places, List.filterMap_map, entries, List.map_filterMap]
  refine List.filterMap_congr fun e _ ↦ ?_
  cases h : entry e.2 <;> simp [h]

theorem pairwise_entries (doc : Node) : (entries doc).Pairwise (·.1 < ·.1) := by
  refine (pairwise_places doc).filterMap _ fun a b hlt x hx y hy ↦ ?_
  obtain ⟨c, -, rfl⟩ := Option.map_eq_some_iff.1 hx
  obtain ⟨d, -, rfl⟩ := Option.map_eq_some_iff.1 hy
  exact hlt

theorem Lists.unique (hc : Lists doc p c) (hd : Lists doc p d) : c = d := by
  obtain ⟨n, der, hn, hsays, hder⟩ := hc
  obtain ⟨m, der', hm, hsays', hder'⟩ := hd
  obtain rfl := Option.some.inj (hn.symm.trans hm)
  have hc := entry_eq_some.2 ⟨der, hsays, hder⟩
  rw [entry_eq_some.2 ⟨der', hsays', hder'⟩] at hc
  exact (Option.some.inj hc).symm

theorem entries_eq_zip {ps : List (List ℕ)} {cs : List Certificate} (hps : ps.Pairwise (· < ·))
    (hcs : List.Forall₂ (Lists doc) ps cs) (hall : ∀ p c, Lists doc p c → p ∈ ps) :
    entries doc = ps.zip cs := by
  have hfst : (ps.zip cs).map (·.1) = ps := List.map_fst_zip hcs.length_eq.le
  have hlists {p : List ℕ} {c : Certificate} (h : (p, c) ∈ ps.zip cs) : Lists doc p c :=
    (List.forall₂_iff_zip.1 hcs).2 h
  have hzip : (ps.zip cs).Pairwise (·.1 < ·.1) := by
    rw [← List.pairwise_map, hfst]
    exact hps
  have : Std.Irrefl (fun e f : List ℕ × Certificate ↦ e.1 < f.1) := ⟨fun e ↦ lt_irrefl e.1⟩
  have : Std.Antisymm (fun e f : List ℕ × Certificate ↦ e.1 < f.1) :=
    ⟨fun e f hlt hgt ↦ absurd hgt (lt_asymm hlt)⟩
  refine (pairwise_entries doc).eq_of_mem_iff hzip fun e ↦ ?_
  obtain ⟨p, c⟩ := e
  rw [mem_entries]
  constructor
  · intro h
    have hp := hall p c h
    rw [← hfst, List.mem_map] at hp
    obtain ⟨⟨q, d⟩, hd, rfl⟩ := hp
    rw [h.unique (hlists hd)]
    exact hd
  · intro h
    exact hlists h

/-! ### Putting nodes in -/

theorem certificates_element (name : String) (children : List Node) :
    certificates (.element name children) =
      (entry (.element name children)).toList ++ children.flatMap certificates := by
  have hchildren : children.flatMap certificates = (children.flatMap descendants).filterMap entry := by
    rw [List.filterMap_flatMap]
    exact List.flatMap_congr fun n _ ↦ certificates_eq n
  rw [certificates_eq, descendants, allDescendants_eq, hchildren]
  cases h : entry (.element name children) with
  | none => exact List.filterMap_cons_none h
  | some c => exact List.filterMap_cons_some h

theorem entry_congr {ns ns' : List Node} (name : String) (h : joined ns = joined ns') :
    entry (.element name ns) = entry (.element name ns') := by
  rw [entry, entry, ownText_element, ownText_element, h]
  rfl

theorem certificates_eq_nil (h : ∀ p c, ¬ Lists j p c) : certificates j = [] := by
  rw [← map_snd_entries, List.map_eq_nil_iff, List.eq_nil_iff_forall_not_mem]
  exact fun e he ↦ h e.1 e.2 (mem_entries.1 he)

theorem entry_eq_none (h : ∀ der c, Says der n → Certificate.ofDer der ≠ .ok c) : entry n = none := by
  rw [Option.eq_none_iff_forall_ne_some]
  intro c hc
  obtain ⟨der, hsays, hder⟩ := entry_eq_some.1 hc
  exact h der c hsays hder

/-- The second nodes are the first and more, but what is more gives no certificate. -/
inductive Padded : List Node → List Node → Prop
  | insert (l r : List Node) (n : Node) (hn : n.text? = none) (hnone : ∀ p c, ¬ Lists n p c) :
    Padded (l ++ r) (l ++ n :: r)
  | split (l r : List Node) (a b : List Char) :
    Padded (l ++ .text (a ++ b) :: r) (l ++ .text a :: .text b :: r)
  | wrap (name : String) (l ns r : List Node)
    (hnone : ∀ der c, Says der (.element name ns) → Certificate.ofDer der ≠ .ok c) :
    Padded (l ++ ns.filter (·.text? = none) ++ r) (l ++ .element name ns :: r)
  | child (name : String) (l r : List Node) {ns ns' : List Node} (h : Padded ns ns') :
    Padded (l ++ .element name ns :: r) (l ++ .element name ns' :: r)

theorem joined_filter (ns : List Node) : joined (ns.filter (·.text? = none)) = [] := by
  have hnone : (ns.filter (·.text? = none)).filterMap text? = [] :=
    List.filterMap_eq_nil_iff.2 fun n hn ↦ of_decide_eq_true (List.mem_filter.1 hn).2
  rw [joined, hnone, List.flatten_nil]

theorem flatMap_certificates_filter (ns : List Node) :
    (ns.filter (·.text? = none)).flatMap certificates = ns.flatMap certificates := by
  induction ns with
  | nil => rfl
  | cons n ns ih =>
    cases n with
    | text s => exact ih
    | element name children => exact congrArg (certificates (.element name children) ++ ·) ih
    | comment s => exact ih
    | instruction => exact ih

theorem Padded.same {ns ns' : List Node} (h : Padded ns ns') :
    joined ns' = joined ns ∧ ns'.flatMap certificates = ns.flatMap certificates := by
  induction h with
  | insert l r n hn hnone =>
    constructor
    · rw [joined_append, joined_append, joined_cons hn]
    · rw [List.flatMap_append, List.flatMap_append, List.flatMap_cons, certificates_eq_nil hnone,
        List.nil_append]
  | split l r a b =>
    constructor
    · simp
    · rw [List.flatMap_append, List.flatMap_append]
      rfl
  | wrap name l ns r hnone =>
    constructor
    · simp [joined_filter]
    · simp [certificates_element, entry_eq_none hnone, flatMap_certificates_filter]
  | child name l r h ih =>
    constructor
    · simp
    · simp [certificates_element, entry_congr name ih.1, ih.2]

theorem flatMap_certificates_of_eqvGen {ns ns' : List Node} (h : Relation.EqvGen Padded ns ns') :
    ns'.flatMap certificates = ns.flatMap certificates := by
  induction h with
  | rel ns ns' h => exact h.same.2
  | refl ns => rfl
  | symm ns ns' _ ih => exact ih.symm
  | trans ns ms ns' _ _ ih₁ ih₂ => exact ih₂.trans ih₁

/-! ### Whole lists -/

theorem parse_eq (h : IsDocument s doc) : parse s = some (certificates doc) := by
  rw [parse, parse_eq_some.2 h]
  rfl

/-- The certificates of a document are those that the elements for certificates in it say, in the
order of these elements. So certificates that are the only ones said in a document all come back, and
nothing that says none makes a difference. -/
theorem parse_of_isDocument (h : IsDocument s doc) :
    (∃ es : List (List ℕ × Certificate), parse s = some (es.map (·.2)) ∧
      es.Pairwise (·.1 < ·.1) ∧ ∀ p c, (p, c) ∈ es ↔ Lists doc p c) ∧
    (∀ ps cs, ps.Pairwise (· < ·) →
      List.Forall₂ (fun p c ↦ c.IsDecoded ∧ ∃ n, doc.at? p = some n ∧ Says c.der n) ps cs →
      (∀ p c, Lists doc p c → p ∈ ps) → parse s = some cs) ∧
    ∀ t doc', IsDocument t doc' → Relation.EqvGen Padded [doc] [doc'] → parse t = parse s := by
  refine ⟨⟨entries doc, ?_, pairwise_entries doc, fun p c ↦ mem_entries⟩, ?_, ?_⟩
  · rw [parse_eq h, map_snd_entries]
  · intro ps cs hps hcs hall
    have hlists : List.Forall₂ (Lists doc) ps cs := hcs.imp fun p c ⟨⟨b, hb⟩, n, hn, hsays⟩ ↦
      ⟨n, c.der, hn, hsays, Certificate.rereads_ofDer.read_der hb⟩
    rw [parse_eq h, ← map_snd_entries, entries_eq_zip hps hlists hall,
      List.map_snd_zip hlists.length_eq.ge]
  · intro t doc' ht hpad
    have hsame := flatMap_certificates_of_eqvGen hpad
    rw [List.flatMap_singleton, List.flatMap_singleton] at hsame
    rw [parse_eq ht, parse_eq h, hsame]

open Certificate

def sampleHalves : List Char × List Char := (Base64.encode (sampleDer 'A' 'A' [])).splitAt 70

def sampleLast : List Char := Base64.encode (sampleDer 'B' 'A' [])

def sampleText (before after : String) : List Char :=
  "<?xml version='1.0'?><t:L xmlns:t='u'><t:X509Certificate>".toList ++ sampleHalves.1 ++
    "<!-- half -->\n".toList ++ sampleHalves.2 ++ "</t:X509Certificate>".toList ++ before.toList ++
    "<X509Certificate>".toList ++ sampleLast ++ "</X509Certificate>".toList ++ after.toList ++
    "</t:L>".toList

def sampleFirst : Node :=
  .element "X509Certificate"
    [.text sampleHalves.1, .comment " half ".toList, .text ('\n' :: sampleHalves.2)]

def sampleRest : Node := .element "X509Certificate" [.text sampleLast]

def sampleAround : Node := .element "X509Certificate" [.text "AAAA".toList, sampleRest]

set_option maxRecDepth 2048 in
theorem isDocument_sample : IsDocument (sampleText "" "") (.element "L" [sampleFirst, sampleRest]) :=
  Xml.parse_eq_some.1 rfl

set_option maxRecDepth 2048 in
theorem isDocument_around :
    IsDocument (sampleText "<X509Certificate>AAAA" "</X509Certificate>")
      (.element "L" [sampleFirst, sampleAround]) :=
  Xml.parse_eq_some.1 rfl

theorem padded_sample :
    Padded [.element "L" [sampleFirst, sampleRest]] [.element "L" [sampleFirst, sampleAround]] := by
  have hnone : entry sampleAround = none := by decide +kernel
  refine .child "L" [] [] (.wrap "X509Certificate" [sampleFirst] [.text "AAAA".toList, sampleRest] []
    fun der c hsays hder ↦ ?_)
  have hsome := entry_eq_some.2 ⟨der, hsays, hder⟩
  rw [← sampleAround, hnone] at hsome
  cases hsome

theorem parse_of_isDocument_around :
    IsDocument (sampleText "" "") (.element "L" [sampleFirst, sampleRest]) ∧
      parse (sampleText "" "") = some [sample 'A' 'A' [], sample 'B' 'A' []] ∧
      IsDocument (sampleText "<X509Certificate>AAAA" "</X509Certificate>")
        (.element "L" [sampleFirst, sampleAround]) ∧
      parse (sampleText "<X509Certificate>AAAA" "</X509Certificate>") = parse (sampleText "" "") := by
  obtain ⟨-, hwhole, hpadded⟩ := parse_of_isDocument isDocument_sample
  refine ⟨isDocument_sample, hwhole [[0], [1]] _ (by decide) ?_ ?_, isDocument_around,
    hpadded _ _ isDocument_around (.rel _ _ padded_sample)⟩
  · have hfirst : Says (sample 'A' 'A' []).der sampleFirst := ⟨_, rfl, by decide +kernel⟩
    have hrest : Says (sample 'B' 'A' []).der sampleRest := ⟨_, rfl, by decide +kernel⟩
    exact .cons ⟨isDecoded_sample (by decide +kernel), _, rfl, hfirst⟩
      (.cons ⟨isDecoded_sample (by decide +kernel), _, rfl, hrest⟩ .nil)
  · intro p c h
    have hentries : (entries (.element "L" [sampleFirst, sampleRest])).map (·.1) = [[0], [1]] := by
      decide +kernel
    rw [← hentries]
    exact List.mem_map_of_mem (mem_entries.2 h)

end CertPath.TrustList
