import CertPath.DistributionPoint
import CertPath.Proofs.Decoding
import CertPath.Proofs.SerialNumbers

namespace CertPath

namespace PointName

variable {points : List PointName} {u v : String}

/-- Among the names of some point with a full name is this URL. -/
def Names (points : List PointName) (u : String) : Prop :=
  ∃ names, full names ∈ points ∧ .url u ∈ names

/-- Up to a place where `u` is named, and there, `v` is not. -/
def NamesBefore (points : List PointName) (u v : String) : Prop :=
  ∃ ps ns ms qs, points = ps ++ full (ns ++ .url u :: ms) :: qs ∧ ¬ Names ps v ∧ .url v ∉ ns ∧ v ≠ u

theorem mem_filterMap_url? {names : List GeneralName} :
    u ∈ names.filterMap GeneralName.url? ↔ .url u ∈ names := by
  rw [List.mem_filterMap]
  constructor
  · rintro ⟨n, hn, hu⟩
    cases n with
    | url text =>
      cases hu
      exact hn
    | other kind => cases hu
  · intro h
    exact ⟨_, h, rfl⟩

theorem mem_flatMap_urls : u ∈ points.flatMap urls ↔ Names points u := by
  rw [List.mem_flatMap]
  constructor
  · rintro ⟨p, hp, hu⟩
    cases p with
    | full names => exact ⟨names, hp, mem_filterMap_url?.1 hu⟩
    | unnamed => cases hu
  · rintro ⟨names, hp, hu⟩
    exact ⟨full names, hp, mem_filterMap_url?.2 hu⟩

theorem exists_split_of_urls {s t : List String} (h : points.flatMap urls = s ++ u :: t) :
    ∃ ps ns ms qs, points = ps ++ full (ns ++ .url u :: ms) :: qs ∧
      s = ps.flatMap urls ++ ns.filterMap GeneralName.url? := by
  induction points generalizing s with
  | nil => simp at h
  | cons p points ih =>
    rw [List.flatMap_cons, List.append_eq_append_iff] at h
    have hlater : ∀ s', s = p.urls ++ s' → points.flatMap urls = s' ++ u :: t →
        ∃ ps ns ms qs, p :: points = ps ++ full (ns ++ .url u :: ms) :: qs ∧
          s = ps.flatMap urls ++ ns.filterMap GeneralName.url? := by
      rintro s' rfl h
      obtain ⟨ps, ns, ms, qs, rfl, rfl⟩ := ih h
      exact ⟨p :: ps, ns, ms, qs, rfl, by simp⟩
    rcases h with ⟨s', hs, h⟩ | ⟨bs, hp, h⟩
    · exact hlater s' hs h
    · cases bs with
      | nil => exact hlater [] (by simpa using hp.symm) h.symm
      | cons b bs =>
        obtain ⟨rfl, -⟩ := List.cons.inj h
        cases p with
        | unnamed => simp [urls] at hp
        | full names =>
          obtain ⟨ns, ms, rfl, rfl, hms⟩ := List.filterMap_eq_append_iff.1 hp
          obtain ⟨ns', n, ms', rfl, hns', hn, -⟩ := List.filterMap_eq_cons_iff.1 hms
          have hnone : ns'.filterMap GeneralName.url? = [] := List.filterMap_eq_nil_iff.2 hns'
          cases n with
          | other kind => cases hn
          | url text =>
            cases hn
            exact ⟨[], ns ++ ns', ms', points, by simp, by simp [hnone]⟩

theorem pairwise_namesBefore (points : List PointName) :
    (points.flatMap urls).eraseDups.Pairwise (NamesBefore points) := by
  apply (pairwise_eraseDups _).imp
  rintro u v ⟨s, t, hst, hv⟩
  obtain ⟨ps, ns, ms, qs, hpoints, rfl⟩ := exists_split_of_urls hst
  rw [List.mem_cons, List.mem_append, mem_flatMap_urls, mem_filterMap_url?, not_or, not_or] at hv
  exact ⟨ps, ns, ms, qs, hpoints, hv.2.1, hv.2.2, hv.1⟩

end PointName

namespace Certificate

def pointLists (c : Certificate) : List Extension :=
  c.extensions.filter (·.oid = Der.Oid.distributionPoints)

variable {c : Certificate}

theorem pointLists_of_extensionValue (h : c.extensionValue Der.Oid.distributionPoints.text = none) :
    c.pointLists = [] := by
  rw [extensionValue, Option.map_eq_none_iff, List.find?_eq_none] at h
  rw [pointLists, List.filter_eq_nil_iff]
  intro e he hoid
  exact h e he (by simpa using congrArg Der.Oid.text (of_decide_eq_true hoid))

theorem IsDecoded.distributionPoints_eq (hc : c.IsDecoded) :
    c.distributionPoints =
      match c.pointLists with
      | [] => .ok []
      | [e] =>
        match PointName.decodeList e.value with
        | none => .error (.parse c.subject.oneline .distributionPoints)
        | some points => .ok ((points.flatMap PointName.urls).eraseDups.map .mk)
      | _ => .error (.parse c.subject.oneline .distributionPoints) := by
  obtain ⟨g, body, hsigned, -, hext⟩ := hc.exists_signed
  rw [distributionPoints]
  split
  · rename_i hnone
    rw [pointLists_of_extensionValue hnone]
  · have hunique : Extension.unique body.extensions Der.Oid.distributionPoints =
        match c.pointLists with
        | [] => some none
        | [e] => some (some e)
        | _ => none := by
      rw [hext]
      rfl
    rw [hsigned]
    dsimp only
    rw [hunique]
    cases c.pointLists with
    | nil => rfl
    | cons e es => cases es <;> rfl

/-- Of the extension that lists them a certificate has the URLs of all full names, each where it is
named first, and nothing else. The extension must not be there twice, and must be readable. -/
theorem distributionPoints_exact (hc : c.IsDecoded) :
    (c.pointLists = [] → c.distributionPoints = .ok []) ∧
    (2 ≤ c.pointLists.length ∨
        (∃ e, c.pointLists = [e] ∧ PointName.decodeList e.value = none) →
      c.distributionPoints = .error (.parse c.subject.oneline .distributionPoints)) ∧
    ∀ e points, c.pointLists = [e] → PointName.decodeList e.value = some points →
      ∃ urls : List String, c.distributionPoints = .ok (urls.map .mk) ∧ urls.Nodup ∧
        (∀ u, u ∈ urls ↔ PointName.Names points u) ∧
        urls.Pairwise (PointName.NamesBefore points) := by
  rw [hc.distributionPoints_eq]
  refine ⟨?_, ?_, ?_⟩
  · intro h
    rw [h]
  · rintro (hlen | ⟨e, he, hvalue⟩)
    · match hl : c.pointLists, hlen with
      | _ :: _ :: _, _ => rfl
    · simp only [he, hvalue]
  · intro e points he hvalue
    refine ⟨(points.flatMap PointName.urls).eraseDups, ?_, nodup_eraseDups _, ?_,
      PointName.pairwise_namesBefore points⟩
    · simp only [he, hvalue]
    · intro u
      rw [List.mem_eraseDups, PointName.mem_flatMap_urls]

def sampleListingDer (points : List Bytes) : Bytes :=
  let algorithm := Der.short 0x30 (Der.short 6 [0x2B, 0x65, 0x70])
  let time := Der.short 23 (Utf8.ofString "250101000000Z")
  let extension := Der.short 6 [0x55, 0x1D, 0x1F] ++ Der.short 4 (Der.short 0x30 points.flatten)
  let body := Der.short 2 [1] ++ algorithm ++ Der.short 0x30 [] ++ Der.short 0x30 (time ++ time) ++
    Der.short 0x30 [] ++ Der.short 0x30 (algorithm ++ Der.short 3 [0, 1]) ++
    Der.short 0xA3 (Der.short 0x30 (Der.short 0x30 extension))
  Der.short 0x30 (Der.short 0x30 body ++ algorithm ++ Der.short 3 [0, 1])

def samplePoints : List Bytes :=
  let url (text : String) := Der.short 0x86 (Utf8.ofString text)
  [Der.short 0x30 (Der.short 0xA0 (Der.short 0xA0
      (Der.short 0x82 (Utf8.ofString "d") ++ url "http://a" ++ url "http://b"))),
    Der.short 0x30 (Der.short 0xA0 (Der.short 0xA1 (url "http://r"))),
    Der.short 0x30 (Der.short 0x82 (url "http://i")),
    Der.short 0x30 (Der.short 0xA0 (Der.short 0xA0 (url "http://b" ++ url "http://c")))]

def sampleListing : Certificate :=
  (ofDer (sampleListingDer samplePoints)).toOption.getD default

theorem distributionPoints_exact_mixed :
    sampleListing.IsDecoded ∧
    sampleListing.pointLists =
      [⟨Der.Oid.distributionPoints, false, Der.short 0x30 samplePoints.flatten⟩] ∧
    PointName.decodeList (Der.short 0x30 samplePoints.flatten) =
      some [.full [.other 2, .url "http://a", .url "http://b"], .unnamed, .unnamed,
        .full [.url "http://b", .url "http://c"]] ∧
    ∃ urls : List String, sampleListing.distributionPoints = .ok (urls.map .mk) ∧ urls.Nodup ∧
      "http://a" ∈ urls ∧ "http://c" ∈ urls ∧ "http://r" ∉ urls := by
  have hc : sampleListing.IsDecoded := ⟨sampleListingDer samplePoints, by decide +kernel⟩
  have hlists : sampleListing.pointLists =
      [⟨Der.Oid.distributionPoints, false, Der.short 0x30 samplePoints.flatten⟩] := by
    decide +kernel
  have hvalue : PointName.decodeList (Der.short 0x30 samplePoints.flatten) =
      some [.full [.other 2, .url "http://a", .url "http://b"], .unnamed, .unnamed,
        .full [.url "http://b", .url "http://c"]] := by
    decide +kernel
  obtain ⟨urls, hurls, hnodup, hmem, -⟩ := (distributionPoints_exact hc).2.2 _ _ hlists hvalue
  refine ⟨hc, hlists, hvalue, urls, hurls, hnodup, ?_, ?_, ?_⟩
  · exact (hmem _).2 ⟨_, List.mem_cons_self, by decide⟩
  · exact (hmem _).2 ⟨[.url "http://b", .url "http://c"], by decide, by decide⟩
  · rw [hmem]
    rintro ⟨names, hnames, hr⟩
    rw [List.mem_cons, List.mem_cons, List.mem_cons, List.mem_singleton] at hnames
    rcases hnames with h | h | h | h <;> cases h <;> exact absurd hr (by decide)

end Certificate

end CertPath
