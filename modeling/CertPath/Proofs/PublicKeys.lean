import CertPath.Proofs.Classification
import CertPath.Proofs.Consultation
import CertPath.Proofs.Redecoding

namespace CertPath

theorem Algorithm.decode_selfDelimiting : Der.SelfDelimiting decode := by
  intro s a r h
  simp only [decode, Option.bind_eq_bind, Option.bind_eq_some_iff, Prod.exists] at h
  obtain ⟨body, _, hs, oid, r₁, ho, h⟩ := h
  obtain ⟨u, rfl, hu⟩ := Der.sequence_selfDelimiting hs
  by_cases hr : r₁ = []
  · simp only [hr, if_true, Option.some.injEq, Prod.mk.injEq] at h
    obtain ⟨rfl, rfl⟩ := h
    exact ⟨u, rfl, fun t ↦ by simp [decode, hu, ho, hr]⟩
  · simp only [hr, if_false, Option.bind_eq_some_iff, Prod.exists, Option.some.injEq,
      Prod.mk.injEq] at h
    obtain ⟨e, r₂, he, rfl, rfl⟩ := h
    exact ⟨u, rfl, fun t ↦ by simp [decode, hu, ho, hr, he]⟩

namespace PublicKeyInfo

def behind (s : Bytes) : Option Bytes := do
  let (body, _) ← Der.sequence s
  let (_, r) ← Algorithm.decode body
  let (_, r) ← Der.bitString r
  some r

theorem decode_selfDelimiting : Der.SelfDelimiting decode := by
  intro s a r h
  simp only [decode, Option.bind_eq_bind, Option.bind_eq_some_iff, Prod.exists,
    Option.some.injEq, Prod.mk.injEq] at h
  obtain ⟨body, _, hs, algorithm, r₁, ha, key, spare, hb, rfl, rfl⟩ := h
  obtain ⟨u, rfl, hu⟩ := Der.sequence_selfDelimiting hs
  exact ⟨u, rfl, fun t ↦ by simp [decode, hu, ha, hb]⟩

variable {s r spare : Bytes} {k : PublicKeyInfo}

theorem exists_behind (h : decode s = some (k, r)) :
    ∃ spare, behind s = some spare ∧ s = k.raw ++ spare ++ r := by
  simp only [decode, Option.bind_eq_bind, Option.bind_eq_some_iff, Prod.exists,
    Option.some.injEq, Prod.mk.injEq] at h
  obtain ⟨body, _, hs, algorithm, r₁, ha, key, spare, hb, rfl, rfl⟩ := h
  have hbehind : behind s = some spare := by simp [behind, hs, ha, hb]
  obtain ⟨head, rfl⟩ := Der.exists_append_of_sequence hs
  obtain ⟨u, rfl, -⟩ := Algorithm.decode_selfDelimiting ha
  obtain ⟨w, rfl, -⟩ := Der.bitString_selfDelimiting hb
  refine ⟨spare, hbehind, ?_⟩
  have hwhole : head ++ (u ++ (w ++ spare)) = (head ++ u ++ w) ++ spare := by simp
  rw [hwhole, Bytes.before_append, List.length_append, Nat.add_sub_cancel, List.take_left]

theorem decode_whole (h : decode s = some (k, r)) (hspare : behind s = some spare) :
    decode (k.raw ++ spare) = some (k, []) := by
  obtain ⟨u, hu, hdecode⟩ := decode_selfDelimiting h
  obtain ⟨spare', hspare', hs⟩ := exists_behind h
  obtain rfl : spare' = spare := Option.some.inj (hspare'.symm.trans hspare)
  obtain rfl : u = k.raw ++ spare' := List.append_cancel_right (hu.symm.trans hs)
  simpa using hdecode []

theorem decode_raw (h : decode s = some (k, r)) (hspare : behind s = some spare) :
    decode k.raw = if spare = [] then some (k, []) else none := by
  have hwhole := decode_whole h hspare
  by_cases hnil : spare = []
  · rw [if_pos hnil]
    simpa [hnil] using hwhole
  · rw [if_neg hnil]
    exact decode_selfDelimiting.eq_none_of_append hwhole hnil

end PublicKeyInfo

namespace CertificateBody

def fromKey (s : Bytes) : Option Bytes := do
  let (body, _) ← Der.sequence s
  let r ← skipVersion body
  let (_, r) ← Der.integerBody r
  let (_, r) ← Algorithm.decode r
  let (_, r) ← DistinguishedName.decode r
  let (_, r) ← validity r
  let (_, r) ← DistinguishedName.decode r
  some r

theorem exists_fromKey {s raw rest : Bytes} {body : CertificateBody}
    (h : decode s = some ((raw, body), rest)) :
    ∃ r t, fromKey s = some r ∧ PublicKeyInfo.decode r = some (body.publicKey, t) := by
  simp only [decode, Option.bind_eq_bind, Option.bind_eq_some_iff, Prod.exists,
    Option.some.injEq, Prod.mk.injEq] at h
  obtain ⟨content, _, hs, r₀, hv, serial, r₁, hn, algorithm, r₂, ha, issuer, r₃, hi, start, stop,
    r₄, ht, subject, r₅, hsub, key, r₆, hk, _, _, _, _, _, _, ⟨-, rfl⟩, -⟩ := h
  exact ⟨r₅, r₆, by simp [fromKey, hs, hv, hn, ha, hi, ht, hsub], hk⟩

end CertificateBody

namespace Certificate

/-- What stands behind the public key in the element that holds it. -/
def behindKey (c : Certificate) : Option Bytes := do
  let (content, _) ← Der.sequence c.der
  let r ← CertificateBody.fromKey content
  PublicKeyInfo.behind r

/-- The octets kept of the public key are not all of its element. -/
def KeyCut (c : Certificate) : Prop := c.behindKey ≠ some []

variable {k : Certificate}

theorem exists_behindKey {z : Signed × CertificateBody} {r : Bytes}
    (hz : decodeSigned k.der = some (z, r)) :
    ∃ s t spare, PublicKeyInfo.decode s = some (z.2.publicKey, t) ∧
      PublicKeyInfo.behind s = some spare ∧ k.behindKey = some spare := by
  obtain ⟨g, body⟩ := z
  simp only [decodeSigned, Signed.decode, Option.bind_eq_bind, Option.bind_eq_some_iff, Prod.exists,
    Option.some.injEq, Prod.mk.injEq] at hz
  obtain ⟨content, _, hs, raw, body', r₁, hc, _, _, _, _, _, _, ⟨-, rfl⟩, -⟩ := hz
  obtain ⟨s, t, hfrom, hkey⟩ := CertificateBody.exists_fromKey hc
  obtain ⟨spare, hspare, -⟩ := PublicKeyInfo.exists_behind hkey
  exact ⟨s, t, spare, hkey, hspare, by simp [behindKey, hs, hfrom, hspare]⟩

theorem IsDecoded.exists_key (hk : k.IsDecoded) :
    ∃ z spare, decodeSigned k.der = some (z, []) ∧ k.behindKey = some spare ∧
      PublicKeyInfo.decode (k.publicKey ++ spare) = some (z.2.publicKey, []) ∧
      PublicKeyInfo.decode k.publicKey =
        if spare = [] then some (z.2.publicKey, []) else none := by
  obtain ⟨g, body, hsigned, hraw, -⟩ := hk.exists_signed
  obtain ⟨s, t, spare, hkey, hspare, hbehind⟩ := exists_behindKey hsigned
  rw [← hraw]
  exact ⟨(g, body), spare, hsigned, hbehind, PublicKeyInfo.decode_whole hkey hspare,
    PublicKeyInfo.decode_raw hkey hspare⟩

theorem IsDecoded.decode_eq_none_iff (hk : k.IsDecoded) :
    PublicKeyInfo.decode k.publicKey = none ↔ k.KeyCut := by
  obtain ⟨z, spare, -, hbehind, -, hdecode⟩ := hk.exists_key
  rw [hdecode, KeyCut, hbehind]
  simp

end Certificate

theorem Signature.verify_eq_publicKey_iff {s : Signed} {key : Bytes} :
    verify s key = .error (.other .publicKey) ↔ PublicKeyInfo.decode key = none := by
  unfold verify
  split
  · rename_i hnone
    simp [hnone]
  · rename_i hsome
    rw [hsome]
    split
    · split
      · simp
      · split <;> simp
    · simp

namespace Verifier

variable {c k : Certificate}

theorem certificate_eq_publicKey_iff (hc : c.IsDecoded) (hk : k.IsDecoded) :
    standard.certificate c k.publicKey = .error (.other .publicKey) ↔ k.KeyCut := by
  obtain ⟨s, body, hs, -⟩ := hc.exists_signed
  rw [← hk.decode_eq_none_iff]
  simp only [standard, hs]
  exact Signature.verify_eq_publicKey_iff

theorem revocationList_eq_publicKey_iff {y : Bytes} {l : RevocationList}
    (hl : RevocationList.ofDer y = .ok l) (hk : k.IsDecoded) :
    standard.revocationList l k.publicKey = .error (.other .publicKey) ↔ k.KeyCut := by
  obtain ⟨⟨s, body⟩, hs⟩ := RevocationList.rereads_ofDer.exists_der hl
  rw [← hk.decode_eq_none_iff]
  simp only [standard, hs]
  exact Signature.verify_eq_publicKey_iff

end Verifier

namespace Partition

variable {pool : List Certificate} (hd : ∀ c ∈ pool, c.IsDecoded)

include hd

theorem ofPool_eq_publicKey_iff (subject : String) :
    ofPool .standard pool = .error (.signature subject .publicKey) ↔
      ∃ xs c ys, pool = xs ++ c :: ys ∧
        (∀ x ∈ xs, ∀ q, Verifier.standard.certificate x x.publicKey ≠ .error (.other q)) ∧
        c.KeyCut ∧ subject = c.subject.oneline := by
  rw [ofPool_eq_error_iff hd, List.findSome?_eq_some_iff]
  simp only [fault_eq_some_iff, fault_eq_none_iff_ne]
  constructor
  · rintro ⟨xs, c, ys, rfl, ⟨q, hq, he⟩, hxs⟩
    obtain ⟨rfl, rfl⟩ := TrustError.signature.inj he
    have hc : c.IsDecoded := hd c (by simp)
    exact ⟨xs, c, ys, rfl, hxs, (Verifier.certificate_eq_publicKey_iff hc hc).1 hq, rfl⟩
  · rintro ⟨xs, c, ys, rfl, hxs, hcut, rfl⟩
    have hc : c.IsDecoded := hd c (by simp)
    exact ⟨xs, c, ys, rfl, ⟨_, (Verifier.certificate_eq_publicKey_iff hc hc).2 hcut, rfl⟩, hxs⟩

theorem exists_ofPool_eq_error_of_keyCut {c : Certificate} (hc : c ∈ pool) (hcut : c.KeyCut) :
    ∃ e, ofPool .standard pool = .error e := by
  rw [exists_ofPool_eq_error_iff hd]
  exact ⟨c, hc, _, (Verifier.certificate_eq_publicKey_iff (hd c hc) (hd c hc)).2 hcut⟩

end Partition

namespace PathBuilder

variable {n : ℕ} {leaf : Certificate} {p : Partition}

theorem build_of_keyCut (hleaf : leaf.IsDecoded) (hcut : leaf.KeyCut) :
    build ⟨.standard, n⟩ leaf p = .error (.signature leaf.subject.oneline .publicKey) :=
  build_of_other _ leaf p ((Verifier.certificate_eq_publicKey_iff hleaf hleaf).2 hcut)

theorem keyCut_of_build (hd : ∀ c ∈ leaf :: (p.anchors ++ p.intermediates), c.IsDecoded)
    {subject : String}
    (h : build ⟨.standard, n⟩ leaf p = .error (.signature subject .publicKey)) :
    ∃ c d, Consulted ⟨.standard, n⟩ leaf p c d.publicKey ∧
      d ∈ leaf :: (p.anchors ++ p.intermediates) ∧ d.KeyCut ∧ subject = c.subject.oneline := by
  obtain ⟨c, key, hconsulted, hq, rfl⟩ := consulted_of_build h
  cases hconsulted with
  | own =>
    have hleaf : leaf.IsDecoded := hd leaf List.mem_cons_self
    exact ⟨leaf, leaf, .own, List.mem_cons_self,
      (Verifier.certificate_eq_publicKey_iff hleaf hleaf).1 hq, rfl⟩
  | @candidate cs d hc hcand hn =>
    have hmem : d ∈ leaf :: (p.anchors ++ p.intermediates) := List.mem_cons_of_mem _ hcand.mem
    have htop : top leaf cs ∈ leaf :: (p.anchors ++ p.intermediates) :=
      List.cons_subset_cons leaf (List.subset_append_right _ _) hc.top_mem
    exact ⟨_, d, .candidate hc hcand hn, hmem,
      (Verifier.certificate_eq_publicKey_iff (hd _ htop) (hd d hmem)).1 hq, rfl⟩

end PathBuilder

/-- The public key kept of a certificate is read again as in the certificate unless something stands
behind it in its element. Then it cannot be read: no signature is checked with it, no pool with the
certificate is split, and no path is built from it. -/
theorem decode_publicKey {x : Bytes} {k : Certificate} (h : Certificate.ofDer x = .ok k) :
    (∃ z r spare, Certificate.decodeSigned x = some (z, r) ∧ k.behindKey = some spare ∧
      PublicKeyInfo.decode (k.publicKey ++ spare) = some (z.2.publicKey, []) ∧
      PublicKeyInfo.decode k.publicKey =
        if spare = [] then some (z.2.publicKey, []) else none) ∧
    (∀ c : Certificate, c.IsDecoded →
      (Verifier.standard.certificate c k.publicKey = .error (.other .publicKey) ↔ k.KeyCut)) ∧
    (∀ y l, RevocationList.ofDer y = .ok l →
      (Verifier.standard.revocationList l k.publicKey = .error (.other .publicKey) ↔ k.KeyCut)) ∧
    (∀ pool : List Certificate, (∀ c ∈ pool, c.IsDecoded) →
      (k ∈ pool → k.KeyCut → ∃ e, Partition.ofPool .standard pool = .error e) ∧
      ∀ subject, Partition.ofPool .standard pool = .error (.signature subject .publicKey) ↔
        ∃ xs c ys, pool = xs ++ c :: ys ∧
          (∀ d ∈ xs, ∀ q, Verifier.standard.certificate d d.publicKey ≠ .error (.other q)) ∧
          c.KeyCut ∧ subject = c.subject.oneline) ∧
    ∀ (n : ℕ) (p : Partition), (∀ c ∈ k :: (p.anchors ++ p.intermediates), c.IsDecoded) →
      (k.KeyCut → PathBuilder.build ⟨.standard, n⟩ k p =
        .error (.signature k.subject.oneline .publicKey)) ∧
      ∀ subject,
        PathBuilder.build ⟨.standard, n⟩ k p = .error (.signature subject .publicKey) →
          ∃ c d, PathBuilder.Consulted ⟨.standard, n⟩ k p c d.publicKey ∧
            d ∈ k :: (p.anchors ++ p.intermediates) ∧ d.KeyCut ∧
            subject = c.subject.oneline := by
  have hk : k.IsDecoded := ⟨x, h⟩
  refine ⟨?_, fun c hc ↦ Verifier.certificate_eq_publicKey_iff hc hk,
    fun y l hl ↦ Verifier.revocationList_eq_publicKey_iff hl hk, ?_, ?_⟩
  · obtain ⟨z, spare, hsigned, hkey⟩ := hk.exists_key
    obtain ⟨⟨r, rfl⟩, z', hread⟩ := Certificate.rereads_ofDer h
    obtain rfl : z' = z := by
      have hz := (hread []).1
      rw [List.append_nil, hsigned] at hz
      exact (Prod.mk.inj (Option.some.inj hz)).1.symm
    exact ⟨z', r, spare, (hread r).1, hkey⟩
  · intro pool hd
    exact ⟨Partition.exists_ofPool_eq_error_of_keyCut hd, Partition.ofPool_eq_publicKey_iff hd⟩
  · intro n p hd
    exact ⟨PathBuilder.build_of_keyCut hk, fun subject ↦ PathBuilder.keyCut_of_build hd⟩

def Certificate.sampleSpareDer (spare : Bytes) : Bytes :=
  let algorithm := Der.short 0x30 (Der.short 6 [0x2B, 0x65, 0x70])
  let name := Der.short 0x30 (Der.short 0x31 (Der.short 0x30
    (Der.short 6 [0x55, 4, 3] ++ Der.short 12 (Utf8.ofString "S"))))
  let time := Der.short 23 (Utf8.ofString "250101000000Z")
  let body := Der.short 2 [1] ++ algorithm ++ name ++ Der.short 0x30 (time ++ time) ++ name ++
    Der.short 0x30 (algorithm ++ Der.short 3 [0, 1] ++ spare)
  Der.short 0x30 (Der.short 0x30 body ++ algorithm ++ Der.short 3 [0, 1])

def Certificate.sampleSpare (spare : Bytes) : Certificate :=
  (ofDer (sampleSpareDer spare)).toOption.getD default

theorem decode_publicKey_spare :
    (∃ z r, Certificate.decodeSigned (Certificate.sampleSpareDer []) = some (z, r) ∧
      PublicKeyInfo.decode (Certificate.sampleSpare []).publicKey = some (z.2.publicKey, [])) ∧
    Verifier.standard.certificate (.sampleSpare [5, 0]) (Certificate.sampleSpare []).publicKey ≠
      .error (.other .publicKey) ∧
    Partition.ofPool .standard [.sampleSpare [], .sampleSpare [5, 0]] =
      .error (.signature "CN = S" .publicKey) ∧
    ∀ n, PathBuilder.build ⟨.standard, n⟩ (.sampleSpare [5, 0]) ⟨[.sampleSpare []], []⟩ =
      .error (.signature "CN = S" .publicKey) := by
  have hof : Certificate.ofDer (Certificate.sampleSpareDer []) = .ok (.sampleSpare []) := by
    decide +kernel
  have hofSpare : Certificate.ofDer (Certificate.sampleSpareDer [5, 0]) =
      .ok (.sampleSpare [5, 0]) := by decide +kernel
  have hwhole : (Certificate.sampleSpare []).IsDecoded := ⟨_, hof⟩
  have hspare : (Certificate.sampleSpare [5, 0]).IsDecoded := ⟨_, hofSpare⟩
  have hnothing : (Certificate.sampleSpare []).behindKey = some [] := by decide +kernel
  have hcut : (Certificate.sampleSpare [5, 0]).KeyCut := by
    have hnull : (Certificate.sampleSpare [5, 0]).behindKey = some [5, 0] := by decide +kernel
    rw [Certificate.KeyCut, hnull]
    decide
  have hsubject : (Certificate.sampleSpare [5, 0]).subject.oneline = "CN = S" := by decide +kernel
  obtain ⟨⟨z, r, spare, hz, hb, -, hdecode⟩, hverifier, -, hpool, -⟩ := decode_publicKey hof
  refine ⟨?_, ?_, ?_, ?_⟩
  · obtain rfl : spare = [] := Option.some.inj (hb.symm.trans hnothing)
    exact ⟨z, r, hz, hdecode⟩
  · intro he
    exact (hverifier _ hspare).1 he hnothing
  · rw [(hpool _ (by simp [hwhole, hspare])).2]
    refine ⟨[.sampleSpare []], _, [], rfl, ?_, hcut, hsubject.symm⟩
    intro d hd
    rw [List.mem_singleton.1 hd, ← Verifier.exists_holds_eq_ok_iff]
    decide +kernel
  · intro n
    obtain ⟨-, -, -, -, hbuild⟩ := decode_publicKey hofSpare
    rw [← hsubject]
    exact (hbuild n _ (by simp [hwhole, hspare])).1 hcut

/-- With a null behind its key a root vouches for nobody, and nobody gets past it. -/
theorem decode_publicKey_cut :
    Certificate.ofDer (Certificate.sampleSpareDer [5, 0]) = .ok (.sampleSpare [5, 0]) ∧
    PublicKeyInfo.decode (Certificate.sampleSpare [5, 0]).publicKey = none ∧
    Verifier.standard.certificate (.sampleSpare []) (Certificate.sampleSpare [5, 0]).publicKey =
      .error (.other .publicKey) ∧
    Partition.ofPool .standard [.sampleSpare [5, 0]] =
      .error (.signature "CN = S" .publicKey) ∧
    PathBuilder.build ⟨.standard, PathBuilder.defaultMaxDepth⟩ (.sampleSpare [])
      ⟨[.sampleSpare [5, 0]], []⟩ = .error (.signature "CN = S" .publicKey) := by
  decide +kernel

end CertPath
