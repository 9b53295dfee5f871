import CertPath.Proofs.Completeness
import CertPath.Proofs.Decoding
import CertPath.Proofs.Pool
import CertPath.Proofs.Settlement

namespace CertPath

/-- What a verified path vouches for: a chain of certificates from the leaf to the only one among
them that signs itself, all of them but the leaf from the pool, with one entry for each. -/
structure VerifiedPath.Sound (f : Verifier) (maxDepth : Nat) (leaf : Certificate)
    (pool : List Certificate) (v : VerifiedPath) : Prop where
  starts : v.path.certificates.head? = some leaf
  long : 2 ≤ v.path.certificates.length
  short : v.path.certificates.length ≤ maxDepth
  pooled : ∀ c ∈ v.path.certificates.tail, c ∈ pool
  linked : v.path.certificates.IsChain f.Issued
  anchored : f.certificate v.path.anchor v.path.anchor.publicKey = .ok ()
  unanchored : ∀ c ∈ v.path.leaf :: v.path.intermediates, f.certificate c c.publicKey ≠ .ok ()
  distinct : (v.path.certificates.map (·.der)).Nodup
  length_entries : v.entries.length = v.path.certificates.length
  entry : ∀ i (h : i < v.path.certificates.length) (_ : i < v.entries.length),
    v.entries[i].depth = i ∧
    v.entries[i].subject = v.path.certificates[i].subject.oneline ∧
    v.entries[i].issuer = v.path.certificates[i].issuer.oneline ∧
    v.entries[i].serial = v.path.certificates[i].serialHex ∧
    v.entries[i].fingerprint = v.path.certificates[i].fingerprint

namespace CertificationPath

variable (q : CertificationPath)

theorem nodup_tail (hi : (q.intermediates.map (·.der)).Nodup)
    (ha : ∀ c ∈ q.intermediates, c.der ≠ q.anchor.der) :
    (q.certificates.tail.map (·.der)).Nodup := by
  simp only [certificates, List.cons_append, List.tail_cons, List.map_append, List.map_cons,
    List.map_nil]
  rw [List.nodup_append]
  refine ⟨hi, by simp, fun x hx y hy ↦ ?_⟩
  obtain ⟨c, hc, rfl⟩ := List.mem_map.1 hx
  obtain rfl := List.mem_singleton.1 hy
  exact ha c hc

theorem nodup_certificates (ht : (q.certificates.tail.map (·.der)).Nodup)
    (hi : ∀ c ∈ q.intermediates, c.der ≠ q.leaf.der) (ha : q.anchor.der ≠ q.leaf.der) :
    (q.certificates.map (·.der)).Nodup := by
  refine List.nodup_cons.2 ⟨fun hm ↦ ?_, ht⟩
  obtain ⟨c, hc, he⟩ := List.mem_map.1 hm
  rcases List.mem_append.1 hc with hc | hc
  · exact hi c hc he
  · exact ha (List.mem_singleton.1 hc ▸ he)

end CertificationPath

namespace PathBuilder

variable {b : PathBuilder} {leaf : Certificate} {p : Partition} {cs : List Placed} {a : Certificate}

theorem ValidPath.linked (h : b.ValidPath leaf p cs a) :
    (leaf :: cs.map Prod.fst ++ [a]).IsChain b.verifier.Issued :=
  isChain_concat h.chain.linked h.issued

theorem Chain.nodup (h : b.Chain leaf p.intermediates cs)
    (hp : (p.intermediates.map (·.der)).Nodup) : ((cs.map Prod.fst).map (·.der)).Nodup := by
  rw [List.map_map, List.nodup_iff_pairwise_ne, List.pairwise_map]
  have hd := List.pairwise_map.1 (List.nodup_iff_pairwise_ne.1 h.distinct)
  refine hd.imp_of_mem fun {x y} hx hy hne he ↦ hne ?_
  have hx' : (p.intermediates.map (·.der))[x.2]? = some x.1.der := by simp [h.placed x hx]
  have hy' : (p.intermediates.map (·.der))[y.2]? = some y.1.der := by simp [h.placed y hy]
  refine (List.getElem?_inj (List.getElem?_eq_some_iff.1 hx').1 hp).1 ?_
  rw [hx', hy']
  exact congrArg some he

theorem Chain.mem_intermediates (h : b.Chain leaf p.intermediates cs) {c : Certificate}
    (hc : c ∈ cs.map Prod.fst) : c ∈ p.intermediates := by
  obtain ⟨x, hx, rfl⟩ := List.mem_map.1 hc
  exact List.mem_of_getElem? (h.placed x hx)

theorem Chain.foreign_of_mem (h : b.Chain leaf p.intermediates cs) {c : Certificate}
    (hc : c ∈ cs.map Prod.fst) : c.der ≠ leaf.der := by
  obtain ⟨x, hx, rfl⟩ := List.mem_map.1 hc
  exact h.foreign x hx

theorem ValidPath.nodup_tail (h : b.ValidPath leaf p cs a)
    (hp : ((p.anchors ++ p.intermediates).map (·.der)).Nodup) :
    ((cs.map Prod.fst ++ [a]).map (·.der)).Nodup := by
  rw [List.map_append, List.nodup_append] at hp
  obtain ⟨-, hi, hai⟩ := hp
  refine CertificationPath.nodup_tail ⟨leaf, cs.map Prod.fst, a⟩ (h.chain.nodup hi) fun c hc ↦ ?_
  have hc' := List.mem_map_of_mem (f := (·.der)) (h.chain.mem_intermediates hc)
  exact (hai _ (List.mem_map_of_mem h.anchor) _ hc').symm

theorem ValidPath.distinct (h : b.ValidPath leaf p cs a)
    (hp : ((p.anchors ++ p.intermediates).map (·.der)).Nodup) (ha : a.der ≠ leaf.der) :
    ((leaf :: cs.map Prod.fst ++ [a]).map (·.der)).Nodup :=
  CertificationPath.nodup_certificates ⟨leaf, cs.map Prod.fst, a⟩ (h.nodup_tail hp)
    (fun _ hc ↦ h.chain.foreign_of_mem hc) ha

end PathBuilder

namespace TrustChainValidator

variable {o : VerifyOptions} {f : Verifier} {source : ListSource} {t : TrustChainValidator}
  {leaf : Certificate} {pool : List Certificate}

theorem create_eq_ok (h : create o f source = .ok t) :
    t = ⟨o, f, source⟩ ∧ 1 ≤ o.maxListSize.toNat ∧ 2 ≤ o.maxPathDepth.toNat := by
  cases hv : o.validate with
  | error e =>
    rw [create, hv] at h
    cases h
  | ok u =>
    rw [create, hv] at h
    refine ⟨(Except.ok.inj h).symm, ?_⟩
    unfold VerifyOptions.validate at hv
    split_ifs at hv with h₁ h₂ h₃ h₄
    exact ⟨Nat.one_le_iff_ne_zero.2 fun hn ↦ h₂ (UInt64.toNat_inj.1 hn),
      Nat.le_of_not_lt fun hn ↦ h₄ (UInt64.lt_iff_toNat_lt.2 hn)⟩

theorem findPath_eq_ok {q : CertificationPath} (h : t.findPath leaf pool = .ok q) :
    ∃ p, Partition.ofPool t.verifier pool = .ok p ∧ t.pathBuilder.build leaf p = .ok q := by
  rw [findPath] at h
  cases hs : t.verifier.isSelfSigned leaf with
  | error e => rw [hs] at h; cases h
  | ok r =>
    rw [hs] at h
    cases r with
    | true => cases h
    | false =>
      cases hp : Partition.ofPool t.verifier pool with
      | error e => rw [hp] at h; cases h
      | ok p => exact ⟨p, rfl, by rw [hp] at h; exact h⟩

theorem sound_of_verify (ht : create o f source = .ok t) (hl : leaf.IsDecoded)
    (hd : ∀ c ∈ pool, c.IsDecoded) {v : VerifiedPath} (hv : (t.verify leaf pool).outcome = .ok v) :
    v.Sound f o.maxPathDepth.toNat leaf pool := by
  obtain ⟨rfl, -, hdepth⟩ := create_eq_ok ht
  obtain ⟨q, hq, rfl⟩ := verify_eq_ok hv
  obtain ⟨p, hp, hb⟩ := findPath_eq_ok hq
  obtain ⟨hleaf, cs, a, hpath, rfl⟩ := PathBuilder.validPath_of_build _ leaf p hb
  change f.certificate leaf leaf.publicKey = _ at hleaf
  obtain ⟨hapool, ha⟩ := Partition.isSelfSigned_of_mem_anchors hp hpath.anchor
  rw [Verifier.isSelfSigned, Verifier.holds_eq_true_iff] at ha
  change f.certificate a a.publicKey = _ at ha
  -- The anchor signs itself and the leaf does not, but the verifier sees more than encodings.
  have hne : a.der ≠ leaf.der := by
    intro he
    rw [(hd a hapool).eq_of_der hl he, hleaf] at ha
    cases ha
  have hinter : ∀ c ∈ cs.map Prod.fst,
      c ∈ pool ∧ f.certificate c c.publicKey = .error .mismatch := by
    intro c hc
    obtain ⟨hcpool, hs⟩ :=
      Partition.isSelfSigned_of_mem_intermediates hp (hpath.chain.mem_intermediates hc)
    exact ⟨hcpool, (f.holds_eq_false_iff _ _).1 hs⟩
  have hlen := length_entries (length_clear ⟨o, f, source⟩ ⟨leaf, cs.map Prod.fst, a⟩)
  constructor
  case starts => rfl
  case long => simp [CertificationPath.length]
  case short =>
    rcases hpath.chain.short with rfl | hs
    · simpa [CertificationPath.length] using hdepth
    · change cs.length + 2 ≤ o.maxPathDepth.toNat at hs
      simpa [CertificationPath.length] using hs
  case pooled =>
    intro c hc
    rcases List.mem_append.1 hc with hc | hc
    · exact (hinter c hc).1
    · exact List.mem_singleton.1 hc ▸ hapool
  case linked => exact hpath.linked
  case anchored => exact ha
  case unanchored =>
    refine List.forall_mem_cons.2 ⟨by simp [hleaf], fun c hc ↦ by simp [(hinter c hc).2]⟩
  case distinct => exact hpath.distinct (Partition.nodup_of_ofPool hp) hne
  case length_entries => rw [hlen, CertificationPath.length_certificates]
  case entry =>
    intro i h hi
    rw [getElem_entries hi h (by rw [length_clear]; simpa using h)]
    exact ⟨rfl, rfl, rfl, rfl, rfl⟩

/-- Every verified path is sound, whether the anchors were in the pool or came from a source. -/
theorem verify_sound (ht : create o f source = .ok t) (hd : ∀ c ∈ leaf :: pool, c.IsDecoded) :
    (∀ v, (t.verify leaf pool).outcome = .ok v → v.Sound f o.maxPathDepth.toNat leaf pool) ∧
    ∀ w a v, t.verifyAnchored w leaf pool = .ok a → a.outcome = .ok v →
      ∃ anchors, t.sourceAnchors w = .ok anchors ∧
        v.Sound f o.maxPathDepth.toNat leaf (pool ++ anchors) := by
  obtain ⟨hl, hp⟩ := List.forall_mem_cons.1 hd
  refine ⟨fun v hv ↦ sound_of_verify ht hl hp hv, fun w a v ha hv ↦ ?_⟩
  obtain ⟨anchors, hanchors, ha⟩ := Ending.bind_eq_ok_iff.1 ha
  obtain rfl := Ending.ok.inj ha
  refine ⟨anchors, hanchors, sound_of_verify ht hl (fun c hc ↦ ?_) hv⟩
  rcases List.mem_append.1 hc with hc | hc
  · exact hp c hc
  · rw [sourceAnchors] at hanchors
    split at hanchors
    · cases hanchors
    · exact AnchorSource.isDecoded_of_load hanchors hc

theorem verify_sound_repetitions :
    ∃ v, (sampleValidator.verify (.sample 'C' 'B' []) [.sample 'B' 'A' [], .sample 'A' 'A' [],
        .sample 'C' 'B' [], .sample 'A' 'A' []]).outcome = .ok v ∧
      v.Sound .sample 32 (.sample 'C' 'B' []) [.sample 'B' 'A' [], .sample 'A' 'A' [],
        .sample 'C' 'B' [], .sample 'A' 'A' []] := by
  have ht : create .standard .sample RevocationChecker.sampleSource = .ok sampleValidator := rfl
  have ha : (Certificate.sample 'A' 'A' []).IsDecoded :=
    Certificate.isDecoded_sample (by decide +kernel)
  have hb : (Certificate.sample 'B' 'A' []).IsDecoded :=
    Certificate.isDecoded_sample (by decide +kernel)
  have hc : (Certificate.sample 'C' 'B' []).IsDecoded :=
    Certificate.isDecoded_sample (by decide +kernel)
  have hp : sampleValidator.findPath (.sample 'C' 'B' []) [.sample 'B' 'A' [], .sample 'A' 'A' [],
      .sample 'C' 'B' [], .sample 'A' 'A' []] =
        .ok ⟨.sample 'C' 'B' [], [.sample 'B' 'A' []], .sample 'A' 'A' []⟩ := by decide +kernel
  have hv := verify_of_notRevoked hp fun _ ↦ by decide +kernel
  exact ⟨_, hv, (verify_sound ht (by simp [ha, hb, hc])).1 _ hv⟩

end TrustChainValidator

end CertPath
