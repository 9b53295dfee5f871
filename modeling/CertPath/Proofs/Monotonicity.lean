import CertPath.Proofs.Soundness

namespace CertPath

/-- A verifier that can tell of every signature whether it holds. -/
def Verifier.Decisive (v : Verifier) : Prop :=
  ∀ c key q, v.certificate c key ≠ .error (.other q)

theorem Partition.exists_ofPool_eq_ok {v : Verifier} (hv : v.Decisive) (pool : List Certificate) :
    ∃ p, ofPool v pool = .ok p := by
  have hself : ∀ c, ∃ r, v.isSelfSigned c = .ok r := fun c ↦
    (v.exists_holds_eq_ok_iff c c.publicKey).2 (hv c c.publicKey)
  exact ⟨_, (fill_eq_ok_iff v [] empty ⟨_, _⟩ pool).2 ⟨fun c _ ↦ hself c, rfl, rfl⟩⟩

namespace PathBuilder

variable {b : PathBuilder} {leaf : Certificate} {p p' : Partition} {cs : List Placed}
  {a : Certificate}

theorem exists_build_eq_ok_iff (hv : b.verifier.Decisive) :
    (∃ path, b.build leaf p = .ok path) ↔
      b.verifier.certificate leaf leaf.publicKey = .error .mismatch ∧
        ∃ cs a, b.ValidPath leaf p cs a := by
  constructor
  · rintro ⟨path, h⟩
    obtain ⟨hl, cs, a, hpath, -⟩ := b.validPath_of_build leaf p h
    exact ⟨hl, cs, a, hpath⟩
  · rintro ⟨hl, cs, a, hpath⟩
    rw [b.build_of_mismatch leaf p hl]
    cases hf : b.found leaf p with
    | none =>
      have hnone := ((b.found_eq_none_iff leaf p).1 hf).1
      exact absurd ⟨cs, a, hpath⟩ hnone
    | some r =>
      cases r with
      | ok r => exact ⟨_, rfl⟩
      | error e =>
        obtain ⟨ds, d, -, -, hi⟩ := b.candidate_of_found leaf p hf
        obtain ⟨-, q, hq, -⟩ := (b.issuedBy_eq_error_iff _ _ _).1 hi
        exact absurd hq (hv _ _ q)

theorem top_congr {root : Certificate} {cs ds : List Placed}
    (h : cs.map Prod.fst = ds.map Prod.fst) : top root cs = top root ds := by
  rw [top, top, h]

theorem Chain.transfer {xs ys : List Certificate} (h : b.Chain leaf xs cs)
    (hn : (cs.map Prod.fst).Nodup) (hm : ∀ c ∈ cs.map Prod.fst, c ∈ ys) :
    ∃ ds, ds.map Prod.fst = cs.map Prod.fst ∧ b.Chain leaf ys ds := by
  have hfst : ((cs.map Prod.fst).map fun c ↦ (c, ys.idxOf c)).map Prod.fst = cs.map Prod.fst := by
    rw [List.map_map]
    exact List.map_id _
  have hsnd : ((cs.map Prod.fst).map fun c ↦ (c, ys.idxOf c)).map Prod.snd =
      (cs.map Prod.fst).map ys.idxOf := List.map_map
  refine ⟨_, hfst, ?_⟩
  constructor
  case placed =>
    intro x hx
    obtain ⟨c, hc, rfl⟩ := List.mem_map.1 hx
    exact List.getElem?_idxOf (hm c hc)
  case distinct =>
    rw [hsnd]
    exact hn.map_on fun c hc d hd he ↦ (List.idxOf_inj (hm c hc)).1 he
  case foreign =>
    intro x hx
    obtain ⟨c, hc, rfl⟩ := List.mem_map.1 hx
    obtain ⟨y, hy, rfl⟩ := List.mem_map.1 hc
    exact h.foreign y hy
  case linked =>
    rw [hfst]
    exact h.linked
  case short =>
    have hs := h.short
    rw [← List.length_eq_zero_iff] at hs ⊢
    simp only [List.length_map]
    exact hs

theorem ValidPath.transfer (h : b.ValidPath leaf p cs a)
    (hp : (p.intermediates.map (·.der)).Nodup)
    (hi : ∀ c ∈ cs.map Prod.fst, c ∈ p'.intermediates) (ha : a ∈ p'.anchors) :
    ∃ ds, b.ValidPath leaf p' ds a := by
  have hn : (cs.map Prod.fst).Nodup := (h.chain.nodup hp).of_map
  obtain ⟨ds, hds, hchain⟩ := h.chain.transfer hn hi
  exact ⟨ds, hchain, ha, (top_congr hds).symm ▸ h.issued⟩

end PathBuilder

namespace TrustChainValidator

variable {t : TrustChainValidator} {leaf : Certificate} {pool pool' : List Certificate}

theorem exists_verify_eq_ok_iff_findPath (ho : t.options.checkRevocation = false) :
    (∃ v, (t.verify leaf pool).outcome = .ok v) ↔ ∃ p, t.findPath leaf pool = .ok p := by
  constructor
  · rintro ⟨v, hv⟩
    obtain ⟨p, hp, -⟩ := verify_eq_ok hv
    exact ⟨p, hp⟩
  · rintro ⟨p, hp⟩
    exact ⟨_, verify_of_notRevoked hp fun h ↦ by simp [ho] at h⟩

theorem findPath_of_mismatch
    (h : t.verifier.certificate leaf leaf.publicKey = .error .mismatch) :
    t.findPath leaf pool =
      Partition.ofPool t.verifier pool >>= t.pathBuilder.build leaf := by
  rw [findPath, Verifier.isSelfSigned, (t.verifier.holds_eq_false_iff _ _).2 h]
  rfl

theorem exists_findPath_of_subset (hv : t.verifier.Decisive) (hd : ∀ c ∈ pool', c.IsDecoded)
    (hsub : pool ⊆ pool') (h : ∃ q, t.findPath leaf pool = .ok q) :
    ∃ q, t.findPath leaf pool' = .ok q := by
  obtain ⟨q, hq⟩ := h
  obtain ⟨p, hp, hb⟩ := findPath_eq_ok hq
  obtain ⟨hl, cs, a, hpath, -⟩ := PathBuilder.validPath_of_build _ leaf p hb
  obtain ⟨p', hp'⟩ := Partition.exists_ofPool_eq_ok hv pool'
  have hkept : ∀ c ∈ pool, (t.verifier.isSelfSigned c = .ok true → c ∈ p'.anchors) ∧
      (t.verifier.isSelfSigned c = .ok false → c ∈ p'.intermediates) := by
    intro c hc
    have hc' := hsub hc
    exact Partition.mem_of_ofPool hp' hc' fun d hd' he ↦ (hd d hd').eq_of_der (hd c hc') he
  have hnodup : (p.intermediates.map (·.der)).Nodup := by
    have hn := Partition.nodup_of_ofPool hp
    rw [List.map_append] at hn
    exact (List.nodup_append.1 hn).2.1
  have hinter : ∀ c ∈ cs.map Prod.fst, c ∈ p'.intermediates := by
    intro c hc
    obtain ⟨hpool, hs⟩ :=
      Partition.isSelfSigned_of_mem_intermediates hp (hpath.chain.mem_intermediates hc)
    exact (hkept c hpool).2 hs
  have hanchor : a ∈ p'.anchors := by
    obtain ⟨hpool, hs⟩ := Partition.isSelfSigned_of_mem_anchors hp hpath.anchor
    exact (hkept a hpool).1 hs
  obtain ⟨ds, hpath'⟩ := hpath.transfer hnodup hinter hanchor
  rw [findPath_of_mismatch hl, hp']
  exact (PathBuilder.exists_build_eq_ok_iff hv).2 ⟨hl, ds, a, hpath'⟩

/-- More certificates never cost a leaf its path, and neither their order nor how often they are
given matters. -/
theorem exists_verify_eq_ok_of_subset (ho : t.options.checkRevocation = false)
    (hv : t.verifier.Decisive) (hd : ∀ c ∈ pool', c.IsDecoded) (hsub : pool ⊆ pool') :
    ((∃ v, (t.verify leaf pool).outcome = .ok v) → ∃ v, (t.verify leaf pool').outcome = .ok v) ∧
    (pool' ⊆ pool →
      ((∃ v, (t.verify leaf pool).outcome = .ok v) ↔
        ∃ v, (t.verify leaf pool').outcome = .ok v)) := by
  have hmono : ∀ {xs ys : List Certificate}, (∀ c ∈ ys, c.IsDecoded) → xs ⊆ ys →
      (∃ v, (t.verify leaf xs).outcome = .ok v) → ∃ v, (t.verify leaf ys).outcome = .ok v := by
    intro xs ys hys hxs h
    rw [exists_verify_eq_ok_iff_findPath ho] at h ⊢
    exact exists_findPath_of_subset hv hys hxs h
  refine ⟨hmono hd hsub, fun hsub' ↦ ⟨hmono hd hsub, hmono (fun c hc ↦ ?_) hsub'⟩⟩
  exact hd c (hsub hc)

def sampleOffline : TrustChainValidator where
  options := { VerifyOptions.standard with checkRevocation := false, maxPathDepth := 3 }
  verifier := .sample
  source := RevocationChecker.sampleSource

theorem exists_verify_eq_ok_dead_end :
    (∃ v, (sampleOffline.verify (.sample 'C' 'B' [])
      [.sample 'B' 'A' [], .sample 'A' 'A' []]).outcome = .ok v) ∧
    ∃ v, (sampleOffline.verify (.sample 'C' 'B' []) [.sample 'B' 'X' [], .sample 'A' 'A' [],
      .sample 'X' 'B' [], .sample 'A' 'A' [], .sample 'B' 'A' []]).outcome = .ok v := by
  have hp : sampleOffline.findPath (.sample 'C' 'B' [])
      [.sample 'B' 'A' [], .sample 'A' 'A' []] =
        .ok ⟨.sample 'C' 'B' [], [.sample 'B' 'A' []], .sample 'A' 'A' []⟩ := by decide +kernel
  have hv := (exists_verify_eq_ok_iff_findPath (t := sampleOffline) rfl).2 ⟨_, hp⟩
  have ha : (Certificate.sample 'A' 'A' []).IsDecoded :=
    Certificate.isDecoded_sample (by decide +kernel)
  have hb : (Certificate.sample 'B' 'A' []).IsDecoded :=
    Certificate.isDecoded_sample (by decide +kernel)
  have hbx : (Certificate.sample 'B' 'X' []).IsDecoded :=
    Certificate.isDecoded_sample (by decide +kernel)
  have hxb : (Certificate.sample 'X' 'B' []).IsDecoded :=
    Certificate.isDecoded_sample (by decide +kernel)
  exact ⟨hv, (exists_verify_eq_ok_of_subset (t := sampleOffline) rfl Verifier.sample_ne_other
    (by simp [ha, hb, hbx, hxb]) (by simp)).1 hv⟩

end TrustChainValidator

end CertPath
