import CertPath.Proofs.Ascent
import CertPath.Proofs.Findings
import CertPath.Proofs.Monotonicity

namespace CertPath

namespace PathBuilder

open Finding

variable {b : PathBuilder} {leaf a : Certificate} {p : Partition} {cs ds : List Certificate}

variable (b leaf p) in
theorem exists_findings_eq (n : Nat) (cs : List Certificate) :
    ∃ rest, b.findings leaf p n cs = p.anchors.filterMap (b.anchorFinding leaf cs) ++ rest := by
  cases n with
  | zero => exact ⟨_, rfl⟩
  | succ n => exact ⟨_, List.append_assoc _ _ _⟩

/-- Where nothing is given but what an ascent leads through, a search can do nothing but ascend. -/
theorem Ascends.findSome?_findings (h : b.Ascends p leaf cs ds a) (hn : (cs ++ ds).Nodup)
    (hf : ∀ c ∈ ds, c.der ≠ leaf.der) {n : Nat} (hlen : ds.length ≤ n) :
    (b.findings leaf ⟨[a], cs ++ ds⟩ n cs).findSome? stop? = some (.ok ⟨leaf, cs ++ ds, a⟩) := by
  induction h generalizing n with
  | @stop cs a ha =>
    obtain ⟨rest, hrest⟩ := b.exists_findings_eq leaf ⟨[a], cs ++ []⟩ n cs
    have hstop : b.anchorFinding leaf cs a = some (.stop (.ok ⟨leaf, cs, a⟩)) := by
      rw [anchorFinding, (anchorOf_eq_some ha).2]
    rw [hrest, List.append_nil, List.filterMap_cons, hstop]
    rfl
  | @step cs ds c a hnone hi h ih =>
    cases n with
    | zero => simp at hlen
    | succ n =>
      obtain ⟨hc, hds⟩ := List.forall_mem_cons.1 hf
      have hpass : b.anchorFinding leaf cs a = none := by
        rw [anchorFinding, anchorOf_eq_none hnone h.mem_anchors]
      have hnew : c ∉ cs := by
        intro hm
        exact (List.nodup_append.1 hn).2.2 c hm c List.mem_cons_self rfl
      have hbelow : cs.flatMap (fun d ↦ b.stepFindings leaf cs d
          (b.findings leaf ⟨[a], cs ++ c :: ds⟩ n (cs ++ [d]))) = [] := by
        rw [List.flatMap_eq_nil_iff]
        intro d hd
        rw [stepFindings, if_pos (.inr hd)]
      have hstep : b.stepFindings leaf cs c (b.findings leaf ⟨[a], cs ++ c :: ds⟩ n (cs ++ [c])) =
          b.findings leaf ⟨[a], cs ++ c :: ds⟩ n (cs ++ [c]) := by
        rw [stepFindings, if_neg (not_or.2 ⟨hc, hnew⟩), (b.issuedBy_eq_true_iff _ _).2 hi]
      have hsplit : cs ++ c :: ds = cs ++ [c] ++ ds := by simp
      have hgo := ih (n := n) (hsplit ▸ hn) hds (Nat.le_of_succ_le_succ hlen)
      rw [← hsplit] at hgo
      rw [findings, List.filterMap_cons, hpass, List.filterMap_nil, List.nil_append,
        List.flatMap_append, hbelow, List.nil_append, List.flatMap_cons, hstep, List.append_assoc,
        List.findSome?_append, hgo]
      rfl

theorem build_own {path : CertificationPath} (h : b.build leaf p = .ok path)
    (hp : (p.intermediates.map (·.der)).Nodup) :
    b.build leaf ⟨[path.anchor], path.intermediates⟩ = .ok path := by
  have hup := ascends_of_build h
  obtain ⟨hl, cs, a, hpath, rfl⟩ := b.validPath_of_build leaf p h
  have hn : (cs.map Prod.fst).Nodup := (hpath.chain.nodup hp).of_map
  have hlen : (cs.map Prod.fst).length ≤ b.maxDepth - 2 := by
    rw [List.length_map]
    rcases hpath.chain.short with rfl | hs
    · exact Nat.zero_le _
    · omega
  have hfound := hup.findSome?_findings (by simpa using hn)
    (fun c hc ↦ hpath.chain.foreign_of_mem hc) hlen
  rw [List.nil_append] at hfound
  rw [b.build_eq_conclude leaf _ hn hl, conclude, hfound]

end PathBuilder

namespace Partition

theorem ofPool_concat {v : Verifier} {cs : List Certificate} {a : Certificate}
    (hn : ((cs ++ [a]).map (·.der)).Nodup) (hcs : ∀ c ∈ cs, v.isSelfSigned c = .ok false)
    (ha : v.isSelfSigned a = .ok true) : ofPool v (cs ++ [a]) = .ok ⟨[a], cs⟩ := by
  have hfirsts : firsts [] (cs ++ [a]) = cs ++ [a] := firsts_eq_self hn (by simp)
  have hfault : (cs ++ [a]).findSome? (fault v) = none := by
    rw [List.findSome?_eq_none_iff]
    intro c hc
    rw [fault_eq_none_iff]
    rcases List.mem_append.1 hc with hc | hc
    · exact ⟨false, hcs c hc⟩
    · exact ⟨true, List.mem_singleton.1 hc ▸ ha⟩
  have hplain : ∀ c ∈ cs, signsItself v c = false := fun c hc ↦ by simp [signsItself, hcs c hc]
  have hself : signsItself v a = true := by simp [signsItself, ha]
  have hanchors : cs.filter (signsItself v) = [] := by
    rw [List.filter_eq_nil_iff]
    intro c hc
    simp [hplain c hc]
  have hinter : cs.filter (fun c ↦ !signsItself v c) = cs := by
    rw [List.filter_eq_self]
    intro c hc
    simp [hplain c hc]
  rw [ofPool_eq, hfirsts, hfault]
  simp [split, List.filter_append, hanchors, hinter, hself]

end Partition

namespace TrustChainValidator

open CertPath.Partition

variable {t : TrustChainValidator} {leaf : Certificate} {pool : List Certificate}

theorem findPath_own {q : CertificationPath} (h : t.findPath leaf pool = .ok q) :
    t.findPath leaf q.certificates.tail = .ok q := by
  obtain ⟨p, hp, hb⟩ := findPath_eq_ok h
  have hnodup := nodup_of_ofPool hp
  have hinter : (p.intermediates.map (·.der)).Nodup := by
    rw [List.map_append] at hnodup
    exact (List.nodup_append.1 hnodup).2.1
  have hown := PathBuilder.build_own hb hinter
  obtain ⟨hl, cs, a, hpath, rfl⟩ := PathBuilder.validPath_of_build _ leaf p hb
  have hplain : ∀ c ∈ cs.map Prod.fst, t.verifier.isSelfSigned c = .ok false := by
    intro c hc
    exact (isSelfSigned_of_mem_intermediates hp (hpath.chain.mem_intermediates hc)).2
  have hself := (isSelfSigned_of_mem_anchors hp hpath.anchor).2
  have hpool : ofPool t.verifier (cs.map Prod.fst ++ [a]) = .ok ⟨[a], cs.map Prod.fst⟩ :=
    ofPool_concat (hpath.nodup_tail hnodup) hplain hself
  change t.findPath leaf (cs.map Prod.fst ++ [a]) = _
  rw [findPath_of_mismatch hl, hpool]
  exact hown

/-- A verified path is enough of a pool for itself: nothing else is found in it, and the same lists
are asked for. -/
theorem verify_own {v : VerifiedPath} (h : (t.verify leaf pool).outcome = .ok v) :
    t.verify leaf v.path.certificates.tail = ⟨.ok v, (t.verify leaf pool).points⟩ := by
  obtain ⟨q, hq, rfl⟩ := verify_eq_ok h
  have hsame : t.verify leaf q.certificates.tail = t.verify leaf pool := by
    rw [verify, verify, hq, findPath_own hq]
  change t.verify leaf q.certificates.tail = _
  rw [hsame, ← h]

def sampleBlind : TrustChainValidator where
  options := .standard
  verifier :=
    { Verifier.sample with
      certificate := fun c key ↦
        if c.issuer.raw.getLast? = some 88 ∧ key.getLast? = some 88 then
          .error (.other .unsupportedAlgorithm)
        else Verifier.sample.certificate c key }
  source := RevocationChecker.sampleSource

def sampleBlindPath : CertificationPath :=
  ⟨.sample 'C' 'B' ["http://a"], [.sample 'B' 'A' []], .sample 'A' 'A' []⟩

def sampleBlindPool : List Certificate :=
  [.sample 'B' 'Z' [], .sample 'B' 'A' [], .sample 'B' 'X' [], .sample 'X' 'Y' [],
    .sample 'A' 'A' []]

theorem verify_own_past_dead_end :
    ∃ v, (sampleBlind.verify sampleBlindPath.leaf sampleBlindPool).outcome = .ok v ∧
      (sampleBlind.verify sampleBlindPath.leaf sampleBlindPath.certificates.tail).outcome =
        .ok v := by
  have hp : sampleBlind.findPath sampleBlindPath.leaf sampleBlindPool = .ok sampleBlindPath := by
    decide +kernel
  have hv := verify_of_notRevoked hp fun _ ↦ by decide +kernel
  exact ⟨_, hv, congrArg Asked.outcome (verify_own hv)⟩

end TrustChainValidator

end CertPath
