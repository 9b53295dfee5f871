import CertPath.Proofs.Decoding
import CertPath.Proofs.Issuance
import CertPath.Proofs.Pool
import Mathlib.Data.List.Nodup

namespace CertPath.Partition

/-- A pool without all but the first certificate of each encoding. -/
def distinct (pool : List Certificate) : List Certificate :=
  pool.eraseDupsBy fun c d ↦ c.der == d.der

theorem firsts_eq_distinct (seen : List Bytes) (pool : List Certificate) :
    firsts seen pool = distinct (pool.filter fun c ↦ c.der ∉ seen) := by
  induction pool generalizing seen with
  | nil => rfl
  | cons c pool ih =>
    rw [firsts]
    by_cases hc : c.der ∈ seen
    · rw [if_pos hc, ih, List.filter_cons_of_neg (by simp [hc])]
    · rw [if_neg hc, ih, List.filter_cons_of_pos (by simp [hc]), distinct, distinct,
        List.eraseDupsBy_cons, List.filter_filter]
      simp

theorem firsts_nil (pool : List Certificate) : firsts [] pool = distinct pool := by
  rw [firsts_eq_distinct]
  simp

theorem firsts_sublist (seen : List Bytes) (pool : List Certificate) :
    (firsts seen pool).Sublist pool := by
  induction pool generalizing seen with
  | nil => exact .slnil
  | cons c pool ih =>
    rw [firsts]
    split
    · exact (ih seen).cons c
    · exact (ih _).cons_cons c

variable {v : Verifier} {pool : List Certificate}

theorem signsItself_eq (c : Certificate) :
    signsItself v c = decide (v.certificate c c.publicKey = .ok ()) := by
  rw [Bool.eq_iff_iff, decide_eq_true_iff, ← v.holds_eq_true_iff, signsItself]
  change _ ↔ v.isSelfSigned c = .ok true
  cases v.isSelfSigned c with
  | error e => simp
  | ok r => cases r <;> simp

theorem fault_eq_some_iff (c : Certificate) (e : TrustError) :
    fault v c = some e ↔ ∃ q, v.certificate c c.publicKey = .error (.other q) ∧
      e = .signature c.subject.oneline q := by
  rw [← v.holds_eq_error_iff, fault]
  change _ ↔ v.isSelfSigned c = .error e
  cases v.isSelfSigned c <;> simp

theorem fault_eq_none_iff_ne (c : Certificate) :
    fault v c = none ↔ ∀ q, v.certificate c c.publicKey ≠ .error (.other q) := by
  rw [fault_eq_none_iff]
  exact v.exists_holds_eq_ok_iff c c.publicKey

theorem findSome?_fault_firsts (hd : ∀ c ∈ pool, c.IsDecoded) {seen : List Bytes}
    (hs : ∀ c ∈ pool, c.der ∈ seen → fault v c = none) :
    (firsts seen pool).findSome? (fault v) = pool.findSome? (fault v) := by
  induction pool generalizing seen with
  | nil => rfl
  | cons c pool ih =>
    obtain ⟨hc, hpool⟩ := List.forall_mem_cons.1 hd
    obtain ⟨hsc, hspool⟩ := List.forall_mem_cons.1 hs
    rw [firsts, List.findSome?_cons]
    split
    · rename_i hseen
      rw [hsc hseen]
      exact ih hpool hspool
    · rw [List.findSome?_cons]
      cases hf : fault v c with
      | some e => rfl
      | none =>
        apply ih hpool
        intro d hdpool hseen
        rcases List.mem_cons.1 hseen with he | hseen
        · rw [(hpool d hdpool).eq_of_der hc he]
          exact hf
        · exact hspool d hdpool hseen

/-- Each certificate of a pool once, in its order, on the side where it belongs. -/
structure Exact (v : Verifier) (pool : List Certificate) (p : Partition) : Prop where
  anchors : p.anchors = (distinct pool).filter fun c ↦ v.certificate c c.publicKey = .ok ()
  intermediates :
    p.intermediates = (distinct pool).filter fun c ↦ v.certificate c c.publicKey ≠ .ok ()
  once : ∀ c ∈ pool, (p.anchors ++ p.intermediates).count c = 1
  pooled : ∀ c ∈ p.anchors ++ p.intermediates, c ∈ pool
  disjoint : (p.anchors.map (·.der)).Disjoint (p.intermediates.map (·.der))
  anchors_sublist : p.anchors.Sublist pool
  intermediates_sublist : p.intermediates.Sublist pool

theorem exact_split (hd : ∀ c ∈ pool, c.IsDecoded) : Exact v pool (split v (firsts [] pool)) := by
  have hsub : (firsts [] pool).Sublist pool := firsts_sublist [] pool
  have hperm : ((split v (firsts [] pool)).anchors ++
      (split v (firsts [] pool)).intermediates).Perm (firsts [] pool) :=
    List.filter_append_perm _ _
  have hnodup : (((split v (firsts [] pool)).anchors ++
      (split v (firsts [] pool)).intermediates).map (·.der)).Nodup :=
    (hperm.map _).nodup_iff.2 (nodup_firsts [] pool)
  constructor
  case anchors =>
    rw [split, firsts_nil]
    exact List.filter_congr fun c _ ↦ signsItself_eq c
  case intermediates =>
    rw [split, firsts_nil]
    exact List.filter_congr fun c _ ↦ by simp [signsItself_eq]
  case once =>
    intro c hc
    have hmem : c ∈ firsts [] pool := by
      obtain ⟨d, hdmem, he⟩ := exists_mem_firsts hc (by simp : c.der ∉ [])
      rwa [(hd d (hsub.subset hdmem)).eq_of_der (hd c hc) he] at hdmem
    exact List.count_eq_one_of_mem hnodup.of_map (hperm.mem_iff.2 hmem)
  case pooled =>
    intro c hc
    exact hsub.subset (hperm.mem_iff.1 hc)
  case disjoint =>
    rw [List.map_append] at hnodup
    exact List.disjoint_of_nodup_append hnodup
  case anchors_sublist => exact List.filter_sublist.trans hsub
  case intermediates_sublist => exact List.filter_sublist.trans hsub

theorem ofPool_distinct (v : Verifier) (pool : List Certificate) :
    ofPool v (distinct pool) = ofPool v pool := by
  have hfirsts : firsts [] (firsts [] pool) = firsts [] pool :=
    firsts_eq_self (nodup_firsts [] pool) (by simp)
  rw [← firsts_nil, ofPool_eq, hfirsts, ← ofPool_eq]

theorem ofPool_eq_error_iff (hd : ∀ c ∈ pool, c.IsDecoded) (e : TrustError) :
    ofPool v pool = .error e ↔ pool.findSome? (fault v) = some e := by
  have hfault : (firsts [] pool).findSome? (fault v) = pool.findSome? (fault v) :=
    findSome?_fault_firsts hd (by simp)
  rw [ofPool_eq, hfault]
  cases pool.findSome? (fault v) <;> simp

theorem exists_ofPool_eq_error_iff (hd : ∀ c ∈ pool, c.IsDecoded) :
    (∃ e, ofPool v pool = .error e) ↔
      ∃ c ∈ pool, ∃ q, v.certificate c c.publicKey = .error (.other q) := by
  simp only [ofPool_eq_error_iff hd]
  constructor
  · rintro ⟨e, he⟩
    obtain ⟨c, hc, hf⟩ := List.exists_of_findSome?_eq_some he
    obtain ⟨q, hq, -⟩ := (fault_eq_some_iff c e).1 hf
    exact ⟨c, hc, q, hq⟩
  · rintro ⟨c, hc, q, hq⟩
    cases he : pool.findSome? (fault v) with
    | some e => exact ⟨e, rfl⟩
    | none =>
      have hf := List.findSome?_eq_none_iff.1 he c hc
      exact absurd hq ((fault_eq_none_iff_ne c).1 hf q)

/-- Splitting a pool fails at the first certificate whose own signature cannot be checked, and else puts
each certificate where it belongs. Repetitions make no difference. -/
theorem ofPool_exact (hd : ∀ c ∈ pool, c.IsDecoded) :
    ((∃ e, ofPool v pool = .error e) ↔
      ∃ c ∈ pool, ∃ q, v.certificate c c.publicKey = .error (.other q)) ∧
    (∀ e, ofPool v pool = .error e ↔
      ∃ xs c ys q, pool = xs ++ c :: ys ∧
        (∀ x ∈ xs, ∀ r, v.certificate x x.publicKey ≠ .error (.other r)) ∧
        v.certificate c c.publicKey = .error (.other q) ∧ e = .signature c.subject.oneline q) ∧
    ((∀ c ∈ pool, ∀ q, v.certificate c c.publicKey ≠ .error (.other q)) →
      ∃ p, ofPool v pool = .ok p ∧ Exact v pool p) ∧
    ofPool v (distinct pool) = ofPool v pool := by
  refine ⟨exists_ofPool_eq_error_iff hd, ?_, ?_, ofPool_distinct v pool⟩
  · intro e
    rw [ofPool_eq_error_iff hd, List.findSome?_eq_some_iff]
    simp only [fault_eq_some_iff, fault_eq_none_iff_ne]
    constructor
    · rintro ⟨xs, c, ys, hpool, ⟨q, hq, he⟩, hxs⟩
      exact ⟨xs, c, ys, q, hpool, hxs, hq, he⟩
    · rintro ⟨xs, c, ys, q, hpool, hxs, hq, he⟩
      exact ⟨xs, c, ys, hpool, ⟨q, hq, he⟩, hxs⟩
  · intro hall
    cases hp : ofPool v pool with
    | error e =>
      obtain ⟨c, hc, q, hq⟩ := (exists_ofPool_eq_error_iff hd).1 ⟨e, hp⟩
      exact absurd hq (hall c hc q)
    | ok p =>
      refine ⟨p, rfl, ?_⟩
      rw [ofPool_eq] at hp
      split at hp
      · cases hp
      · cases hp
        exact exact_split hd

def sampleCrowd : List Certificate :=
  [('A', 'A'), ('B', 'A'), ('A', 'A'), ('X', 'Y'), ('C', 'B'), ('Z', 'Z'), ('B', 'A')].map
    fun x ↦ .sample x.1 x.2 []

theorem ofPool_exact_crowd :
    (∃ p, ofPool .sample sampleCrowd = .ok p ∧ Exact .sample sampleCrowd p) ∧
    ofPool (.blindTo [88, 90]) sampleCrowd = .error (.signature "CN = X" .unsupportedAlgorithm) := by
  have hd : ∀ c ∈ sampleCrowd, c.IsDecoded := by
    intro c hc
    obtain ⟨x, hx, rfl⟩ := List.mem_map.1 hc
    apply Certificate.isDecoded_sample
    revert x
    decide +kernel
  have hsample : ∀ c ∈ sampleCrowd, ∀ q,
      Verifier.sample.certificate c c.publicKey ≠ .error (.other q) :=
    fun c _ q ↦ Verifier.sample_ne_other c c.publicKey q
  refine ⟨(ofPool_exact hd).2.2.1 hsample, ((ofPool_exact hd).2.1 _).2 ?_⟩
  refine ⟨sampleCrowd.take 3, .sample 'X' 'Y' [], sampleCrowd.drop 4, .unsupportedAlgorithm, rfl,
    ?_, by decide +kernel, by decide +kernel⟩
  intro x hx
  rw [← Verifier.exists_holds_eq_ok_iff]
  revert x
  decide +kernel

end CertPath.Partition
