import CertPath.Proofs.Findings
import CertPath.Proofs.Monotonicity

namespace CertPath

/-- A certificate of which it can be told whether it signs itself, and whose name nobody gives for
an issuer. -/
structure Stranger (v : Verifier) (asking : List Certificate) (c : Certificate) : Prop where
  answered : ∀ q, v.certificate c c.publicKey ≠ .error (.other q)
  unnamed : ∀ d ∈ asking, d.issuer.raw ≠ c.subject.raw

/-- What is left of a pool when `before` has gone, and the same with certificates put in: the leaf,
what was in the pool before, and strangers to the leaf and to the whole pool. -/
inductive Padded (v : Verifier) (leaf : Certificate) (pool : List Certificate) :
    List Certificate → List Certificate → List Certificate → Prop
  | nil (before : List Certificate) : Padded v leaf pool before [] []
  | keep {before cs ds : List Certificate} {c : Certificate} :
      Padded v leaf pool (before ++ [c]) cs ds → Padded v leaf pool before (c :: cs) (c :: ds)
  | leaf {before cs ds : List Certificate} :
      Padded v leaf pool before cs ds → Padded v leaf pool before cs (leaf :: ds)
  | copy {before cs ds : List Certificate} {c : Certificate} :
      c ∈ before → Padded v leaf pool before cs ds → Padded v leaf pool before cs (c :: ds)
  | stranger {before cs ds : List Certificate} {c : Certificate} :
      Stranger v (leaf :: pool) c → Padded v leaf pool before cs ds →
        Padded v leaf pool before cs (c :: ds)

namespace Partition

variable {v : Verifier} {leaf : Certificate} {pool : List Certificate} {keep : Certificate → Bool}
  {before cs ds : List Certificate} {seen seen' : List Bytes} {c : Certificate}

/-- The encodings seen in a padded pool and in the pool itself. Only of certificates that are not
kept the former may have more. -/
structure Aligned (keep : Certificate → Bool) (before : List Certificate)
    (seen seen' : List Bytes) : Prop where
  gone : ∀ c ∈ before, c.der ∈ seen'
  within : seen ⊆ seen'
  excess : ∀ c, c.IsDecoded → c.der ∈ seen' → c.der ∈ seen ∨ keep c = false

theorem Aligned.nil : Aligned keep [] [] [] := ⟨by simp, by simp, by simp⟩

theorem Aligned.advance (h : Aligned keep before seen seen') (hc : c.der ∈ seen') :
    Aligned keep (before ++ [c]) seen seen' := by
  refine ⟨fun d hd ↦ ?_, h.within, h.excess⟩
  rcases List.mem_append.1 hd with hd | hd
  · exact h.gone d hd
  · exact List.mem_singleton.1 hd ▸ hc

theorem Aligned.see (h : Aligned keep before seen seen') (x : Bytes) :
    Aligned keep before (x :: seen) (x :: seen') := by
  refine ⟨fun d hd ↦ List.mem_cons_of_mem _ (h.gone d hd), List.cons_subset_cons _ h.within,
    fun d hd hx ↦ ?_⟩
  rcases List.mem_cons.1 hx with hx | hx
  · exact .inl (hx ▸ List.mem_cons_self)
  · exact (h.excess d hd hx).imp_left (List.mem_cons_of_mem _)

theorem Aligned.catchUp (h : Aligned keep before seen seen') (hc : c.der ∈ seen') :
    Aligned keep before (c.der :: seen) seen' :=
  ⟨h.gone, List.cons_subset.2 ⟨hc, h.within⟩, fun d hd hx ↦
    (h.excess d hd hx).imp_left (List.mem_cons_of_mem _)⟩

theorem Aligned.runAhead (h : Aligned keep before seen seen') (hd : c.IsDecoded)
    (hk : keep c = false) : Aligned keep before seen (c.der :: seen') := by
  refine ⟨fun d hd ↦ List.mem_cons_of_mem _ (h.gone d hd), fun x hx ↦
    List.mem_cons_of_mem _ (h.within hx), fun d hd' hx ↦ ?_⟩
  rcases List.mem_cons.1 hx with hx | hx
  · exact .inr (hd'.eq_of_der hd hx ▸ hk)
  · exact h.excess d hd' hx

theorem filter_firsts_of_padded (hleaf : keep leaf = false)
    (hstranger : ∀ c, Stranger v (leaf :: pool) c → keep c = false) (hl : leaf.IsDecoded)
    (hd : ∀ c ∈ ds, c.IsDecoded) (h : Padded v leaf pool before cs ds)
    (hs : Aligned keep before seen seen') :
    (firsts seen' ds).filter keep = (firsts seen cs).filter keep := by
  have hskip : ∀ {c : Certificate} {before cs ds : List Certificate} {seen seen' : List Bytes},
      c.IsDecoded → keep c = false → Aligned keep before seen seen' →
      (∀ {seen'}, Aligned keep before seen seen' →
        (firsts seen' ds).filter keep = (firsts seen cs).filter keep) →
      (firsts seen' (c :: ds)).filter keep = (firsts seen cs).filter keep := by
    intro c before cs ds seen seen' hc hk hs ih
    rw [firsts]
    split
    · exact ih hs
    · rw [List.filter_cons_of_neg (by simp [hk])]
      exact ih (hs.runAhead hc hk)
  induction h generalizing seen seen' with
  | nil before => rfl
  | @keep before cs ds c h ih =>
    obtain ⟨hc, hds⟩ := List.forall_mem_cons.1 hd
    rw [firsts, firsts]
    by_cases hm : c.der ∈ seen
    · have hm' := hs.within hm
      rw [if_pos hm, if_pos hm']
      exact ih hds (hs.advance hm')
    · rw [if_neg hm]
      by_cases hm' : c.der ∈ seen'
      · have hk : keep c = false := (hs.excess c hc hm').resolve_left hm
        rw [if_pos hm', List.filter_cons_of_neg (by simp [hk])]
        exact ih hds ((hs.catchUp hm').advance hm')
      · rw [if_neg hm', List.filter_cons, List.filter_cons,
          ih hds ((hs.see c.der).advance List.mem_cons_self)]
  | @leaf before cs ds h ih =>
    have hds := (List.forall_mem_cons.1 hd).2
    exact hskip hl hleaf hs fun hs' ↦ ih hds hs'
  | @copy before cs ds c hc h ih =>
    have hds := (List.forall_mem_cons.1 hd).2
    rw [firsts, if_pos (hs.gone c hc)]
    exact ih hds hs
  | @stranger before cs ds c hc h ih =>
    obtain ⟨hcd, hds⟩ := List.forall_mem_cons.1 hd
    exact hskip hcd (hstranger c hc) hs fun hs' ↦ ih hds hs'

theorem findSome?_filter_isSome {α β : Type} (f : α → Option β) (l : List α) :
    (l.filter fun x ↦ (f x).isSome).findSome? f = l.findSome? f := by
  rw [← List.head?_filterMap, List.filterMap_filter, List.head?_filterMap]
  refine congrArg (List.findSome? · l) (funext fun x ↦ ?_)
  cases f x <;> rfl

end Partition

namespace TrustChainValidator

open CertPath.Partition CertPath.PathBuilder

variable {t : TrustChainValidator} {leaf : Certificate} {pool pool' : List Certificate}

section Mismatch

variable {v : Verifier} (hl : v.certificate leaf leaf.publicKey = .error .mismatch)
  (hd : ∀ c ∈ leaf :: pool', c.IsDecoded) (h : Padded v leaf pool [] pool pool')

include hl hd h

theorem findSome?_fault_of_padded :
    (firsts [] pool').findSome? (fault v) = (firsts [] pool).findSome? (fault v) := by
  have hleaf : v.isSelfSigned leaf = .ok false := (v.holds_eq_false_iff _ _).2 hl
  have hstranger : ∀ c, Stranger v (leaf :: pool) c → (fault v c).isSome = false := by
    intro c hc
    have hself : ∃ r, v.isSelfSigned c = .ok r := (v.exists_holds_eq_ok_iff _ _).2 hc.answered
    rw [(fault_eq_none_iff v c).2 hself]
    rfl
  obtain ⟨hld, hpd⟩ := List.forall_mem_cons.1 hd
  have hkept := filter_firsts_of_padded (by simp [fault, hleaf]) hstranger hld hpd h .nil
  rw [← findSome?_filter_isSome, hkept, findSome?_filter_isSome]

theorem named_of_padded :
    named leaf (split v (firsts [] pool')) ((leaf :: pool).map (·.issuer.raw)) =
      named leaf (split v (firsts [] pool)) ((leaf :: pool).map (·.issuer.raw)) := by
  have hleaf : v.isSelfSigned leaf = .ok false := (v.holds_eq_false_iff _ _).2 hl
  have hstranger : ∀ c, Stranger v (leaf :: pool) c →
      c.subject.raw ∉ (leaf :: pool).map (·.issuer.raw) := by
    intro c hc hm
    obtain ⟨d, hdm, he⟩ := List.mem_map.1 hm
    exact hc.unnamed d hdm he
  obtain ⟨hld, hpd⟩ := List.forall_mem_cons.1 hd
  simp only [named, split, List.filter_filter]
  congr 1
  · refine filter_firsts_of_padded ?_ (fun c hc ↦ ?_) hld hpd h .nil
    · simp [signsItself, hleaf]
    · simp only [hstranger c hc, decide_false, Bool.false_and]
  · refine filter_firsts_of_padded ?_ (fun c hc ↦ ?_) hld hpd h .nil
    · simp
    · simp only [hstranger c hc, false_and, decide_false, Bool.false_and]

end Mismatch

theorem mem_of_mem_named {v : Verifier} {cs : List Certificate} {names : List Bytes}
    {c : Certificate} (h : c ∈ (named leaf (split v (firsts [] cs)) names).intermediates) :
    c ∈ cs :=
  (mem_of_mem_firsts (List.mem_filter.1 (mem_named_iff.1 h).1).1).1

theorem build_of_padded {b : PathBuilder}
    (hl : b.verifier.certificate leaf leaf.publicKey = .error .mismatch)
    (hd : ∀ c ∈ leaf :: pool', c.IsDecoded) (h : Padded b.verifier leaf pool [] pool pool') :
    b.build leaf (split b.verifier (firsts [] pool')) =
      b.build leaf (split b.verifier (firsts [] pool)) := by
  have hnodup : ∀ xs, (split b.verifier (firsts [] xs)).intermediates.Nodup := by
    intro xs
    exact (nodup_firsts [] xs).of_map.filter _
  have hnamed := named_of_padded hl hd h
  have hleaf : leaf.issuer.raw ∈ (leaf :: pool).map (·.issuer.raw) := List.mem_cons_self
  have hpool : ∀ c ∈ (named leaf (split b.verifier (firsts [] pool))
      ((leaf :: pool).map (·.issuer.raw))).intermediates,
      c.issuer.raw ∈ (leaf :: pool).map (·.issuer.raw) := by
    intro c hc
    exact List.mem_map_of_mem (List.mem_cons_of_mem _ (mem_of_mem_named hc))
  have hpool' := hpool
  rw [← hnamed] at hpool'
  rw [← b.build_named leaf _ (hnodup pool') hl hleaf hpool', hnamed,
    b.build_named leaf _ (hnodup pool) hl hleaf hpool]

theorem findPath_of_padded (hd : ∀ c ∈ leaf :: pool', c.IsDecoded)
    (h : Padded t.verifier leaf pool [] pool pool') :
    t.findPath leaf pool' = t.findPath leaf pool := by
  cases hs : t.verifier.isSelfSigned leaf with
  | error e => rw [findPath, findPath, hs]; rfl
  | ok r =>
    cases r with
    | true => rw [findPath, findPath, hs]; rfl
    | false =>
      have hl := (t.verifier.holds_eq_false_iff _ _).1 hs
      rw [findPath_of_mismatch hl, findPath_of_mismatch hl, ofPool_eq, ofPool_eq,
        findSome?_fault_of_padded hl hd h]
      cases (firsts [] pool).findSome? (fault t.verifier) with
      | some e => rfl
      | none => exact build_of_padded (b := t.pathBuilder) hl hd h

/-- Copies in a pool and strangers to it change nothing. -/
theorem verify_of_padded (hd : ∀ c ∈ leaf :: pool', c.IsDecoded)
    (h : Padded t.verifier leaf pool [] pool pool') :
    t.verify leaf pool' = t.verify leaf pool := by
  rw [verify, verify, findPath_of_padded hd h]

def sampleLeaf : Certificate := .sample 'C' 'B' ["http://a"]

def samplePool : List Certificate := [.sample 'B' 'A' ["http://b"], .sample 'A' 'A' []]

def samplePadded : List Certificate :=
  [.sample 'S' 'S' [], sampleLeaf, .sample 'B' 'A' ["http://b"], .sample 'B' 'A' ["http://b"],
    .sample 'U' 'S' [], .sample 'A' 'A' [], sampleLeaf, .sample 'A' 'A' []]

theorem verify_of_padded_revoked :
    Padded .sample sampleLeaf samplePool [] samplePool samplePadded ∧
    (sampleValidator.verify sampleLeaf samplePadded).outcome =
      .error (.revoked "CN = B" "42" "http://b" "keyCompromise") := by
  have hs : Stranger .sample (sampleLeaf :: samplePool) (.sample 'S' 'S' []) :=
    ⟨Verifier.sample_ne_other _ _, by decide +kernel⟩
  have hu : Stranger .sample (sampleLeaf :: samplePool) (.sample 'U' 'S' []) :=
    ⟨Verifier.sample_ne_other _ _, by decide +kernel⟩
  have hpad : Padded .sample sampleLeaf samplePool [] samplePool samplePadded := by
    refine .stranger hs (.leaf (.keep (.copy ?_ (.stranger hu (.keep (.leaf
      (.copy ?_ (.nil _))))))))
    · exact List.mem_singleton_self _
    · exact List.mem_cons_of_mem _ (List.mem_singleton_self _)
  have hd : ∀ c ∈ sampleLeaf :: samplePadded, c.IsDecoded := by
    have hdecoded : ∀ x ∈ [('S', 'S', []), ('C', 'B', ["http://a"]), ('B', 'A', ["http://b"]),
        ('U', 'S', []), ('A', 'A', [])], (Certificate.sample x.1 x.2.1 x.2.2).IsDecoded := by
      intro x hx
      refine Certificate.isDecoded_sample ?_
      revert x
      decide +kernel
    simp only [List.forall_mem_cons] at hdecoded
    simp [samplePadded, sampleLeaf, hdecoded]
  have he := congrArg Asked.outcome (verify_of_padded (t := sampleValidator) hd hpad)
  exact ⟨hpad, he.trans (by decide +kernel)⟩

end TrustChainValidator

end CertPath
