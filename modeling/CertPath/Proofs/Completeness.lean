import CertPath.Proofs.Decoding
import CertPath.Proofs.Reach

namespace CertPath.PathBuilder

variable (b : PathBuilder) (leaf : Certificate) (p : Partition)

/-- What a search for a path above a leaf comes to. -/
def found : Option (Except TrustError (List Placed × Certificate)) :=
  (b.events leaf p).findSome? (b.attempt leaf)

/-- The certificate at the first of the deepest dead ends, the leaf if there is none. -/
def deepest : Certificate :=
  (((b.events leaf p).foldl (fun st e ↦ note (.start leaf p.intermediates) leaf e st) none).map
    (·.certificate)).getD leaf

theorem attempt_anchor_eq_none_iff (cs : List Placed) (a : Certificate) :
    b.attempt leaf (.anchor cs a) = none ↔
      ¬ b.verifier.Issued (top leaf cs) a ∧ ¬ b.verifier.Unanswered (top leaf cs) a := by
  rw [← issuedBy_eq_false_iff, attempt]
  split <;> simp_all

theorem attempt_step_eq_none_iff (cs : List Placed) (x : Placed) :
    b.attempt leaf (.step cs x) = none ↔ ¬ b.verifier.Unanswered (top leaf cs) x.1 := by
  rw [← exists_issuedBy_eq_error_iff, attempt]
  split <;> simp_all

theorem attempt_eq_ok {e : Event} {cs : List Placed} {a : Certificate}
    (h : b.attempt leaf e = some (.ok (cs, a))) :
    e = .anchor cs a ∧ b.verifier.Issued (top leaf cs) a := by
  rw [← issuedBy_eq_true_iff]
  cases e with
  | anchor ds d =>
    rw [attempt] at h
    split at h
    · simp at h
    · rename_i hi
      simp only [Option.some.injEq, Except.ok.injEq, Prod.mk.injEq] at h
      obtain ⟨rfl, rfl⟩ := h
      exact ⟨rfl, hi⟩
    · simp at h
  | step ds x =>
    rw [attempt] at h
    split at h <;> simp at h
  | deadEnd ds => simp [attempt] at h

theorem asks_of_attempt {e : Event} {err : TrustError}
    (h : b.attempt leaf e = some (.error err)) :
    ∃ c d, e.Asks leaf c d ∧ b.issuedBy c d = .error err := by
  cases e with
  | anchor cs d =>
    refine ⟨_, d, .anchor cs d, ?_⟩
    rw [attempt] at h
    split at h <;> simp_all
  | step cs x =>
    refine ⟨_, x.1, .step cs x, ?_⟩
    rw [attempt] at h
    split at h <;> simp_all
  | deadEnd cs => simp [attempt] at h

theorem found_eq_none_iff :
    b.found leaf p = none ↔
      (¬ ∃ cs a, b.ValidPath leaf p cs a) ∧
        ∀ cs d, b.Chain leaf p.intermediates cs → b.Candidate leaf p cs d →
          ¬ b.verifier.Unanswered (top leaf cs) d := by
  rw [found, List.findSome?_eq_none_iff]
  constructor
  · intro h
    have hanchor : ∀ cs a, b.Chain leaf p.intermediates cs → a ∈ p.anchors →
        ¬ b.verifier.Issued (top leaf cs) a ∧ ¬ b.verifier.Unanswered (top leaf cs) a := by
      intro cs a hc ha
      rw [← attempt_anchor_eq_none_iff]
      exact h _ ((b.mem_events_iff leaf p _).2 ⟨cs, hc, mem_eventsAt_anchor_iff.2 ⟨ha, rfl⟩⟩)
    refine ⟨fun ⟨cs, a, hv⟩ ↦ (hanchor cs a hv.chain hv.anchor).1 hv.issued, ?_⟩
    rintro cs d hc (ha | ⟨hp, hu, hf, hr⟩)
    · exact (hanchor cs d hc ha).2
    · rw [← attempt_step_eq_none_iff]
      have hx := List.mem_zipIdx_iff_getElem?.2 hp
      exact h _ ((b.mem_events_iff leaf p _).2 ⟨cs, hc, mem_eventsAt_step_iff.2
        ⟨⟨by omega, hx, (Search.isFree_start leaf hx cs).2 ⟨hf, hu⟩⟩, rfl⟩⟩)
  · rintro ⟨hv, hu⟩ e he
    obtain ⟨cs, hc, he⟩ := (b.mem_events_iff leaf p e).1 he
    cases e with
    | anchor ds a =>
      obtain ⟨ha, rfl⟩ := mem_eventsAt_anchor_iff.1 he
      rw [attempt_anchor_eq_none_iff]
      exact ⟨fun hi ↦ hv ⟨ds, a, hc, ha, hi⟩, hu ds a hc (.anchor ha)⟩
    | step ds x =>
      obtain ⟨⟨hn, hx, hf⟩, rfl⟩ := mem_eventsAt_step_iff.1 he
      obtain ⟨hl, hm⟩ := (Search.isFree_start leaf hx ds).1 hf
      rw [attempt_step_eq_none_iff]
      exact hu ds x.1 hc (.intermediate (List.mem_zipIdx_iff_getElem?.1 hx) hm hl (by omega))
    | deadEnd ds => rfl

theorem validPath_of_found {cs : List Placed} {a : Certificate}
    (h : b.found leaf p = some (.ok (cs, a))) : b.ValidPath leaf p cs a := by
  obtain ⟨es₁, e, es₂, hes, he, -⟩ := List.findSome?_eq_some_iff.1 h
  obtain ⟨rfl, hi⟩ := b.attempt_eq_ok leaf he
  obtain ⟨ds, hc, hm⟩ := (b.mem_events_iff leaf p _).1 (hes ▸ List.mem_append_cons_self)
  obtain ⟨ha, rfl⟩ := mem_eventsAt_anchor_iff.1 hm
  exact ⟨hc, ha, hi⟩

theorem candidate_of_found {err : TrustError} (h : b.found leaf p = some (.error err)) :
    ∃ cs d, b.Chain leaf p.intermediates cs ∧ b.Candidate leaf p cs d ∧
      b.issuedBy (top leaf cs) d = .error err := by
  obtain ⟨es₁, e, es₂, hes, he, -⟩ := List.findSome?_eq_some_iff.1 h
  obtain ⟨c, d, ha, hi⟩ := b.asks_of_attempt leaf he
  obtain ⟨cs, hc, hd, rfl⟩ := b.candidate_of_asks leaf p (hes ▸ List.mem_append_cons_self) ha
  exact ⟨cs, d, hc, hd, hi⟩

theorem build_of_selfSigned (h : b.verifier.certificate leaf leaf.publicKey = .ok ()) :
    b.build leaf p = .error (.selfSignedLeaf leaf.subject.oneline) := by
  rw [build, Verifier.isSelfSigned, (b.verifier.holds_eq_true_iff _ _).2 h]
  rfl

theorem build_of_other {q : SignatureProblem}
    (h : b.verifier.certificate leaf leaf.publicKey = .error (.other q)) :
    b.build leaf p = .error (.signature leaf.subject.oneline q) := by
  rw [build, Verifier.isSelfSigned, (b.verifier.holds_eq_error_iff _ _ _).2 ⟨q, h, rfl⟩]
  rfl

theorem extend_start_eq_follow :
    b.extend p (.start leaf p.intermediates) leaf =
      (b.follow (.start leaf p.intermediates) leaf (b.events leaf p) none).map
        (outcome (.start leaf p.intermediates) []) :=
  b.extend_eq_follow p (.start leaf p.intermediates) leaf

theorem build_of_mismatch (h : b.verifier.certificate leaf leaf.publicKey = .error .mismatch) :
    b.build leaf p =
      match b.found leaf p with
      | some (.error err) => .error err
      | some (.ok r) => .ok ⟨leaf, r.1.map Prod.fst, r.2⟩
      | none =>
        .error (.noPath (b.deepest leaf p).subject.oneline (b.deepest leaf p).issuer.oneline) := by
  have hs : b.verifier.isSelfSigned leaf = .ok false := (b.verifier.holds_eq_false_iff _ _).2 h
  have hf := b.follow_eq_findSome? (.start leaf p.intermediates) leaf (b.events leaf p) none
  rw [build, hs]
  change (b.extend p (.start leaf p.intermediates) leaf >>= _) = _
  rw [extend_start_eq_follow]
  cases hfound : b.found leaf p with
  | none =>
    rw [b.follow_of_findSome?_eq_none _ leaf hfound]
    rfl
  | some r =>
    rw [found] at hfound
    rw [hfound] at hf
    cases hr : b.follow (.start leaf p.intermediates) leaf (b.events leaf p) none with
    | error err =>
      rw [hr] at hf
      cases r with
      | error err' => cases hf; rfl
      | ok r => cases hf
    | ok q =>
      obtain ⟨q, st⟩ := q
      rw [hr] at hf
      cases r with
      | error err' => cases hf
      | ok r =>
        cases hf
        change Except.ok (CertificationPath.mk _ (Search.after _ r.1).chain _) = _
        rw [Search.after_chain]
        rfl

theorem build_eq :
    b.build leaf p =
      match b.verifier.certificate leaf leaf.publicKey with
      | .ok () => .error (.selfSignedLeaf leaf.subject.oneline)
      | .error (.other q) => .error (.signature leaf.subject.oneline q)
      | .error .mismatch =>
        match b.found leaf p with
        | some (.error err) => .error err
        | some (.ok r) => .ok ⟨leaf, r.1.map Prod.fst, r.2⟩
        | none =>
          .error (.noPath (b.deepest leaf p).subject.oneline (b.deepest leaf p).issuer.oneline) := by
  cases hl : b.verifier.certificate leaf leaf.publicKey with
  | ok u => exact b.build_of_selfSigned leaf p hl
  | error f =>
    cases f with
    | other q => exact b.build_of_other leaf p hl
    | mismatch => exact b.build_of_mismatch leaf p hl

theorem found_of_build {path : CertificationPath} (h : b.build leaf p = .ok path) :
    b.verifier.certificate leaf leaf.publicKey = .error .mismatch ∧
      ∃ cs a, b.found leaf p = some (.ok (cs, a)) ∧ path = ⟨leaf, cs.map Prod.fst, a⟩ := by
  rw [build_eq] at h
  split at h
  · cases h
  · cases h
  · rename_i hl
    split at h
    · cases h
    · rename_i r hf
      exact ⟨hl, r.1, r.2, hf, (Except.ok.inj h).symm⟩
    · cases h

theorem validPath_of_build {path : CertificationPath} (h : b.build leaf p = .ok path) :
    b.verifier.certificate leaf leaf.publicKey = .error .mismatch ∧
      ∃ cs a, b.ValidPath leaf p cs a ∧ path = ⟨leaf, cs.map Prod.fst, a⟩ := by
  obtain ⟨hl, cs, a, hf, hpath⟩ := b.found_of_build leaf p h
  exact ⟨hl, cs, a, b.validPath_of_found leaf p hf, hpath⟩

theorem exists_build_eq_noPath_iff :
    (∃ subject issuer, b.build leaf p = .error (.noPath subject issuer)) ↔
      b.verifier.certificate leaf leaf.publicKey = .error .mismatch ∧ b.found leaf p = none := by
  cases hl : b.verifier.certificate leaf leaf.publicKey with
  | ok u => simp [b.build_of_selfSigned leaf p hl]
  | error f =>
    cases f with
    | other q => simp [b.build_of_other leaf p hl]
    | mismatch =>
      rw [b.build_of_mismatch leaf p hl]
      cases hf : b.found leaf p with
      | none => simp
      | some r =>
        cases r with
        | ok r => simp
        | error err =>
          obtain ⟨cs, d, -, -, hi⟩ := b.candidate_of_found leaf p hf
          obtain ⟨-, q, -, rfl⟩ := (b.issuedBy_eq_error_iff _ _ _).1 hi
          simp

/-- Building fails for want of a path exactly if there is none and nothing on the way that cannot be
told. In particular a path is built wherever there is one and everything can be told. -/
theorem build_eq_noPath_iff :
    ((∃ subject issuer, b.build leaf p = .error (.noPath subject issuer)) ↔
      b.verifier.certificate leaf leaf.publicKey = .error .mismatch ∧
        (¬ ∃ cs a, b.ValidPath leaf p cs a) ∧
        ∀ cs d, b.Chain leaf p.intermediates cs → b.Candidate leaf p cs d →
          ¬ b.verifier.Unanswered (top leaf cs) d) ∧
    (b.verifier.certificate leaf leaf.publicKey ≠ .ok () →
      (∀ c key q, b.verifier.certificate c key ≠ .error (.other q)) →
      (∃ cs a, b.ValidPath leaf p cs a) →
      ∃ cs a, b.ValidPath leaf p cs a ∧ b.build leaf p = .ok ⟨leaf, cs.map Prod.fst, a⟩) := by
  refine ⟨by rw [exists_build_eq_noPath_iff, found_eq_none_iff], ?_⟩
  intro hl hother hpath
  have hmismatch : b.verifier.certificate leaf leaf.publicKey = .error .mismatch := by
    cases hc : b.verifier.certificate leaf leaf.publicKey with
    | ok u => exact absurd hc hl
    | error f =>
      cases f with
      | mismatch => rfl
      | other q => exact absurd hc (hother _ _ q)
  rw [b.build_of_mismatch leaf p hmismatch]
  cases hf : b.found leaf p with
  | none => exact absurd hpath ((b.found_eq_none_iff leaf p).1 hf).1
  | some r =>
    cases r with
    | ok r => exact ⟨r.1, r.2, b.validPath_of_found leaf p hf, rfl⟩
    | error err =>
      obtain ⟨cs, d, -, -, hi⟩ := b.candidate_of_found leaf p hf
      obtain ⟨-, q, hq, -⟩ := (b.issuedBy_eq_error_iff _ _ _).1 hi
      exact absurd hq (hother _ _ q)

theorem build_past_dead_end :
    ∃ cs a, ValidPath ⟨.sample, 3⟩ (.sample 'C' 'B' [])
        ⟨[.sample 'A' 'A' []], [.sample 'B' 'X' [], .sample 'B' 'A' []]⟩ cs a ∧
      build ⟨.sample, 3⟩ (.sample 'C' 'B' [])
        ⟨[.sample 'A' 'A' []], [.sample 'B' 'X' [], .sample 'B' 'A' []]⟩ =
          .ok ⟨.sample 'C' 'B' [], cs.map Prod.fst, a⟩ := by
  refine (build_eq_noPath_iff _ _ _).2 (by decide +kernel) Verifier.sample_ne_other
    ⟨[(.sample 'B' 'A' [], 1)], .sample 'A' 'A' [], ?_⟩
  refine ⟨⟨by simp, by simp, ?_, ?_, .inr (by decide)⟩, by simp, ?_⟩
  · exact List.forall_mem_singleton.2 (by decide +kernel)
  · exact .cons_cons ⟨by decide +kernel, by decide +kernel⟩ (.singleton _)
  · exact ⟨by decide +kernel, by decide +kernel⟩

end CertPath.PathBuilder
