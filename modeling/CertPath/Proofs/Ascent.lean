import CertPath.Proofs.Soundness

namespace CertPath

theorem findSome?_flatMap {α β γ : Type} (f : β → Option γ) (g : α → List β) (l : List α) :
    (l.flatMap g).findSome? f = l.findSome? fun x ↦ (g x).findSome? f := by
  rw [← List.head?_filterMap, List.filterMap_flatMap, List.head?_flatMap]
  exact congrArg (List.findSome? · l) (funext fun x ↦ List.head?_filterMap)

namespace PathBuilder

variable (b : PathBuilder) (p : Partition) (s : Search) (root : Certificate)

/-- A search at the end of `cs` goes up through `ds` and stops at the anchor `a`. It passes over no
certificate that an anchor issued. -/
inductive Ascends : List Certificate → List Certificate → Certificate → Prop
  | stop {cs : List Certificate} {a : Certificate} :
      b.anchorOf (cs.getLastD root) p.anchors = .ok (some a) → Ascends cs [] a
  | step {cs ds : List Certificate} {c a : Certificate} :
      b.anchorOf (cs.getLastD root) p.anchors = .ok none →
      b.verifier.Issued (cs.getLastD root) c → Ascends (cs ++ [c]) ds a → Ascends cs (c :: ds) a

variable {b p s root}

section Anchors

variable {c a : Certificate} {as : List Certificate}

theorem anchorOf_cons_of_false (h : b.issuedBy c a = .ok false) :
    b.anchorOf c (a :: as) = b.anchorOf c as := by
  rw [anchorOf, h]
  rfl

theorem anchorOf_cons_of_true (h : b.issuedBy c a = .ok true) :
    b.anchorOf c (a :: as) = .ok (some a) := by
  rw [anchorOf, h]
  rfl

theorem anchorOf_cons_of_error {e : TrustError} (h : b.issuedBy c a = .error e) :
    b.anchorOf c (a :: as) = .error e := by
  rw [anchorOf, h]
  rfl

theorem anchorOf_eq_some (h : b.anchorOf c as = .ok (some a)) :
    a ∈ as ∧ b.issuedBy c a = .ok true := by
  induction as with
  | nil => cases h
  | cons d as ih =>
    cases hd : b.issuedBy c d with
    | error e =>
      rw [anchorOf_cons_of_error hd] at h
      cases h
    | ok r =>
      cases r with
      | false =>
        rw [anchorOf_cons_of_false hd] at h
        obtain ⟨hm, hi⟩ := ih h
        exact ⟨List.mem_cons_of_mem _ hm, hi⟩
      | true =>
        rw [anchorOf_cons_of_true hd] at h
        cases h
        exact ⟨List.mem_cons_self, hd⟩

theorem anchorOf_eq_none (h : b.anchorOf c as = .ok none) (ha : a ∈ as) :
    b.issuedBy c a = .ok false := by
  induction as with
  | nil => cases ha
  | cons d as ih =>
    cases hd : b.issuedBy c d with
    | error e =>
      rw [anchorOf_cons_of_error hd] at h
      cases h
    | ok r =>
      cases r with
      | false =>
        rw [anchorOf_cons_of_false hd] at h
        rcases List.mem_cons.1 ha with rfl | ha
        · exact hd
        · exact ih h ha
      | true =>
        rw [anchorOf_cons_of_true hd] at h
        cases h

theorem findSome?_attempt_anchors (cs : List Placed) (as : List Certificate) :
    (as.map (.anchor cs)).findSome? (b.attempt root) =
      match b.anchorOf (top root cs) as with
      | .error e => some (.error e)
      | .ok (some a) => some (.ok (cs, a))
      | .ok none => none := by
  induction as with
  | nil => rfl
  | cons a as ih =>
    rw [List.map_cons, List.findSome?_cons, attempt]
    cases ha : b.issuedBy (top root cs) a with
    | error e => rw [anchorOf_cons_of_error ha]
    | ok r =>
      cases r with
      | false => rw [anchorOf_cons_of_false ha, ← ih]
      | true => rw [anchorOf_cons_of_true ha]

end Anchors

theorem findSome?_branch {cs : List Placed} {x : Placed} {beyond : List Event}
    {r : List Placed × Certificate}
    (h : (b.branch root cs x beyond).findSome? (b.attempt root) = some (.ok r)) :
    b.verifier.Issued (top root cs) x.1 ∧ beyond.findSome? (b.attempt root) = some (.ok r) := by
  rw [← issuedBy_eq_true_iff]
  rw [branch, List.findSome?_cons, attempt] at h
  cases hi : b.issuedBy (top root cs) x.1 with
  | error e => simp [hi] at h
  | ok i =>
    cases i with
    | false => simp [hi] at h
    | true => exact ⟨rfl, by simpa [hi] using h⟩

theorem ascends_of_trace (n : Nat) {cs es : List Placed} {a : Certificate}
    (h : (b.trace p s root n cs).findSome? (b.attempt root) = some (.ok (es, a))) :
    ∃ ds, es = cs ++ ds ∧ b.Ascends p root (cs.map Prod.fst) (ds.map Prod.fst) a := by
  induction n generalizing cs with
  | zero =>
    rw [trace, List.findSome?_append, findSome?_attempt_anchors] at h
    cases ha : b.anchorOf (top root cs) p.anchors with
    | error e => simp [ha] at h
    | ok r =>
      cases r with
      | none => simp [ha, attempt] at h
      | some d =>
        obtain ⟨rfl, rfl⟩ : cs = es ∧ d = a := by simpa [ha] using h
        exact ⟨[], by simp, .stop ha⟩
  | succ n ih =>
    rw [trace, List.findSome?_append, List.findSome?_append, findSome?_attempt_anchors] at h
    cases ha : b.anchorOf (top root cs) p.anchors with
    | error e => simp [ha] at h
    | ok r =>
      cases r with
      | some d =>
        obtain ⟨rfl, rfl⟩ : cs = es ∧ d = a := by simpa [ha] using h
        exact ⟨[], by simp, .stop ha⟩
      | none =>
        have hstep : ∃ x, (b.branch root cs x (b.trace p s root n (cs ++ [x]))).findSome?
            (b.attempt root) = some (.ok (es, a)) := by
          rw [findSome?_flatMap] at h
          obtain ⟨x, -, hx⟩ := List.exists_of_findSome?_eq_some (by simpa [ha, attempt] using h)
          exact ⟨x, hx⟩
        obtain ⟨x, hx⟩ := hstep
        obtain ⟨hi, hbeyond⟩ := findSome?_branch hx
        obtain ⟨ds, rfl, hds⟩ := ih hbeyond
        rw [List.map_append] at hds
        exact ⟨x :: ds, by simp, .step ha hi hds⟩

theorem ascends_of_build {leaf : Certificate} {path : CertificationPath}
    (h : b.build leaf p = .ok path) : b.Ascends p leaf [] path.intermediates path.anchor := by
  obtain ⟨-, cs, a, hf, rfl⟩ := b.found_of_build leaf p h
  obtain ⟨ds, hds, ha⟩ := ascends_of_trace (b.maxDepth - 2) hf
  rw [List.nil_append] at hds
  rw [hds]
  exact ha

namespace Ascends

variable {cs ds : List Certificate} {a c : Certificate}

theorem mem_anchors (h : b.Ascends p root cs ds a) : a ∈ p.anchors := by
  induction h with
  | stop ha => exact (anchorOf_eq_some ha).1
  | step _ _ _ ih => exact ih

theorem ne_anchor (h : b.Ascends p root cs ds a) (hc : c ∈ ds) : c ≠ a := by
  induction h with
  | stop ha => cases hc
  | @step cs ds d a hn hi h ih =>
    rcases List.mem_cons.1 hc with rfl | hc
    · rintro rfl
      have hfalse := anchorOf_eq_none hn h.mem_anchors
      rw [(b.issuedBy_eq_true_iff _ _).2 hi] at hfalse
      cases hfalse
    · exact ih hc

end Ascends

/-- On a path a certificate comes again only if it was given twice, or if the leaf was given as an
anchor. -/
theorem nodup_of_build {leaf : Certificate} {path : CertificationPath}
    (hd : ∀ c ∈ p.anchors ++ p.intermediates, c.IsDecoded) (h : b.build leaf p = .ok path) :
    (∀ c ∈ path.intermediates, c.der ≠ path.leaf.der ∧ c.der ≠ path.anchor.der) ∧
    ((∀ a ∈ p.anchors, a.der ≠ leaf.der) → (p.intermediates.map (·.der)).Nodup →
      (path.certificates.map (·.der)).Nodup) := by
  have hup := ascends_of_build h
  obtain ⟨-, cs, a, hpath, rfl⟩ := b.validPath_of_build leaf p h
  have hadecoded : a.IsDecoded := hd a (List.mem_append_left _ hpath.anchor)
  have hanchor : ∀ c ∈ cs.map Prod.fst, c.der ≠ a.der := by
    intro c hc he
    have hc' := hd c (List.mem_append_right _ (hpath.chain.mem_intermediates hc))
    exact hup.ne_anchor hc (hc'.eq_of_der hadecoded he)
  have hleaf : ∀ c ∈ cs.map Prod.fst, c.der ≠ leaf.der := fun c hc ↦ hpath.chain.foreign_of_mem hc
  refine ⟨fun c hc ↦ ⟨hleaf c hc, hanchor c hc⟩, fun ha hi ↦ ?_⟩
  have htail :=
    CertificationPath.nodup_tail ⟨leaf, cs.map Prod.fst, a⟩ (hpath.chain.nodup hi) hanchor
  exact CertificationPath.nodup_certificates _ htail hleaf (ha a hpath.anchor)

theorem nodup_of_build_overlap :
    ∃ path, build ⟨.sample, 4⟩ (.sample 'C' 'B' [])
        ⟨[.sample 'A' 'A' []], [.sample 'B' 'X' [], .sample 'A' 'A' [], .sample 'B' 'A' []]⟩ =
          .ok path ∧ (path.certificates.map (·.der)).Nodup := by
  have hb : build ⟨.sample, 4⟩ (.sample 'C' 'B' [])
      ⟨[.sample 'A' 'A' []], [.sample 'B' 'X' [], .sample 'A' 'A' [], .sample 'B' 'A' []]⟩ =
        .ok ⟨.sample 'C' 'B' [], [.sample 'B' 'A' []], .sample 'A' 'A' []⟩ := by decide +kernel
  have ha : (Certificate.sample 'A' 'A' []).IsDecoded :=
    Certificate.isDecoded_sample (by decide +kernel)
  have hbx : (Certificate.sample 'B' 'X' []).IsDecoded :=
    Certificate.isDecoded_sample (by decide +kernel)
  have hba : (Certificate.sample 'B' 'A' []).IsDecoded :=
    Certificate.isDecoded_sample (by decide +kernel)
  exact ⟨_, hb, (nodup_of_build (by simp [ha, hbx, hba]) hb).2 (by decide +kernel)
    (by decide +kernel)⟩

/-- A leaf given as an anchor vouches for itself by way of a certificate that it issued, and a
certificate given twice stands twice on a path. -/
theorem build_repeats :
    (∃ path, build ⟨.sample, 3⟩ (.sample 'C' 'B' [])
        ⟨[.sample 'C' 'B' []], [.sample 'B' 'C' []]⟩ = .ok path ∧
      ¬ (path.certificates.map (·.der)).Nodup) ∧
    ∃ path, build ⟨.sample, 6⟩ (.sample 'D' 'B' []) ⟨[.sample 'A' 'A' []],
        [.sample 'B' 'C' [], .sample 'C' 'B' [], .sample 'B' 'C' [], .sample 'C' 'A' []]⟩ =
          .ok path ∧
      ¬ (path.certificates.map (·.der)).Nodup := by
  refine ⟨⟨⟨.sample 'C' 'B' [], [.sample 'B' 'C' []], .sample 'C' 'B' []⟩, ?_, ?_⟩,
    ⟨.sample 'D' 'B' [], [.sample 'B' 'C' [], .sample 'C' 'B' [], .sample 'B' 'C' [],
      .sample 'C' 'A' []], .sample 'A' 'A' []⟩, ?_, ?_⟩
  all_goals decide +kernel

end PathBuilder

end CertPath
