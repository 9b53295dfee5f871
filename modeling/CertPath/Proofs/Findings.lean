import CertPath.Proofs.Completeness

namespace CertPath

theorem flatMap_filter {α β : Type} (q : α → Bool) (f : α → List β) (l : List α) :
    (l.filter q).flatMap f = l.flatMap fun x ↦ if q x then f x else [] := by
  induction l with
  | nil => rfl
  | cons x l ih =>
    rw [List.filter_cons, List.flatMap_cons, ← ih]
    cases q x <;> rfl

namespace PathBuilder

/-- What counts of a search once the places of certificates are forgotten. -/
inductive Finding
  | stop (r : Except TrustError CertificationPath)
  | stall (s : Stall)

namespace Finding

def stop? : Finding → Option (Except TrustError CertificationPath)
  | stop r => some r
  | stall _ => none

def deepen (st : Option Stall) : Finding → Option Stall
  | stop _ => st
  | stall s => if st.any fun t ↦ s.depth ≤ t.depth then st else some s

end Finding

def conclude (leaf : Certificate) (fs : List Finding) : Except TrustError CertificationPath :=
  match fs.findSome? Finding.stop? with
  | some r => r
  | none =>
    let last := ((fs.foldl Finding.deepen none).map (·.certificate)).getD leaf
    .error (.noPath last.subject.oneline last.issuer.oneline)

variable (b : PathBuilder) (leaf : Certificate) (p : Partition)

def anchorFinding (cs : List Certificate) (a : Certificate) : Option Finding :=
  match b.issuedBy (cs.getLastD leaf) a with
  | .error err => some (.stop (.error err))
  | .ok true => some (.stop (.ok ⟨leaf, cs, a⟩))
  | .ok false => none

def finding : Event → Option Finding
  | .anchor cs a => b.anchorFinding leaf (cs.map Prod.fst) a
  | .step cs x =>
    match b.issuedBy (top leaf cs) x.1 with
    | .error err => some (.stop (.error err))
    | .ok _ => none
  | .deadEnd cs => some (.stall ⟨cs.length, top leaf cs⟩)

def stepFindings (cs : List Certificate) (c : Certificate) (beyond : List Finding) :
    List Finding :=
  if c.der = leaf.der ∨ c ∈ cs then []
  else
    match b.issuedBy (cs.getLastD leaf) c with
    | .error err => [.stop (.error err)]
    | .ok true => beyond
    | .ok false => []

/-- All that is found above a chain through up to `levels` more intermediates. -/
def findings : Nat → List Certificate → List Finding
  | 0, cs => p.anchors.filterMap (b.anchorFinding leaf cs) ++ [.stall ⟨cs.length, cs.getLastD leaf⟩]
  | n + 1, cs =>
    p.anchors.filterMap (b.anchorFinding leaf cs) ++
      p.intermediates.flatMap (fun c ↦ b.stepFindings leaf cs c (findings n (cs ++ [c]))) ++
      [.stall ⟨cs.length, cs.getLastD leaf⟩]

theorem stop?_finding (e : Event) :
    (b.finding leaf e).bind Finding.stop? =
      (b.attempt leaf e).map (Except.map fun r ↦ ⟨leaf, r.1.map Prod.fst, r.2⟩) := by
  cases e with
  | anchor cs a =>
    rw [finding, anchorFinding, attempt, top]
    cases b.issuedBy ((cs.map Prod.fst).getLastD leaf) a with
    | error err => rfl
    | ok r => cases r <;> rfl
  | step cs x =>
    rw [finding, attempt]
    cases b.issuedBy (top leaf cs) x.1 <;> rfl
  | deadEnd cs => rfl

theorem note_deadEnd (cs : List Placed) (st : Option Stall) :
    note (.start leaf p.intermediates) leaf (.deadEnd cs) st =
      if st.any fun t ↦ cs.length ≤ t.depth then st else some ⟨cs.length, top leaf cs⟩ := by
  have hlen : (((Search.start leaf p.intermediates).after cs).withStall st).chain.length =
      cs.length := by
    simp [Search.withStall, Search.start]
  simp only [note, Search.record, hlen]
  change (if st.any _ then _ else _ : Search).stall = _
  split <;> rfl

theorem note_eq_deepen (e : Event) (st : Option Stall) :
    note (.start leaf p.intermediates) leaf e st =
      ((b.finding leaf e).map (Finding.deepen st)).getD st := by
  cases e with
  | anchor cs a =>
    rw [finding, anchorFinding]
    cases b.issuedBy ((cs.map Prod.fst).getLastD leaf) a with
    | error err => rfl
    | ok r => cases r <;> rfl
  | step cs x =>
    rw [finding]
    cases b.issuedBy (top leaf cs) x.1 <;> rfl
  | deadEnd cs => exact note_deadEnd leaf p cs st

theorem build_eq_conclude_events
    (h : b.verifier.certificate leaf leaf.publicKey = .error .mismatch) :
    b.build leaf p = conclude leaf ((b.events leaf p).filterMap (b.finding leaf)) := by
  have hstop : ((b.events leaf p).filterMap (b.finding leaf)).findSome? Finding.stop? =
      (b.found leaf p).map (Except.map fun r ↦ ⟨leaf, r.1.map Prod.fst, r.2⟩) := by
    rw [← List.head?_filterMap, List.filterMap_filterMap, List.head?_filterMap, found,
      List.map_findSome?]
    exact congrArg (List.findSome? · _) (funext (b.stop?_finding leaf))
  have hdeep : ((b.events leaf p).filterMap (b.finding leaf)).foldl Finding.deepen none =
      (b.events leaf p).foldl (fun st e ↦ note (.start leaf p.intermediates) leaf e st) none := by
    rw [List.foldl_filterMap]
    refine List.foldl_ext _ _ _ fun st e _ ↦ ?_
    rw [b.note_eq_deepen leaf p e st]
    cases b.finding leaf e <;> rfl
  rw [b.build_of_mismatch leaf p h, conclude, hstop, hdeep]
  cases b.found leaf p with
  | none => rfl
  | some r => cases r <;> rfl

section Places

variable {p} {cs : List Placed}

theorem isFree_start_iff (hn : p.intermediates.Nodup)
    (hc : ∀ x ∈ cs, p.intermediates[x.2]? = some x.1) {x : Placed}
    (hx : x ∈ p.intermediates.zipIdx) :
    (Search.start leaf p.intermediates).isFree cs x = true ↔
      ¬ (x.1.der = leaf.der ∨ x.1 ∈ cs.map Prod.fst) := by
  have hx' := List.mem_zipIdx_iff_getElem?.1 hx
  have hplace : x.2 ∈ cs.map Prod.snd ↔ x.1 ∈ cs.map Prod.fst := by
    constructor
    · intro h
      obtain ⟨y, hy, he⟩ := List.mem_map.1 h
      have hy' := hc y hy
      rw [he, hx'] at hy'
      exact List.mem_map.2 ⟨y, hy, (Option.some.inj hy').symm⟩
    · intro h
      obtain ⟨y, hy, he⟩ := List.mem_map.1 h
      have hy' := hc y hy
      rw [he, ← hx'] at hy'
      have hlt := (List.getElem?_eq_some_iff.1 hx').1
      exact List.mem_map.2 ⟨y, hy, ((List.getElem?_inj hlt hn).1 hy'.symm).symm⟩
  rw [Search.isFree_start leaf hx, hplace, not_or]

theorem filterMap_branch (x : Placed) (beyond : List Event)
    (hx : ¬ (x.1.der = leaf.der ∨ x.1 ∈ cs.map Prod.fst)) :
    (b.branch leaf cs x beyond).filterMap (b.finding leaf) =
      b.stepFindings leaf (cs.map Prod.fst) x.1 (beyond.filterMap (b.finding leaf)) := by
  rw [branch, stepFindings, if_neg hx, List.filterMap_cons, finding, top]
  cases b.issuedBy ((cs.map Prod.fst).getLastD leaf) x.1 with
  | error err => rfl
  | ok r => cases r <;> rfl

theorem filterMap_trace (hn : p.intermediates.Nodup) (n : Nat)
    (hc : ∀ x ∈ cs, p.intermediates[x.2]? = some x.1) :
    (b.trace p (.start leaf p.intermediates) leaf n cs).filterMap (b.finding leaf) =
      b.findings leaf p n (cs.map Prod.fst) := by
  induction n generalizing cs with
  | zero =>
    simp only [trace, findings, List.filterMap_append, List.filterMap_map, List.length_map]
    rfl
  | succ n ih =>
    have hstep : ∀ x ∈ p.intermediates.zipIdx,
        (if (Search.start leaf p.intermediates).isFree cs x then
          (b.branch leaf cs x (b.trace p (.start leaf p.intermediates) leaf n (cs ++ [x]))).filterMap
            (b.finding leaf) else []) =
        b.stepFindings leaf (cs.map Prod.fst) x.1
          (b.findings leaf p n (cs.map Prod.fst ++ [x.1])) := by
      intro x hx
      have hfree := isFree_start_iff leaf hn hc hx
      split
      · rename_i hf
        have hcx : ∀ y ∈ cs ++ [x], p.intermediates[y.2]? = some y.1 := by
          intro y hy
          rcases List.mem_append.1 hy with hy | hy
          · exact hc y hy
          · obtain rfl := List.mem_singleton.1 hy
            exact List.mem_zipIdx_iff_getElem?.1 hx
        rw [b.filterMap_branch leaf x _ (hfree.1 hf), ih hcx, List.map_append]
        rfl
      · rename_i hf
        rw [stepFindings, if_pos (not_not.1 (mt hfree.2 hf))]
    have hinter : ((p.intermediates.zipIdx.filter
          ((Search.start leaf p.intermediates).isFree cs)).flatMap fun x ↦
            b.branch leaf cs x (b.trace p (.start leaf p.intermediates) leaf n (cs ++ [x]))).filterMap
              (b.finding leaf) =
        p.intermediates.flatMap fun c ↦ b.stepFindings leaf (cs.map Prod.fst) c
          (b.findings leaf p n (cs.map Prod.fst ++ [c])) := by
      rw [List.filterMap_flatMap, flatMap_filter, List.flatMap_congr hstep]
      conv_rhs => rw [← List.zipIdx_map_fst 0 p.intermediates, List.flatMap_map]
    simp only [trace, findings, List.filterMap_append, List.filterMap_map, List.length_map, hinter]
    rfl

end Places

section Named

variable {b leaf p} {names : List Bytes} {cs : List Certificate}

variable (leaf p names) in
/-- The part of a partition that signs certificates which give one of these names for their issuer.
The leaf is not part of it. -/
def named : Partition where
  anchors := p.anchors.filter fun a ↦ a.subject.raw ∈ names
  intermediates := p.intermediates.filter fun c ↦ c.subject.raw ∈ names ∧ c.der ≠ leaf.der

theorem mem_named_iff {c : Certificate} :
    c ∈ (named leaf p names).intermediates ↔
      c ∈ p.intermediates ∧ c.subject.raw ∈ names ∧ c.der ≠ leaf.der := by
  simp [named]

theorem issuedBy_of_unnamed {c d : Certificate} (hc : c.issuer.raw ∈ names)
    (hd : d.subject.raw ∉ names) : b.issuedBy c d = .ok false := by
  have hne : d.subject.raw ≠ c.issuer.raw := fun h ↦ hd (h ▸ hc)
  rw [issuedBy, if_neg hne]

theorem filterMap_anchors_named (hroot : (cs.getLastD leaf).issuer.raw ∈ names) :
    (named leaf p names).anchors.filterMap (b.anchorFinding leaf cs) =
      p.anchors.filterMap (b.anchorFinding leaf cs) := by
  rw [named, List.filterMap_filter]
  refine List.filterMap_congr fun a _ ↦ ?_
  split
  · rfl
  · rename_i ha
    have hi := issuedBy_of_unnamed (b := b) hroot (by simpa using ha)
    rw [anchorFinding, hi]

theorem flatMap_intermediates_named (hroot : (cs.getLastD leaf).issuer.raw ∈ names)
    {beyond beyond' : Certificate → List Finding}
    (h : ∀ c ∈ (named leaf p names).intermediates, beyond c = beyond' c) :
    (named leaf p names).intermediates.flatMap (fun c ↦ b.stepFindings leaf cs c (beyond c)) =
      p.intermediates.flatMap fun c ↦ b.stepFindings leaf cs c (beyond' c) := by
  rw [named, flatMap_filter]
  refine List.flatMap_congr fun c hc ↦ ?_
  by_cases hd : c.der = leaf.der
  · simp [stepFindings, hd]
  · by_cases hs : c.subject.raw ∈ names
    · rw [h c (mem_named_iff.2 ⟨hc, hs, hd⟩), if_pos (by simp [hs, hd])]
    · have hi := issuedBy_of_unnamed (b := b) hroot hs
      rw [if_neg (by simp [hs]), stepFindings, hi]
      simp

/-- A search does not look beyond the names that it comes upon. -/
theorem findings_named (hroot : (cs.getLastD leaf).issuer.raw ∈ names)
    (hclosed : ∀ c ∈ (named leaf p names).intermediates, c.issuer.raw ∈ names) (n : Nat) :
    b.findings leaf (named leaf p names) n cs = b.findings leaf p n cs := by
  induction n generalizing cs with
  | zero => rw [findings, findings, filterMap_anchors_named hroot]
  | succ n ih =>
    have hbeyond : ∀ c ∈ (named leaf p names).intermediates,
        b.findings leaf (named leaf p names) n (cs ++ [c]) =
          b.findings leaf p n (cs ++ [c]) := by
      intro c hc
      apply ih
      rw [List.getLastD_concat]
      exact hclosed c hc
    rw [findings, findings, filterMap_anchors_named hroot,
      flatMap_intermediates_named hroot hbeyond]

end Named

theorem build_eq_conclude (hn : p.intermediates.Nodup)
    (h : b.verifier.certificate leaf leaf.publicKey = .error .mismatch) :
    b.build leaf p = conclude leaf (b.findings leaf p (b.maxDepth - 2) []) := by
  rw [b.build_eq_conclude_events leaf p h, b.filterMap_trace leaf hn _ (by simp)]
  rfl

theorem build_named {names : List Bytes} (hn : p.intermediates.Nodup)
    (h : b.verifier.certificate leaf leaf.publicKey = .error .mismatch)
    (hleaf : leaf.issuer.raw ∈ names)
    (hclosed : ∀ c ∈ (named leaf p names).intermediates, c.issuer.raw ∈ names) :
    b.build leaf (named leaf p names) = b.build leaf p := by
  have hn' : (named leaf p names).intermediates.Nodup := hn.filter _
  rw [b.build_eq_conclude leaf _ hn' h, b.build_eq_conclude leaf p hn h,
    findings_named hleaf hclosed]

end PathBuilder

end CertPath
