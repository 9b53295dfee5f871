import CertPath.Proofs.Completeness

namespace CertPath.PathBuilder

/-- What a verifier may be asked for the sake of a leaf: its own signature, and that of the last
certificate of a chain with the key of a candidate that has the name of its issuer. -/
inductive Consulted (b : PathBuilder) (leaf : Certificate) (p : Partition) :
    Certificate → Bytes → Prop
  | own : Consulted b leaf p leaf leaf.publicKey
  | candidate {cs : List Placed} {d : Certificate} :
      b.Chain leaf p.intermediates cs → b.Candidate leaf p cs d →
      d.subject.raw = (top leaf cs).issuer.raw → Consulted b leaf p (top leaf cs) d.publicKey

section Agreement

variable {b b' : PathBuilder} {p : Partition} {s : Search} {root : Certificate}

theorem branch_congr {cs : List Placed} {x : Placed} {beyond beyond' : List Event}
    (hx : b'.issuedBy (top root cs) x.1 = b.issuedBy (top root cs) x.1)
    (h : b.verifier.Issued (top root cs) x.1 → beyond' = beyond) :
    b'.branch root cs x beyond' = b.branch root cs x beyond := by
  rw [branch, branch, hx]
  rw [← issuedBy_eq_true_iff] at h
  cases hi : b.issuedBy (top root cs) x.1 with
  | error e => rfl
  | ok r =>
    cases r with
    | false => rfl
    | true => rw [h hi]

theorem trace_congr (n : ℕ) {cs : List Placed}
    (h : ∀ e ∈ b.trace p s root n cs, ∀ c d, e.Asks root c d → b'.issuedBy c d = b.issuedBy c d) :
    b'.trace p s root n cs = b.trace p s root n cs := by
  induction n generalizing cs with
  | zero => rfl
  | succ n ih =>
    have hbranch : ∀ x ∈ p.intermediates.zipIdx.filter (s.isFree cs),
        b'.branch root cs x (b'.trace p s root n (cs ++ [x])) =
          b.branch root cs x (b.trace p s root n (cs ++ [x])) := by
      intro x hx
      have hmem : ∀ e ∈ b.branch root cs x (b.trace p s root n (cs ++ [x])),
          e ∈ b.trace p s root (n + 1) cs := by
        intro e he
        rw [trace]
        apply List.mem_append_left
        apply List.mem_append_right
        exact List.mem_flatMap.2 ⟨x, hx, he⟩
      apply branch_congr
      · exact h _ (hmem _ List.mem_cons_self) _ _ (.step cs x)
      · intro hi
        apply ih
        intro e he
        exact h e (hmem e ((b.mem_branch_iff root cs x _ e).2 (.inr ⟨hi, he⟩)))
    rw [trace, trace, List.flatMap_congr hbranch]

theorem attempt_congr {e : Event}
    (h : ∀ c d, e.Asks root c d → b'.issuedBy c d = b.issuedBy c d) :
    b'.attempt root e = b.attempt root e := by
  cases e with
  | anchor cs a => rw [attempt, attempt, h _ _ (.anchor cs a)]
  | step cs x => rw [attempt, attempt, h _ _ (.step cs x)]
  | deadEnd cs => rfl

theorem issuedBy_congr {c d : Certificate}
    (h : d.subject.raw = c.issuer.raw →
      b'.verifier.certificate c d.publicKey = b.verifier.certificate c d.publicKey) :
    b'.issuedBy c d = b.issuedBy c d := by
  unfold issuedBy
  split
  · rename_i hn
    rw [Verifier.holds, Verifier.holds, h hn]
  · rfl

end Agreement

variable {b : PathBuilder} {leaf : Certificate} {p : Partition}

theorem build_of_agree {v : Verifier}
    (h : ∀ c key, b.Consulted leaf p c key → v.certificate c key = b.verifier.certificate c key) :
    build ⟨v, b.maxDepth⟩ leaf p = b.build leaf p := by
  have hasks : ∀ e ∈ b.events leaf p, ∀ c d, e.Asks leaf c d →
      issuedBy ⟨v, b.maxDepth⟩ c d = b.issuedBy c d := by
    intro e he c d ha
    obtain ⟨cs, hc, hd, rfl⟩ := b.candidate_of_asks leaf p he ha
    exact issuedBy_congr fun hn ↦ h _ _ (.candidate hc hd hn)
  have hevents : events ⟨v, b.maxDepth⟩ leaf p = b.events leaf p := trace_congr _ hasks
  have hfound : found ⟨v, b.maxDepth⟩ leaf p = b.found leaf p := by
    rw [found, found, hevents, ← List.head?_filterMap, ← List.head?_filterMap]
    congr 1
    exact List.filterMap_congr fun e he ↦ attempt_congr (hasks e he)
  have hdeepest : deepest ⟨v, b.maxDepth⟩ leaf p = b.deepest leaf p := by
    rw [deepest, deepest, hevents]
  rw [build_eq, build_eq, h _ _ .own, hfound, hdeepest]

theorem consulted_of_build {subject : String} {q : SignatureProblem}
    (h : b.build leaf p = .error (.signature subject q)) :
    ∃ c key, b.Consulted leaf p c key ∧ b.verifier.certificate c key = .error (.other q) ∧
      subject = c.subject.oneline := by
  rw [build_eq] at h
  split at h
  · cases h
  · rename_i hl
    cases h
    exact ⟨leaf, leaf.publicKey, .own, hl, rfl⟩
  · split at h
    · rename_i hf
      obtain ⟨cs, d, hc, hd, hi⟩ := b.candidate_of_found leaf p hf
      obtain ⟨hn, q', hq, rfl⟩ := (b.issuedBy_eq_error_iff _ _ _).1 hi
      cases h
      exact ⟨top leaf cs, d.publicKey, .candidate hc hd hn.symm, hq, rfl⟩
    · cases h
    · cases h

theorem answered_of_noPath {subject issuer : String}
    (h : b.build leaf p = .error (.noPath subject issuer)) {c : Certificate} {key : Bytes}
    (hc : b.Consulted leaf p c key) (q : SignatureProblem) :
    b.verifier.certificate c key ≠ .error (.other q) := by
  obtain ⟨hl, hnone⟩ := (b.exists_build_eq_noPath_iff leaf p).1 ⟨subject, issuer, h⟩
  obtain ⟨-, hall⟩ := (b.found_eq_none_iff leaf p).1 hnone
  cases hc with
  | own => simp [hl]
  | candidate hc hd hn => exact fun hq ↦ hall _ _ hc hd ⟨hn.symm, q, hq⟩

theorem answered_of_attempt {e : Event} (h : b.attempt leaf e = none) {c d : Certificate}
    (ha : e.Asks leaf c d) : ¬ b.verifier.Unanswered c d := by
  cases ha with
  | anchor cs => exact ((b.attempt_anchor_eq_none_iff leaf cs d).1 h).2
  | step cs x => exact (b.attempt_step_eq_none_iff leaf cs x).1 h

theorem answered_of_build {path : CertificationPath} (h : b.build leaf p = .ok path) :
    b.verifier.certificate leaf leaf.publicKey = .error .mismatch ∧
      ∃ before cs after, b.events leaf p = before ++ .anchor cs path.anchor :: after ∧
        path = ⟨leaf, cs.map Prod.fst, path.anchor⟩ ∧
        b.verifier.Issued (top leaf cs) path.anchor ∧
        ∀ e ∈ before, ∀ c d, e.Asks leaf c d → ¬ b.verifier.Unanswered c d := by
  obtain ⟨hl, cs, a, hf, rfl⟩ := b.found_of_build leaf p h
  obtain ⟨before, e, after, hevents, he, hnone⟩ := List.findSome?_eq_some_iff.1 hf
  obtain ⟨rfl, hi⟩ := b.attempt_eq_ok leaf he
  refine ⟨hl, before, cs, after, hevents, rfl, hi, fun e he c d ha ↦ ?_⟩
  exact answered_of_attempt (hnone e he) ha

theorem Chain.top_mem {cs : List Placed} (h : b.Chain leaf p.intermediates cs) :
    top leaf cs ∈ leaf :: p.intermediates := by
  have htop : top leaf cs ∈ leaf :: cs.map Prod.fst := List.getLastD_mem_cons
  refine List.cons_subset_cons leaf ?_ htop
  intro c hc
  obtain ⟨x, hx, rfl⟩ := List.mem_map.1 hc
  exact List.mem_of_getElem? (h.placed x hx)

theorem Candidate.mem {cs : List Placed} {d : Certificate} (h : b.Candidate leaf p cs d) :
    d ∈ p.anchors ++ p.intermediates := by
  cases h with
  | anchor ha => exact List.mem_append_left _ ha
  | intermediate hplaced _ _ _ => exact List.mem_append_right _ (List.mem_of_getElem? hplaced)

variable (b leaf p) in
/-- Building a path fails at a signature that cannot be checked only if it was consulted, and
depends on no other answers. It takes no such signature for a dead end, and passes none on its way
to a path. -/
theorem build_consulted :
    (∀ subject q, b.build leaf p = .error (.signature subject q) →
      ∃ c key, b.Consulted leaf p c key ∧ b.verifier.certificate c key = .error (.other q) ∧
        subject = c.subject.oneline) ∧
    (∀ v : Verifier,
      (∀ c key, b.Consulted leaf p c key →
        v.certificate c key = b.verifier.certificate c key) →
      build ⟨v, b.maxDepth⟩ leaf p = b.build leaf p) ∧
    (∀ subject issuer, b.build leaf p = .error (.noPath subject issuer) →
      ∀ c key, b.Consulted leaf p c key →
        ∀ q, b.verifier.certificate c key ≠ .error (.other q)) ∧
    (∀ q, b.verifier.certificate leaf leaf.publicKey = .error (.other q) →
      b.build leaf p = .error (.signature leaf.subject.oneline q)) ∧
    ∀ path, b.build leaf p = .ok path →
      b.verifier.certificate leaf leaf.publicKey = .error .mismatch ∧
      ∃ before cs after, b.events leaf p = before ++ .anchor cs path.anchor :: after ∧
        path = ⟨leaf, cs.map Prod.fst, path.anchor⟩ ∧
        b.verifier.Issued (top leaf cs) path.anchor ∧
        ∀ e ∈ before, ∀ c d, e.Asks leaf c d → ¬ b.verifier.Unanswered c d := by
  refine ⟨?_, ?_, ?_, ?_, ?_⟩
  · intro subject q h
    exact consulted_of_build h
  · intro v h
    exact build_of_agree h
  · intro subject issuer h c key hc q
    exact answered_of_noPath h hc q
  · intro q h
    exact b.build_of_other leaf p h
  · intro path h
    exact answered_of_build h

def sampleMaze : Partition where
  anchors := [.sample 'A' 'A' [], .sample 'Z' 'Z' []]
  intermediates := [.sample 'B' 'X' [], .sample 'X' 'A' [], .sample 'Z' 'A' []]

/-- The key of `X` is tried if there is room for it, and that of `Z` is not. That of `C` is tried
first. -/
theorem build_consulted_blind :
    (build ⟨.blindTo [88], 5⟩ (.sample 'C' 'B' []) sampleMaze =
        .error (.signature "CN = B" .unsupportedAlgorithm) ∧
      ∃ c key, Consulted ⟨.blindTo [88], 5⟩ (.sample 'C' 'B' []) sampleMaze c key ∧
        (Verifier.blindTo [88]).certificate c key = .error (.other .unsupportedAlgorithm) ∧
        "CN = B" = c.subject.oneline) ∧
    build ⟨.blindTo [88, 90], 5⟩ (.sample 'C' 'B' []) sampleMaze =
      build ⟨.blindTo [88], 5⟩ (.sample 'C' 'B' []) sampleMaze ∧
    (build ⟨.blindTo [88], 2⟩ (.sample 'C' 'B' []) sampleMaze =
        .error (.noPath "CN = C" "CN = B") ∧
      ∀ c key, Consulted ⟨.blindTo [88], 2⟩ (.sample 'C' 'B' []) sampleMaze c key →
        ∀ q, (Verifier.blindTo [88]).certificate c key ≠ .error (.other q)) ∧
    build ⟨.blindTo [67], 5⟩ (.sample 'C' 'B' []) sampleMaze =
      .error (.signature "CN = C" .unsupportedAlgorithm) ∧
    build ⟨.blindTo [90], 5⟩ (.sample 'C' 'B' []) sampleMaze =
      .ok ⟨.sample 'C' 'B' [], [.sample 'B' 'X' [], .sample 'X' 'A' []], .sample 'A' 'A' []⟩ ∧
    ∃ before cs after, events ⟨.blindTo [90], 5⟩ (.sample 'C' 'B' []) sampleMaze =
        before ++ .anchor cs (.sample 'A' 'A' []) :: after ∧
      cs.map Prod.fst = [.sample 'B' 'X' [], .sample 'X' 'A' []] ∧
      ∀ e ∈ before, ∀ c d, e.Asks (.sample 'C' 'B' []) c d →
        ¬ (Verifier.blindTo [90]).Unanswered c d := by
  have hb : build ⟨.blindTo [88], 5⟩ (.sample 'C' 'B' []) sampleMaze =
      .error (.signature "CN = B" .unsupportedAlgorithm) := by decide +kernel
  have hshort : build ⟨.blindTo [88], 2⟩ (.sample 'C' 'B' []) sampleMaze =
      .error (.noPath "CN = C" "CN = B") := by decide +kernel
  have hpath : build ⟨.blindTo [90], 5⟩ (.sample 'C' 'B' []) sampleMaze =
      .ok ⟨.sample 'C' 'B' [], [.sample 'B' 'X' [], .sample 'X' 'A' []], .sample 'A' 'A' []⟩ := by
    decide +kernel
  have hname : (Certificate.sample 'C' 'B' []).subject.oneline = "CN = C" := by decide +kernel
  obtain ⟨hconsulted, hagree, -⟩ :=
    build_consulted ⟨.blindTo [88], 5⟩ (.sample 'C' 'B' []) sampleMaze
  obtain ⟨-, -, hnone, -⟩ := build_consulted ⟨.blindTo [88], 2⟩ (.sample 'C' 'B' []) sampleMaze
  obtain ⟨-, -, -, hown, -⟩ := build_consulted ⟨.blindTo [67], 5⟩ (.sample 'C' 'B' []) sampleMaze
  have hleaf := hown .unsupportedAlgorithm (by decide +kernel)
  rw [hname] at hleaf
  obtain ⟨-, -, -, -, hfound⟩ := build_consulted ⟨.blindTo [90], 5⟩ (.sample 'C' 'B' []) sampleMaze
  obtain ⟨-, before, cs, after, hevents, hcs, -, hbefore⟩ := hfound _ hpath
  dsimp only at hevents
  refine ⟨⟨hb, hconsulted _ _ hb⟩, hagree (.blindTo [88, 90]) ?_, ⟨hshort, hnone _ _ hshort⟩,
    hleaf, hpath, before, cs, after, hevents,
    (congrArg CertificationPath.intermediates hcs).symm, hbefore⟩
  have hall : ∀ c ∈ .sample 'C' 'B' [] :: sampleMaze.intermediates,
      ∀ d ∈ sampleMaze.anchors ++ sampleMaze.intermediates, d.subject.raw = c.issuer.raw →
        (Verifier.blindTo [88, 90]).certificate c d.publicKey =
          (Verifier.blindTo [88]).certificate c d.publicKey := by decide +kernel
  intro c key h
  cases h with
  | own => decide +kernel
  | candidate hc hd hn => exact hall _ hc.top_mem _ hd.mem hn

end CertPath.PathBuilder
