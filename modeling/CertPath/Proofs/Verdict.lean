import CertPath.Proofs.Decoding
import CertPath.Proofs.Issuance
import CertPath.RevocationChecker
import Mathlib.Tactic.Common

namespace CertPath.RevocationChecker

variable (k : RevocationChecker) (c : Certificate) (issuer : Option Certificate)

/-- A list is accepted if the issuer of the certificate issued and signed it, where that is asked
for and the issuer is known. -/
def Accepts (l : RevocationList) : Prop :=
  k.authenticates = true → ∀ i, issuer = some i →
    l.issuer.raw = i.subject.raw ∧ k.verifier.revocationList l i.publicKey = .ok ()

/-- A point at which the check of a certificate ends with an error. -/
inductive Fatal (p : DistributionPoint) : TrustError → Prop
  | scheme (h : Scheme.of? p.url = none) : Fatal p (.unsupportedScheme p.url)
  | source {e : TrustError} (supported : (Scheme.of? p.url).isSome)
      (fails : k.source p = .error e) (hard : e.recoverable = false) : Fatal p e

structure Hit (p : DistributionPoint) (reason : String) : Prop where
  supported : (Scheme.of? p.url).isSome
  listed : ∃ l, k.source p = .ok l ∧ k.Accepts issuer l ∧ l.lists c = some reason

def Silent (p : DistributionPoint) : Prop :=
  (∀ e, ¬ k.Fatal p e) ∧ ∀ reason, ¬ k.Hit c issuer p reason

variable {k c issuer} {k' : RevocationChecker} {p : DistributionPoint}

theorem authenticate_eq_ok_iff {l : RevocationList} {i : Certificate} :
    k.authenticate l i p = .ok () ↔
      l.issuer.raw = i.subject.raw ∧ k.verifier.revocationList l i.publicKey = .ok () := by
  rcases k.authenticate_cases p l i with ⟨ha, hl⟩ | ⟨e, ha, -, hl⟩
  · exact ⟨fun _ ↦ hl, fun _ ↦ ha⟩
  · rw [ha]
    exact ⟨nofun, fun h ↦ absurd h.2 (hl h.1)⟩

theorem recoverable_of_authenticate {l : RevocationList} {i : Certificate} {e : TrustError}
    (h : k.authenticate l i p = .error e) : e.recoverable = true := by
  rcases k.authenticate_cases p l i with ⟨ha, -⟩ | ⟨e', ha, hr, -⟩
  · cases ha.symm.trans h
  · obtain rfl : e' = e := Except.error.inj (ha.symm.trans h)
    exact hr

theorem lookup_of_error (hs : (Scheme.of? p.url).isSome) {e : TrustError}
    (h : k.source p = .error e) : k.lookup c issuer p = .error e := by
  obtain ⟨s, hs⟩ := Option.isSome_iff_exists.1 hs
  rw [lookup_of_scheme hs, h]
  rfl

theorem lookup_of_accepts (hs : (Scheme.of? p.url).isSome) {l : RevocationList}
    (hl : k.source p = .ok l) (h : k.Accepts issuer l) :
    k.lookup c issuer p = .ok (l.lists c) := by
  obtain ⟨s, hs⟩ := Option.isSome_iff_exists.1 hs
  rw [lookup_of_scheme hs, hl]
  cases ha : k.authenticates with
  | false => rfl
  | true =>
    cases issuer with
    | none => rfl
    | some i =>
      have hi := authenticate_eq_ok_iff (p := p).2 (h ha i rfl)
      rw [Except.bind, if_pos rfl, Option.elim_some, hi]
      rfl

theorem lookup_of_not_accepts (hs : (Scheme.of? p.url).isSome) {l : RevocationList}
    (hl : k.source p = .ok l) (h : ¬ k.Accepts issuer l) :
    ∃ e, k.lookup c issuer p = .error e ∧ e.recoverable = true := by
  obtain ⟨s, hs⟩ := Option.isSome_iff_exists.1 hs
  simp only [Accepts, not_forall] at h
  obtain ⟨ha, i, rfl, hi⟩ := h
  rw [← authenticate_eq_ok_iff (p := p)] at hi
  cases he : k.authenticate l i p with
  | ok u => exact absurd he hi
  | error e =>
    refine ⟨e, ?_, recoverable_of_authenticate he⟩
    rw [lookup_of_scheme hs, hl, Except.bind, if_pos ha, Option.elim_some, he]
    rfl

theorem verdict_of_fatal {e : TrustError} (h : k.Fatal p e) :
    k.verdict c issuer p = .fatal e := by
  cases h with
  | scheme h =>
    rw [verdict_of_error (lookup_of_unsupported h)]
    rfl
  | source hs hf hh => rw [verdict_of_error (lookup_of_error hs hf), hh, if_neg Bool.false_ne_true]

theorem verdict_of_hit {reason : String} (h : k.Hit c issuer p reason) :
    k.verdict c issuer p = .hit reason := by
  obtain ⟨l, hl, ha, hr⟩ := h.listed
  rw [verdict_of_ok (lookup_of_accepts h.supported hl ha), hr, Option.elim_some]

theorem verdict_of_silent (h : k.Silent c issuer p) : k.verdict c issuer p = .silent := by
  obtain ⟨hfatal, hhit⟩ := h
  cases hs : Scheme.of? p.url with
  | none => exact absurd (.scheme hs) (hfatal _)
  | some s =>
    have hs' : (Scheme.of? p.url).isSome := by simp [hs]
    cases hl : k.source p with
    | error e =>
      cases hr : e.recoverable with
      | false => exact absurd (.source hs' hl hr) (hfatal e)
      | true => exact verdict_of_recoverable (lookup_of_error hs' hl) hr
    | ok l =>
      by_cases ha : k.Accepts issuer l
      · cases hr : l.lists c with
        | none => rw [verdict_of_ok (lookup_of_accepts hs' hl ha), hr, Option.elim_none]
        | some reason => exact absurd ⟨hs', l, hl, ha, hr⟩ (hhit reason)
      · obtain ⟨e, he, hr⟩ := lookup_of_not_accepts (c := c) hs' hl ha
        exact verdict_of_recoverable he hr

variable (k c issuer p) in
theorem silent_or_hit_or_fatal :
    k.Silent c issuer p ∨ (∃ reason, k.Hit c issuer p reason) ∨ ∃ e, k.Fatal p e := by
  by_cases hf : ∃ e, k.Fatal p e
  · exact .inr (.inr hf)
  · by_cases hh : ∃ reason, k.Hit c issuer p reason
    · exact .inr (.inl hh)
    · exact .inl ⟨not_exists.1 hf, not_exists.1 hh⟩

theorem scan_of_silent {ps : List DistributionPoint} (h : k.Silent c issuer p) :
    k.scan c issuer (p :: ps) =
      ⟨(k.scan c issuer ps).outcome, asks p ++ (k.scan c issuer ps).points⟩ := by
  rw [scan, verdict_of_silent h]

theorem scan_append {ps : List DistributionPoint} (h : ∀ p ∈ ps, k.Silent c issuer p)
    (qs : List DistributionPoint) :
    k.scan c issuer (ps ++ qs) =
      ⟨(k.scan c issuer qs).outcome, ps.flatMap asks ++ (k.scan c issuer qs).points⟩ := by
  induction ps with
  | nil => rfl
  | cons p ps ih =>
    obtain ⟨hp, hps⟩ := List.forall_mem_cons.1 h
    rw [List.cons_append, scan_of_silent hp, ih hps, List.flatMap_cons, List.append_assoc]

theorem scan_of_fatal {ps : List DistributionPoint} {e : TrustError} (h : k.Fatal p e) :
    k.scan c issuer (p :: ps) = ⟨.error e, asks p⟩ := by
  rw [scan, verdict_of_fatal h]

theorem scan_of_hit {ps : List DistributionPoint} {reason : String}
    (h : k.Hit c issuer p reason) :
    k.scan c issuer (p :: ps) = ⟨.ok (.revoked p reason), asks p⟩ := by
  rw [scan, verdict_of_hit h]

variable (k c issuer) in
/-- Of the points `ps` all before `p` say nothing. -/
def Reaches (ps : List DistributionPoint) (p : DistributionPoint) : Prop :=
  ∃ before after, ps = before ++ p :: after ∧ ∀ q ∈ before, k.Silent c issuer q

theorem Reaches.tail {ps : List DistributionPoint} {q : DistributionPoint}
    (hq : k.Silent c issuer q) (h : k.Reaches c issuer ps p) :
    k.Reaches c issuer (q :: ps) p := by
  obtain ⟨before, after, rfl, hb⟩ := h
  exact ⟨q :: before, after, rfl, List.forall_mem_cons.2 ⟨hq, hb⟩⟩

variable (k c issuer) in
theorem forall_silent_or_reaches (ps : List DistributionPoint) :
    (∀ p ∈ ps, k.Silent c issuer p) ∨
      ∃ p, k.Reaches c issuer ps p ∧
        ((∃ reason, k.Hit c issuer p reason) ∨ ∃ e, k.Fatal p e) := by
  induction ps with
  | nil => exact .inl (by simp)
  | cons p ps ih =>
    rcases k.silent_or_hit_or_fatal c issuer p with hp | hp
    · rcases ih with hps | ⟨q, hq, hd⟩
      · exact .inl (List.forall_mem_cons.2 ⟨hp, hps⟩)
      · exact .inr ⟨q, hq.tail hp, hd⟩
    · exact .inr ⟨p, ⟨[], ps, rfl, by simp⟩, hp⟩

theorem scan_of_reaches_fatal {ps : List DistributionPoint} {e : TrustError}
    (h : k.Reaches c issuer ps p) (hp : k.Fatal p e) :
    (k.scan c issuer ps).outcome = .error e := by
  obtain ⟨before, after, rfl, hb⟩ := h
  rw [scan_append hb, scan_of_fatal hp]

theorem scan_of_reaches_hit {ps : List DistributionPoint} {reason : String}
    (h : k.Reaches c issuer ps p) (hp : k.Hit c issuer p reason) :
    (k.scan c issuer ps).outcome = .ok (.revoked p reason) := by
  obtain ⟨before, after, rfl, hb⟩ := h
  rw [scan_append hb, scan_of_hit hp]

theorem scan_of_forall_silent {ps : List DistributionPoint}
    (h : ∀ p ∈ ps, k.Silent c issuer p) :
    k.scan c issuer ps = ⟨.ok .notRevoked, ps.flatMap asks⟩ := by
  have ha := scan_append h []
  rwa [List.append_nil, scan, List.append_nil] at ha

variable (k c issuer) in
theorem scan_cases (ps : List DistributionPoint) :
    ((∀ p ∈ ps, k.Silent c issuer p) ∧ (k.scan c issuer ps).outcome = .ok .notRevoked) ∨
      (∃ p reason, k.Reaches c issuer ps p ∧ k.Hit c issuer p reason ∧
        (k.scan c issuer ps).outcome = .ok (.revoked p reason)) ∨
      ∃ p e, k.Reaches c issuer ps p ∧ k.Fatal p e ∧ (k.scan c issuer ps).outcome = .error e := by
  rcases k.forall_silent_or_reaches c issuer ps with hs | ⟨p, hp, ⟨reason, hr⟩ | ⟨e, he⟩⟩
  · exact .inl ⟨hs, by rw [scan_of_forall_silent hs]⟩
  · exact .inr (.inl ⟨p, reason, hp, hr, scan_of_reaches_hit hp hr⟩)
  · exact .inr (.inr ⟨p, e, hp, he, scan_of_reaches_fatal hp he⟩)

theorem scan_eq_error_iff {ps : List DistributionPoint} {e : TrustError} :
    (k.scan c issuer ps).outcome = .error e ↔ ∃ p, k.Reaches c issuer ps p ∧ k.Fatal p e := by
  refine ⟨fun h ↦ ?_, fun ⟨p, hp, he⟩ ↦ scan_of_reaches_fatal hp he⟩
  rcases k.scan_cases c issuer ps with ⟨-, ho⟩ | ⟨p, reason, -, -, ho⟩ | ⟨p, e', hp, he, ho⟩
  · simp [ho] at h
  · simp [ho] at h
  · obtain rfl : e' = e := Except.error.inj (ho.symm.trans h)
    exact ⟨p, hp, he⟩

theorem scan_eq_revoked_iff {ps : List DistributionPoint} {reason : String} :
    (k.scan c issuer ps).outcome = .ok (.revoked p reason) ↔
      k.Reaches c issuer ps p ∧ k.Hit c issuer p reason := by
  refine ⟨fun h ↦ ?_, fun ⟨hp, hr⟩ ↦ scan_of_reaches_hit hp hr⟩
  rcases k.scan_cases c issuer ps with ⟨-, ho⟩ | ⟨q, reason', hq, hr, ho⟩ | ⟨q, e, -, -, ho⟩
  · simp [ho] at h
  · obtain ⟨rfl, rfl⟩ : q = p ∧ reason' = reason := by simpa [ho] using h
    exact ⟨hq, hr⟩
  · simp [ho] at h

theorem scan_eq_notRevoked_iff {ps : List DistributionPoint} :
    (k.scan c issuer ps).outcome = .ok .notRevoked ↔ ∀ p ∈ ps, k.Silent c issuer p := by
  refine ⟨fun h ↦ ?_, fun h ↦ by rw [scan_of_forall_silent h]⟩
  rcases k.scan_cases c issuer ps with ⟨hs, -⟩ | ⟨p, reason, -, -, ho⟩ | ⟨p, e, -, -, ho⟩
  · exact hs
  · simp [ho] at h
  · simp [ho] at h

theorem scan_ne_notChecked (ps : List DistributionPoint) :
    (k.scan c issuer ps).outcome ≠ .ok .notChecked := by
  rcases k.scan_cases c issuer ps with ⟨-, ho⟩ | ⟨p, reason, -, -, ho⟩ | ⟨p, e, -, -, ho⟩ <;>
    simp [ho]

theorem Silent.asks (h : k.Silent c issuer p) : asks p = [p] := by
  cases hs : Scheme.of? p.url with
  | none => exact absurd (.scheme hs) (h.1 _)
  | some s => simp [RevocationChecker.asks, hs]

theorem flatMap_asks {ps : List DistributionPoint} (h : ∀ p ∈ ps, k.Silent c issuer p) :
    ps.flatMap asks = ps := by
  induction ps with
  | nil => rfl
  | cons p ps ih =>
    obtain ⟨hp, hps⟩ := List.forall_mem_cons.1 h
    rw [List.flatMap_cons, hp.asks, ih hps, List.singleton_append]

theorem check_of_distributionPoints {ps : List DistributionPoint}
    (h : c.distributionPoints = .ok ps) : k.check c issuer = k.scan c issuer ps := by
  rw [check, h]

theorem check_ne_notChecked : (k.check c issuer).outcome ≠ .ok .notChecked := by
  rw [check]
  split
  · simp
  · exact scan_ne_notChecked _

theorem verdict_congr {s : ListSource} (h : s p = k.source p) :
    verdict { k with source := s } c issuer p = k.verdict c issuer p := by
  simp only [verdict, lookup, h]
  rfl

theorem scan_congr {ps : List DistributionPoint}
    (h : ∀ p ∈ ps, k.verdict c issuer p = k'.verdict c issuer p) :
    k.scan c issuer ps = k'.scan c issuer ps := by
  induction ps with
  | nil => rfl
  | cons p ps ih =>
    obtain ⟨hp, hps⟩ := List.forall_mem_cons.1 h
    simp only [scan, hp, ih hps]

theorem check_congr
    (h : ∀ ps, c.distributionPoints = .ok ps →
      ∀ p ∈ ps, k.verdict c issuer p = k'.verdict c issuer p) :
    k.check c issuer = k'.check c issuer := by
  rw [check, check]
  split
  · rfl
  · rename_i ps hps
    exact scan_congr (h ps hps)

/-- A certificate with distribution points is found to be what the first of them says that says
anything, and not revoked if none does. Then each of them was asked. -/
theorem check_outcome_iff {ps : List DistributionPoint} (h : c.distributionPoints = .ok ps) :
    (∀ e, (k.check c issuer).outcome = .error e ↔
      ∃ p, k.Reaches c issuer ps p ∧ k.Fatal p e) ∧
    (∀ p reason, (k.check c issuer).outcome = .ok (.revoked p reason) ↔
      k.Reaches c issuer ps p ∧ k.Hit c issuer p reason) ∧
    ((k.check c issuer).outcome = .ok .notRevoked ↔ ∀ p ∈ ps, k.Silent c issuer p) ∧
    ((k.check c issuer).outcome = .ok .notRevoked → (k.check c issuer).points = ps) := by
  rw [check_of_distributionPoints h]
  refine ⟨fun e ↦ scan_eq_error_iff, fun p reason ↦ scan_eq_revoked_iff, scan_eq_notRevoked_iff,
    fun hn ↦ ?_⟩
  have hs := scan_eq_notRevoked_iff.1 hn
  rw [scan_of_forall_silent hs, flatMap_asks hs]

def sampleSource : ListSource := fun p ↦
  if p.url = "http://a" then .error (.timeout p.url 10)
  else .ok { (default : RevocationList) with
    issuer := (Certificate.sample 'A' 'A' []).subject
    entries := [⟨[66], "keyCompromise"⟩] }

theorem check_outcome_second :
    (check ⟨sampleSource, .sample, true, 4⟩ (.sample 'B' 'A' ["http://a", "http://b"])
      (some (.sample 'A' 'A' []))).outcome = .ok (.revoked ⟨"http://b"⟩ "keyCompromise") := by
  have hps : (Certificate.sample 'B' 'A' ["http://a", "http://b"]).distributionPoints =
      .ok [⟨"http://a"⟩, ⟨"http://b"⟩] := by decide +kernel
  refine ((check_outcome_iff hps).2.1 _ _).2 ⟨⟨[⟨"http://a"⟩], [], rfl, ?_⟩, ?_⟩
  · refine List.forall_mem_singleton.2 ⟨fun e he ↦ ?_, fun reason hr ↦ ?_⟩
    · cases he with
      | scheme h => exact absurd h (by decide +kernel)
      | source _ hf hh =>
        cases hf
        cases hh
    · obtain ⟨l, hl, -⟩ := hr.listed
      cases hl
  · refine ⟨by decide +kernel, _, rfl, fun _ i hi ↦ ?_, by decide +kernel⟩
    rw [← Option.some.inj hi]
    exact ⟨by decide +kernel, by decide +kernel⟩

end CertPath.RevocationChecker
