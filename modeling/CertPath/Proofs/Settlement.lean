import CertPath.Proofs.Verdict
import CertPath.TrustChainValidator

namespace CertPath

theorem findSome?_eq_some_iff_getElem {α β : Type} {f : α → Option β} {l : List α} {b : β} :
    l.findSome? f = some b ↔
      ∃ i, ∃ h : i < l.length, f l[i] = some b ∧ ∀ j (hj : j < i), f l[j] = none := by
  rw [List.findSome?_eq_some_iff]
  constructor
  · rintro ⟨l₁, a, l₂, rfl, ha, hl⟩
    refine ⟨l₁.length, by simp, by simpa using ha, fun j hj ↦ hl _ ?_⟩
    rw [List.getElem_append_left hj]
    exact List.getElem_mem hj
  · rintro ⟨i, h, hb, hl⟩
    refine ⟨l.take i, l[i], l.drop (i + 1), by simp, hb, fun a ha ↦ ?_⟩
    obtain ⟨j, hj, rfl⟩ := List.getElem_of_mem ha
    rw [List.length_take] at hj
    rw [List.getElem_take]
    exact hl j (by omega)

namespace CertificationPath

variable (p : CertificationPath)

@[simp] theorem length_certificates : p.certificates.length = p.length := by
  simp [certificates, length]

@[simp] theorem length_links : p.links.length = p.length - 1 := by
  simp [links]

theorem getElem_links {i : Nat} (h : i + 1 < p.certificates.length) (hi : i < p.links.length) :
    p.links[i] = (p.certificates[i], p.certificates[i + 1]) := by
  simp [links]

theorem map_fst_links : p.links.map Prod.fst = p.leaf :: p.intermediates := by
  have hl : p.links.length = (p.leaf :: p.intermediates).length := p.length_links
  refine List.ext_getElem (by rw [List.length_map, hl]) fun i hi hj ↦ ?_
  rw [List.getElem_map, p.getElem_links (by simp [certificates] at hj ⊢; omega)]
  exact List.getElem_append_left hj

theorem mem_of_mem_links {l : Certificate × Certificate} (h : l ∈ p.links) :
    l.1 ∈ p.leaf :: p.intermediates :=
  p.map_fst_links ▸ List.mem_map_of_mem h

end CertificationPath

namespace TrustChainValidator

variable (t : TrustChainValidator) (leaf : Certificate) (pool : List Certificate)
  (p : CertificationPath)

/-- What the verification of a path ends with if the check of `c` does not go well. -/
def refusal (c : Certificate) : Except TrustError RevocationStatus → Option TrustError
  | .error e => some e
  | .ok (.revoked q reason) => some (.revoked c.subject.oneline c.serialHex q.url reason)
  | .ok _ => none

def result (i : Nat) (_h : i + 1 < p.certificates.length) : Except TrustError RevocationStatus :=
  (t.revocationChecker.check p.certificates[i] (some p.certificates[i + 1])).outcome

section Settle

variable {c : Certificate} {r : Except TrustError RevocationStatus} {e : TrustError}
  {rs : List (Certificate × Except TrustError RevocationStatus)}

theorem refusal_eq_none_iff : refusal c r = none ↔ r = .ok .notRevoked ∨ r = .ok .notChecked := by
  cases r with
  | error e => simp [refusal]
  | ok s => cases s <;> simp [refusal]

theorem settle_cons_of_refusal (h : refusal c r = some e) : settle ((c, r) :: rs) = .error e := by
  cases r with
  | error e' => exact congrArg Except.error (Option.some.inj h)
  | ok s =>
    cases s with
    | notRevoked => simp [refusal] at h
    | revoked q reason => exact congrArg Except.error (Option.some.inj h)
    | notChecked => simp [refusal] at h

theorem settle_cons_of_ok {s : RevocationStatus} (h : s.isRevoked = false) :
    settle ((c, .ok s) :: rs) = (settle rs).map (s :: ·) := by
  cases s with
  | revoked q reason => simp [RevocationStatus.isRevoked] at h
  | notRevoked => cases hs : settle rs <;> simp [settle, hs] <;> rfl
  | notChecked => cases hs : settle rs <;> simp [settle, hs] <;> rfl

theorem settle_of_refusal (h : rs.findSome? (fun r ↦ refusal r.1 r.2) = some e) :
    settle rs = .error e := by
  induction rs with
  | nil => simp at h
  | cons r rs ih =>
    obtain ⟨c, r⟩ := r
    rw [List.findSome?_cons] at h
    cases hr : refusal c r with
    | some e' =>
      simp only [hr, Option.some.injEq] at h
      exact settle_cons_of_refusal (h ▸ hr)
    | none =>
      simp only [hr] at h
      rcases refusal_eq_none_iff.1 hr with rfl | rfl <;> rw [settle_cons_of_ok rfl, ih h] <;> rfl

theorem notRevoked_of_settle_cons {x : List RevocationStatus} (h : settle ((c, r) :: rs) = .ok x)
    (hr : r ≠ .ok .notChecked) : r = .ok .notRevoked ∧ ∃ y, settle rs = .ok y := by
  cases hf : refusal c r with
  | some e =>
    rw [settle_cons_of_refusal hf] at h
    cases h
  | none =>
    rcases refusal_eq_none_iff.1 hf with rfl | hn
    · rw [settle_cons_of_ok rfl] at h
      cases hs : settle rs with
      | error e =>
        rw [hs] at h
        cases h
      | ok y => exact ⟨rfl, y, rfl⟩
    · exact absurd hn hr

theorem settle_of_notRevoked (h : ∀ r ∈ rs, r.2 = .ok .notRevoked) :
    settle rs = .ok (List.replicate rs.length .notRevoked) := by
  induction rs with
  | nil => rfl
  | cons r rs ih =>
    obtain ⟨c, r⟩ := r
    obtain ⟨rfl, hrs⟩ := List.forall_mem_cons.1 h
    rw [settle_cons_of_ok rfl, ih hrs]
    rfl

end Settle

def checks : List (Certificate × Except TrustError RevocationStatus) :=
  p.links.map fun l ↦ (l.1, (t.revocationChecker.check l.1 (some l.2)).outcome)

theorem length_checks : (t.checks p).length = p.length - 1 := by
  simp [checks]

theorem getElem_checks {i : Nat} (h : i + 1 < p.certificates.length)
    (hi : i < (t.checks p).length) :
    (t.checks p)[i] = (p.certificates[i], t.result p i h) := by
  simp only [checks, List.getElem_map]
  rw [p.getElem_links h]
  rfl

theorem checkPath_outcome :
    (t.checkPath p).outcome = (settle (t.checks p)).map (· ++ [.notChecked]) := by
  have hc : (p.links.map fun l ↦ (l.1, t.revocationChecker.check l.1 (some l.2))).map
      (fun k ↦ (k.1, k.2.outcome)) = t.checks p := List.map_map
  rw [checkPath, hc]
  cases settle (t.checks p) <;> rfl

theorem forall_mem_checks_iff :
    (∀ r ∈ t.checks p, r.2 = .ok .notRevoked) ↔
      ∀ i (h : i + 1 < p.certificates.length), t.result p i h = .ok .notRevoked := by
  have hl := t.length_checks p
  have hp := p.length_certificates
  rw [List.forall_mem_iff_forall_getElem]
  constructor
  · intro h i hi
    have hr := h i (by omega)
    rwa [t.getElem_checks p hi] at hr
  · intro h i hi
    rw [t.getElem_checks p (by omega)]
    exact h i (by omega)

/-- The check of the certificate at place `i` is the first in path order that does not go well. -/
def FirstRefusal (i : Nat) (e : TrustError) : Prop :=
  ∃ h : i + 1 < p.certificates.length, refusal p.certificates[i] (t.result p i h) = some e ∧
    ∀ j (hj : j < i), refusal p.certificates[j] (t.result p j (by omega)) = none

theorem findSome?_checks_iff {e : TrustError} :
    (t.checks p).findSome? (fun r ↦ refusal r.1 r.2) = some e ↔ ∃ i, t.FirstRefusal p i e := by
  have hl := t.length_checks p
  have hp := p.length_certificates
  rw [findSome?_eq_some_iff_getElem]
  constructor
  · rintro ⟨i, hi, he, hj⟩
    refine ⟨i, by omega, ?_, fun j hji ↦ ?_⟩
    · rwa [t.getElem_checks p (by omega)] at he
    · have hn := hj j hji
      rwa [t.getElem_checks p (by omega)] at hn
  · rintro ⟨i, hi, he, hj⟩
    refine ⟨i, by omega, ?_, fun j hji ↦ ?_⟩
    · rwa [t.getElem_checks p hi]
    · rw [t.getElem_checks p (by omega)]
      exact hj j hji

theorem checks_cases :
    (∀ r ∈ t.checks p, r.2 = .ok .notRevoked) ∨
      ∃ e, (t.checks p).findSome? (fun r ↦ refusal r.1 r.2) = some e := by
  cases hf : (t.checks p).findSome? (fun r ↦ refusal r.1 r.2) with
  | some e => exact .inr ⟨e, rfl⟩
  | none =>
    refine .inl fun r hr ↦ ?_
    rcases refusal_eq_none_iff.1 (List.findSome?_eq_none_iff.1 hf r hr) with h | h
    · exact h
    · obtain ⟨l, -, rfl⟩ := List.mem_map.1 hr
      exact absurd h RevocationChecker.check_ne_notChecked

def clear : List RevocationStatus :=
  if t.options.checkRevocation then List.replicate (p.length - 1) .notRevoked ++ [.notChecked]
  else List.replicate p.length .notChecked

theorem length_clear : (t.clear p).length = p.length := by
  rw [clear]
  split
  · simp [CertificationPath.length]
  · simp

theorem mem_clear {r : RevocationStatus} (h : r ∈ t.clear p) :
    r = .notRevoked ∨ r = .notChecked := by
  rw [clear] at h
  split at h
  · rcases List.mem_append.1 h with h | h
    · exact .inl (List.eq_of_mem_replicate h)
    · exact .inr (List.mem_singleton.1 h)
  · exact .inr (List.eq_of_mem_replicate h)

theorem statuses_of_notRevoked
    (h : t.options.checkRevocation = true → ∀ r ∈ t.checks p, r.2 = .ok .notRevoked) :
    (t.statuses p).outcome = .ok (t.clear p) := by
  rw [statuses, clear]
  split
  · rename_i ho
    rw [checkPath_outcome, settle_of_notRevoked (h ho), length_checks]
    rfl
  · rfl

theorem statuses_of_refusal (ho : t.options.checkRevocation = true) {e : TrustError}
    (h : (t.checks p).findSome? (fun r ↦ refusal r.1 r.2) = some e) :
    (t.statuses p).outcome = .error e := by
  rw [statuses, if_pos ho, checkPath_outcome, settle_of_refusal h]
  rfl

theorem statuses_eq_ok {s : List RevocationStatus} (h : (t.statuses p).outcome = .ok s) :
    s = t.clear p := by
  by_cases ho : t.options.checkRevocation = true
  · rcases t.checks_cases p with hr | ⟨e, he⟩
    · rw [t.statuses_of_notRevoked p fun _ ↦ hr] at h
      exact (Except.ok.inj h).symm
    · rw [t.statuses_of_refusal p ho he] at h
      cases h
  · rw [t.statuses_of_notRevoked p fun ho' ↦ absurd ho' ho] at h
    exact (Except.ok.inj h).symm

variable {p}

@[simp] theorem length_entries {s : List RevocationStatus} (h : s.length = p.length) :
    (entries p s).length = p.length := by
  simp [entries, h]

theorem getElem_entries {s : List RevocationStatus} {i : Nat} (h : i < (entries p s).length)
    (hp : i < p.certificates.length) (hs : i < s.length) :
    (entries p s)[i] = .of i p.certificates[i] s[i] := by
  simp [entries]

theorem map_revocation_entries {s : List RevocationStatus} (h : s.length = p.length) :
    (entries p s).map (·.revocation) = s := by
  refine List.ext_getElem (by simp [length_entries h, h]) fun i hi hs ↦ ?_
  rw [List.getElem_map, getElem_entries _ (by simpa [h] using hs) hs]
  rfl

variable {t leaf pool}

theorem verify_of_notRevoked (hp : t.findPath leaf pool = .ok p)
    (h : t.options.checkRevocation = true → ∀ r ∈ t.checks p, r.2 = .ok .notRevoked) :
    (t.verify leaf pool).outcome = .ok ⟨p, entries p (t.clear p)⟩ := by
  simp only [verify, hp, t.statuses_of_notRevoked p h]
  rfl

theorem verify_of_refusal (hp : t.findPath leaf pool = .ok p)
    (ho : t.options.checkRevocation = true) {e : TrustError}
    (h : (t.checks p).findSome? (fun r ↦ refusal r.1 r.2) = some e) :
    (t.verify leaf pool).outcome = .error e := by
  simp only [verify, hp, t.statuses_of_refusal p ho h]
  rfl

theorem verify_eq_ok {v : VerifiedPath} (h : (t.verify leaf pool).outcome = .ok v) :
    ∃ p, t.findPath leaf pool = .ok p ∧ v = ⟨p, entries p (t.clear p)⟩ := by
  rw [verify] at h
  split at h
  · cases h
  · rename_i p hp
    refine ⟨p, hp, ?_⟩
    cases hs : (t.statuses p).outcome with
    | error e => simp [hs, Except.map] at h
    | ok s =>
      simp only [hs, Except.map, Except.ok.injEq] at h
      rw [← h, t.statuses_eq_ok p hs]

theorem exists_verify_eq_ok_iff (hp : t.findPath leaf pool = .ok p)
    (ho : t.options.checkRevocation = true) :
    (∃ v, (t.verify leaf pool).outcome = .ok v) ↔
      ∀ i (h : i + 1 < p.certificates.length), t.result p i h = .ok .notRevoked := by
  rw [← forall_mem_checks_iff]
  refine ⟨fun ⟨v, hv⟩ ↦ ?_, fun h ↦ ⟨_, verify_of_notRevoked hp fun _ ↦ h⟩⟩
  rcases t.checks_cases p with h | ⟨e, he⟩
  · exact h
  · rw [verify_of_refusal hp ho he] at hv
    cases hv

theorem verify_eq_error_iff (hp : t.findPath leaf pool = .ok p)
    (ho : t.options.checkRevocation = true) {e : TrustError} :
    (t.verify leaf pool).outcome = .error e ↔ ∃ i, t.FirstRefusal p i e := by
  rw [← findSome?_checks_iff]
  refine ⟨fun he ↦ ?_, verify_of_refusal hp ho⟩
  rcases t.checks_cases p with h | ⟨e', he'⟩
  · rw [verify_of_notRevoked hp fun _ ↦ h] at he
    cases he
  · rw [verify_of_refusal hp ho he', Except.error.injEq] at he
    exact he ▸ he'

theorem verify_eq_of_check_eq (hp : t.findPath leaf pool = .ok p) {s s' : ListSource}
    (h : ∀ l ∈ p.links, RevocationChecker.check { t.revocationChecker with source := s } l.1 l.2 =
      RevocationChecker.check { t.revocationChecker with source := s' } l.1 l.2) :
    verify { t with source := s } leaf pool = verify { t with source := s' } leaf pool := by
  have hs : findPath { t with source := s } leaf pool = .ok p := hp
  have hs' : findPath { t with source := s' } leaf pool = .ok p := hp
  have hlink : ∀ l ∈ p.links,
      (l.1, revocationChecker { t with source := s } |>.check l.1 (some l.2)) =
        (l.1, revocationChecker { t with source := s' } |>.check l.1 (some l.2)) := by
    intro l hl
    exact congrArg (l.1, ·) (h l hl)
  have hcheck : checkPath { t with source := s } p = checkPath { t with source := s' } p := by
    simp only [checkPath, List.map_congr_left hlink]
  simp only [verify, hs, hs', statuses, hcheck]

theorem verify_congr (hp : t.findPath leaf pool = .ok p) {s : ListSource}
    (h : ∀ c ∈ p.leaf :: p.intermediates, ∀ ps, c.distributionPoints = .ok ps →
      ∀ q ∈ ps, s q = t.source q) :
    (verify { t with source := s } leaf pool).outcome = (t.verify leaf pool).outcome := by
  have hcheck : ∀ l ∈ p.links,
      RevocationChecker.check { t.revocationChecker with source := s } l.1 l.2 =
        t.revocationChecker.check l.1 l.2 := by
    intro l hl
    refine RevocationChecker.check_congr fun ps hps q hq ↦ ?_
    exact RevocationChecker.verdict_congr (h l.1 (p.mem_of_mem_links hl) ps hps q hq)
  exact congrArg Asked.outcome (verify_eq_of_check_eq hp hcheck)

/-- Where a path is found, the first check that does not go well decides, and the anchor is not
checked. -/
theorem verify_outcome_of_findPath (hp : t.findPath leaf pool = .ok p) :
    (t.options.checkRevocation = true →
      ((∃ v, (t.verify leaf pool).outcome = .ok v) ↔
        ∀ i (h : i + 1 < p.certificates.length), t.result p i h = .ok .notRevoked) ∧
      (∀ v, (t.verify leaf pool).outcome = .ok v →
        v.entries.map (·.revocation) = List.replicate (p.length - 1) .notRevoked ++ [.notChecked]) ∧
      ∀ e, (t.verify leaf pool).outcome = .error e ↔ ∃ i, t.FirstRefusal p i e) ∧
    (∀ s : ListSource, (∀ c ∈ p.leaf :: p.intermediates, ∀ ps, c.distributionPoints = .ok ps →
        ∀ q ∈ ps, s q = t.source q) →
      (verify { t with source := s } leaf pool).outcome = (t.verify leaf pool).outcome) ∧
    (t.options.checkRevocation = false →
      ∃ v, (t.verify leaf pool).outcome = .ok v ∧ ∀ x ∈ v.entries, x.revocation = .notChecked) ∧
    ∀ v, (t.verify leaf pool).outcome = .ok v →
      v.path = p ∧ v.entries.length = p.length ∧
        ∀ x ∈ v.entries, x.revocation.isRevoked = false := by
  have hv : ∀ v, (t.verify leaf pool).outcome = .ok v → v = ⟨p, entries p (t.clear p)⟩ := by
    intro v h
    obtain ⟨q, hq, rfl⟩ := verify_eq_ok h
    rw [hp, Except.ok.injEq] at hq
    rw [hq]
  have hr : (entries p (t.clear p)).map (·.revocation) = t.clear p :=
    map_revocation_entries (t.length_clear p)
  refine ⟨fun ho ↦ ⟨exists_verify_eq_ok_iff hp ho, fun v h ↦ ?_, fun e ↦ verify_eq_error_iff hp ho⟩,
    fun s ↦ verify_congr hp, fun ho ↦ ?_, fun v h ↦ ?_⟩
  · rw [hv v h, hr, clear, if_pos ho]
  · refine ⟨_, verify_of_notRevoked hp fun ho' ↦ by simp [ho] at ho', fun x hx ↦ ?_⟩
    have hm := hr ▸ List.mem_map_of_mem hx
    rw [clear, if_neg (by simp [ho])] at hm
    exact List.eq_of_mem_replicate hm
  · obtain rfl := hv v h
    refine ⟨rfl, length_entries (t.length_clear p), fun x hx ↦ ?_⟩
    have hm := hr ▸ List.mem_map_of_mem hx
    rcases t.mem_clear p hm with hm | hm <;> rw [hm] <;> rfl

def sampleValidator : TrustChainValidator :=
  ⟨.standard, .sample, RevocationChecker.sampleSource⟩

def samplePath : CertificationPath :=
  ⟨.sample 'C' 'B' ["http://a"], [.sample 'B' 'A' ["http://b"]], .sample 'A' 'A' []⟩

theorem verify_outcome_revoked :
    (sampleValidator.verify samplePath.leaf samplePath.certificates.tail).outcome =
      .error (.revoked "CN = B" "42" "http://b" "keyCompromise") := by
  have hp : sampleValidator.findPath samplePath.leaf samplePath.certificates.tail =
      .ok samplePath := by decide +kernel
  have hleaf : sampleValidator.result samplePath 0 (by decide) = .ok .notRevoked := by
    decide +kernel
  refine (((verify_outcome_of_findPath hp).1 rfl).2.2 _).2
    ⟨1, by decide, by decide +kernel, fun j hj ↦ ?_⟩
  obtain rfl : j = 0 := by omega
  exact refusal_eq_none_iff.2 (.inl hleaf)

end TrustChainValidator

end CertPath
