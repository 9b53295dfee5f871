import CertPath.Proofs.Fetching
import CertPath.Proofs.SerialNumbers
import CertPath.Proofs.Settlement

namespace CertPath

namespace Bytes

variable {s t : Bytes}

theorem hexDigit_inj {m n : ℕ} (hm : m < 16) (hn : n < 16) (h : hexDigit 65 m = hexDigit 65 n) :
    m = n := by
  have hall : ∀ i < 16, ∀ j < 16, hexDigit 65 i = hexDigit 65 j → i = j := by decide
  exact hall m hm n hn h

theorem upperPair_inj {x y : UInt8} (h : upperPair x = upperPair y) : x = y := by
  have hx : x.toNat < 256 := x.toNat_lt
  have hy : y.toNat < 256 := y.toNat_lt
  simp only [upperPair, List.cons.injEq, and_true] at h
  have hhigh : x.toNat / 16 = y.toNat / 16 := hexDigit_inj (by omega) (by omega) h.1
  have hlow : x.toNat % 16 = y.toNat % 16 := hexDigit_inj (by omega) (by omega) h.2
  apply UInt8.toNat_inj.1
  omega

theorem colonChars_inj (h : s.colonChars = t.colonChars) : s = t := by
  fun_induction colonChars s generalizing t with
  | case1 =>
    match t with
    | [] => rfl
    | [y] => simp [colonChars, upperPair] at h
    | y :: z :: r => simp [colonChars, upperPair] at h
  | case2 x =>
    match t with
    | [] => simp [colonChars, upperPair] at h
    | [y] => rw [upperPair_inj h]
    | y :: z :: r => simp [colonChars, upperPair] at h
  | case3 x x' r ih =>
    match t with
    | [] => simp [colonChars, upperPair] at h
    | [y] => simp [colonChars, upperPair] at h
    | y :: y' :: u =>
      obtain ⟨hpair, hrest⟩ := List.append_inj h rfl
      rw [upperPair_inj hpair, ih (List.cons.inj hrest).2]

theorem colonHex_eq_iff : s.colonHex = t.colonHex ↔ s = t :=
  ⟨fun h ↦ colonChars_inj (String.ofList_injective h), congrArg colonHex⟩

theorem trimZeros_trimZeros (s : Bytes) : s.trimZeros.trimZeros = s.trimZeros := by
  fun_induction trimZeros s with
  | case1 => rfl
  | case2 x => rfl
  | case3 x r ih => exact ih
  | case4 x y r hx => rw [trimZeros, if_neg hx]

theorem trimZeros_ne_nil (hs : s ≠ []) : s.trimZeros ≠ [] := by
  fun_induction trimZeros s with
  | case1 => exact hs
  | case2 x => exact hs
  | case3 x r ih => exact ih (List.cons_ne_nil x r)
  | case4 x y r hx => exact hs

end Bytes

namespace Certificate

variable {c d : Certificate} {text : String}

/-- Every revocation list revokes the serial number of `c` exactly if one of its entries has a serial
number with this text. -/
def IdentifiedBy (c : Certificate) (text : String) : Prop :=
  ∀ l : RevocationList, l.revokes c.serial ↔ ∃ e ∈ l.entries, e.serial.trimZeros.colonHex = text

def soleList (c : Certificate) : RevocationList :=
  { (default : RevocationList) with entries := [⟨c.serial, "unspecified"⟩] }

theorem identifiedBy_serialHex (c : Certificate) : c.IdentifiedBy c.serialHex := by
  intro l
  rw [l.revokes_eq_isSome, l.isSome_reason?_iff]
  simp only [serialHex, Bytes.colonHex_eq_iff]

theorem IdentifiedBy.eq_serialHex (h : c.IdentifiedBy text) : text = c.serialHex := by
  have hsole : c.soleList.revokes c.serial := by
    rw [c.identifiedBy_serialHex]
    exact ⟨_, List.mem_cons_self, rfl⟩
  obtain ⟨e, he, htext⟩ := (h c.soleList).1 hsole
  rw [List.mem_singleton.1 he] at htext
  exact htext.symm

theorem serialHex_eq_iff :
    c.serialHex = d.serialHex ↔ ∀ l : RevocationList, l.revokes c.serial = l.revokes d.serial := by
  constructor
  · intro h l
    rw [Bool.eq_iff_iff, c.identifiedBy_serialHex, d.identifiedBy_serialHex, h]
  · intro h
    apply IdentifiedBy.eq_serialHex
    intro l
    rw [← h, c.identifiedBy_serialHex]

end Certificate

namespace RevocationChecker

variable {k : RevocationChecker} {c : Certificate} {issuer : Option Certificate}

theorem hit_of_check {p : DistributionPoint} {reason : String}
    (h : (k.check c issuer).outcome = .ok (.revoked p reason)) : k.Hit c issuer p reason := by
  rw [check] at h
  split at h
  · cases h
  · exact (scan_eq_revoked_iff.1 h).2

theorem exists_source_eq_of_check {subject serial url reason : String}
    (h : (k.check c issuer).outcome = .error (.revoked subject serial url reason)) :
    ∃ q, k.source q = .error (.revoked subject serial url reason) := by
  rw [check] at h
  split at h
  · rename_i e he
    obtain ⟨part, hpart⟩ := Certificate.distributionPoints_eq_error he
    cases hpart.symm.trans (Except.error.inj h)
  · obtain ⟨q, -, hq⟩ := scan_eq_error_iff.1 h
    cases hq with
    | source _ hf _ => exact ⟨q, hf⟩

theorem Hit.exists_entry {p : DistributionPoint} {reason : String} (h : k.Hit c issuer p reason) :
    ∃ l, k.source p = .ok l ∧
      ∃ e ∈ l.entries, e.serial.trimZeros.colonHex = c.serialHex ∧ e.reason = reason := by
  obtain ⟨l, hl, -, hlists⟩ := h.listed
  obtain ⟨before, e, after, hes, he, -, hreason⟩ :=
    l.reason?_eq_some_iff.1 (RevocationList.lists_eq_some_iff.1 hlists).2
  refine ⟨l, hl, e, ?_, Bytes.colonHex_eq_iff.2 he, hreason⟩
  rw [hes]
  exact List.mem_append_cons_self

end RevocationChecker

namespace TrustChainValidator

variable {t : TrustChainValidator} {leaf : Certificate} {pool : List Certificate}

theorem forall₂_identifiedBy_of_verify {v : VerifiedPath}
    (h : (t.verify leaf pool).outcome = .ok v) :
    List.Forall₂ (fun c e ↦ c.IdentifiedBy e.serial) v.path.certificates v.entries := by
  obtain ⟨p, -, rfl⟩ := verify_eq_ok h
  have hlen : (entries p (t.clear p)).length = p.certificates.length := by
    rw [length_entries (t.length_clear p), p.length_certificates]
  rw [List.forall₂_iff_get]
  refine ⟨hlen.symm, ?_⟩
  intro i hp he
  have hs : i < (t.clear p).length := by simpa [length_clear] using hp
  change p.certificates[i].IdentifiedBy (entries p (t.clear p))[i].serial
  rw [getElem_entries he hp hs]
  exact p.certificates[i].identifiedBy_serialHex

theorem exists_entry_of_verify {p : CertificationPath} (hp : t.findPath leaf pool = .ok p)
    {subject serial url reason : String}
    (h : (t.verify leaf pool).outcome = .error (.revoked subject serial url reason)) :
    (∃ q, t.source q = .error (.revoked subject serial url reason)) ∨
      ∃ c ∈ p.certificates, subject = c.subject.oneline ∧ c.IdentifiedBy serial ∧
        ∃ q l, q.url = url ∧ t.source q = .ok l ∧
          ∃ e ∈ l.entries, e.serial.trimZeros.colonHex = serial ∧ e.reason = reason := by
  by_cases ho : t.options.checkRevocation = true
  · obtain ⟨i, hi, hrefusal, -⟩ := (verify_eq_error_iff hp ho).1 h
    cases hr : t.result p i hi with
    | error e =>
      rw [hr] at hrefusal
      cases hrefusal
      exact .inl (RevocationChecker.exists_source_eq_of_check hr)
    | ok status =>
      rw [hr] at hrefusal
      cases status with
      | notRevoked => cases hrefusal
      | notChecked => cases hrefusal
      | revoked q reason =>
        cases hrefusal
        obtain ⟨l, hl, hentry⟩ := (RevocationChecker.hit_of_check hr).exists_entry
        exact .inr ⟨_, List.getElem_mem _, rfl, Certificate.identifiedBy_serialHex _, q, l, rfl, hl,
          hentry⟩
  · rw [verify_of_notRevoked hp fun ho' ↦ absurd ho' ho] at h
    cases h

/-- Serial numbers are the same in print if they are the same number, and then no revocation list
tells them apart. What a verification shows of a certificate is the text by which to find it there. -/
theorem serialHex_identifies :
    (∀ a b : Bytes, a ≠ [] → b ≠ [] →
      (a.trimZeros.colonHex = b.trimZeros.colonHex ↔ a.trimZeros = b.trimZeros) ∧
      (a.trimZeros = b.trimZeros ↔ a.toNat = b.toNat)) ∧
    (∀ a : Bytes, a.trimZeros.trimZeros = a.trimZeros ∧ (a ≠ [] → a.trimZeros ≠ []) ∧
      a.trimZeros.toNat = a.toNat) ∧
    (∀ c d : Certificate, c.serialHex = d.serialHex ↔
      ∀ l : RevocationList, l.revokes c.serial = l.revokes d.serial) ∧
    ∀ (t : TrustChainValidator) leaf pool p, t.findPath leaf pool = .ok p →
      (∀ v, (t.verify leaf pool).outcome = .ok v →
        List.Forall₂ (fun c e ↦ c.IdentifiedBy e.serial) p.certificates v.entries) ∧
      ∀ subject serial url reason,
        (t.verify leaf pool).outcome = .error (.revoked subject serial url reason) →
          (∃ q, t.source q = .error (.revoked subject serial url reason)) ∨
          ∃ c ∈ p.certificates, subject = c.subject.oneline ∧ c.IdentifiedBy serial ∧
            ∃ q l, q.url = url ∧ t.source q = .ok l ∧
              ∃ e ∈ l.entries, e.serial.trimZeros.colonHex = serial ∧ e.reason = reason := by
  refine ⟨?_, ?_, ?_, ?_⟩
  · intro a b ha hb
    exact ⟨Bytes.colonHex_eq_iff, Bytes.trimZeros_eq_iff ha hb⟩
  · intro a
    exact ⟨a.trimZeros_trimZeros, Bytes.trimZeros_ne_nil, a.toNat_trimZeros⟩
  · intro c d
    exact Certificate.serialHex_eq_iff
  · intro t leaf pool p hp
    refine ⟨fun v hv ↦ ?_, fun subject serial url reason h ↦ exists_entry_of_verify hp h⟩
    obtain ⟨q, hq, rfl⟩ := verify_eq_ok hv
    obtain rfl : p = q := Except.ok.inj (hp.symm.trans hq)
    exact forall₂_identifiedBy_of_verify hv

theorem serialHex_identifies_padded :
    Bytes.colonHex (Bytes.trimZeros [0, 0, 0xAB, 0]) =
      Bytes.colonHex (Bytes.trimZeros [0xAB, 0]) ∧
    Bytes.trimZeros [0, 0] ≠ [] ∧
    (∃ v, (sampleValidator.verify (.sample 'C' 'B' [])
        [.sample 'A' 'A' [], .sample 'B' 'A' []]).outcome = .ok v ∧
      List.Forall₂ (fun c e ↦ c.IdentifiedBy e.serial) (CertificationPath.certificates
        ⟨.sample 'C' 'B' [], [.sample 'B' 'A' []], .sample 'A' 'A' []⟩) v.entries) ∧
    ∃ c ∈ samplePath.certificates, c.IdentifiedBy "42" ∧
      ∃ l, RevocationChecker.sampleSource ⟨"http://b"⟩ = .ok l ∧
        ∃ e ∈ l.entries, e.serial.trimZeros.colonHex = "42" := by
  obtain ⟨hnumber, htrim, -, hshown⟩ := serialHex_identifies
  have hclear : sampleValidator.findPath (.sample 'C' 'B' [])
      [.sample 'A' 'A' [], .sample 'B' 'A' []] =
        .ok ⟨.sample 'C' 'B' [], [.sample 'B' 'A' []], .sample 'A' 'A' []⟩ := by decide +kernel
  have hverified := verify_of_notRevoked hclear fun _ ↦ by decide +kernel
  have hp : sampleValidator.findPath samplePath.leaf samplePath.certificates.tail =
      .ok samplePath := by decide +kernel
  have hrevoked : (sampleValidator.verify samplePath.leaf samplePath.certificates.tail).outcome =
      .error (.revoked "CN = B" "42" "http://b" "keyCompromise") := by decide +kernel
  refine ⟨?_, (htrim [0, 0]).2.1 (by decide), ⟨_, hverified, ?_⟩, ?_⟩
  · have hsame := hnumber [0, 0, 0xAB, 0] [0xAB, 0] (by decide) (by decide)
    exact hsame.1.2 (hsame.2.2 (by decide))
  · exact (hshown _ _ _ _ hclear).1 _ hverified
  · rcases (hshown _ _ _ _ hp).2 _ _ _ _ hrevoked with ⟨q, hq⟩ | hentry
    · change RevocationChecker.sampleSource q = _ at hq
      unfold RevocationChecker.sampleSource at hq
      split at hq <;> cases hq
    · obtain ⟨c, hc, -, hid, ⟨url⟩, l, rfl, hl, e, he, htext, -⟩ := hentry
      exact ⟨c, hc, hid, l, hl, e, he, htext⟩

end TrustChainValidator

end CertPath
