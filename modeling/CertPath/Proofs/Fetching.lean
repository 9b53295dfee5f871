import CertPath.Net.Fetcher
import CertPath.Proofs.Verdict

namespace CertPath

theorem Pem.contents_eq_error {labels : List String} {missing : PemProblem} {input : Bytes}
    {e : TrustError} (h : Pem.contents labels missing input = .error e) : ∃ q, e = .pem q := by
  unfold Pem.contents at h
  split at h
  · exact ⟨.unreadable, (Except.error.inj h).symm⟩
  · exact ⟨missing, (Except.error.inj h).symm⟩
  · cases h

namespace RevocationList

variable {input : Bytes} {e : TrustError}

theorem ofDer_eq_error (h : ofDer input = .error e) : ∃ q, e = .der q := by
  unfold ofDer at h
  split at h
  · exact ⟨.revocationList, (Except.error.inj h).symm⟩
  · cases h

theorem parse_eq_error (h : parse input = .error e) : (∃ q, e = .pem q) ∨ ∃ q, e = .der q := by
  unfold parse at h
  split at h
  · cases ha : armoured input with
    | error e' =>
      rw [ha] at h
      have he : e' = e := Except.error.inj h
      obtain ⟨q, rfl⟩ := Pem.contents_eq_error ha
      exact .inl ⟨q, he.symm⟩
    | ok bs =>
      rw [ha] at h
      cases bs with
      | nil => exact .inl ⟨.noRevocationList, (Except.error.inj h).symm⟩
      | cons b bs =>
        have hb : ofDer b = .error e := h
        exact .inr (ofDer_eq_error hb)
  · exact .inr (ofDer_eq_error h)

theorem parseFrom_eq_error {url : String} (h : parseFrom url input = .error e) :
    ∃ q, e = .revocationList url q := by
  unfold parseFrom at h
  split at h
  · cases h
  · exact ⟨_, (Except.error.inj h).symm⟩
  · exact ⟨_, (Except.error.inj h).symm⟩
  · rename_i e' hpem hder hp
    rcases parse_eq_error hp with ⟨q, rfl⟩ | ⟨q, rfl⟩
    · exact absurd rfl (hpem q)
    · exact absurd rfl (hder q)

end RevocationList

theorem Certificate.distributionPoints_eq_error {c : Certificate} {e : TrustError}
    (h : c.distributionPoints = .error e) : ∃ part, e = .parse c.subject.oneline part := by
  unfold distributionPoints at h
  split at h
  · cases h
  · split at h
    · exact ⟨_, (Except.error.inj h).symm⟩
    · split at h
      · exact ⟨_, (Except.error.inj h).symm⟩
      · cases h
      · split at h
        · exact ⟨_, (Except.error.inj h).symm⟩
        · cases h

namespace Net.Fetcher

variable {f : Fetcher} {url : String} {e : TrustError}

variable (f url) in
/-- The errors of a download, whatever the server does. -/
inductive Failure : TrustError → Prop
  | fetch (q : FetchProblem) : Failure (.fetch url q)
  | timeout : Failure (.timeout url f.timeout.toNat)

theorem Failure.recoverable (h : f.Failure url e) : e.recoverable = true := by
  cases h <;> rfl

variable {p : DistributionPoint}

end Net.Fetcher

end CertPath
