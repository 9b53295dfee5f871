import CertPath.Proofs.Forgery

namespace CertPath

namespace RevocationList

theorem rereads_ofDer : Der.Rereads decodeSigned ofDer der := by
  refine (Signed.decode_selfDelimiting RevocationBody.decode).rereads (fun hs ↦ ?_) ?_
  · simp [ofDer, decodeSigned, hs]
  · rintro u r ⟨g, body⟩ l hs h
    simp only [ofDer, decodeSigned, hs, Bytes.before_append, Except.ok.injEq] at h
    subst h
    exact ⟨rfl, fun t ht ↦ by simp [ofDer, decodeSigned, ht]⟩

end RevocationList

namespace Certificate

theorem distributionPoints_of_decodeSigned {c : Certificate} {x : Signed × CertificateBody}
    {r : Bytes} (hx : decodeSigned c.der = some (x, r)) {e : TrustError}
    (he : c.distributionPoints = .error e) : e = .parse c.subject.oneline .distributionPoints := by
  obtain ⟨g, body⟩ := x
  simp only [distributionPoints, hx] at he
  split at he
  · cases he
  · split at he
    · exact (Except.error.inj he).symm
    · cases he
    · split at he
      · exact (Except.error.inj he).symm
      · cases he

end Certificate

/-- A problem elsewhere than with the octets whose signature was to be checked. -/
def SignatureProblem.Elsewhere (q : SignatureProblem) : Prop :=
  (q = .publicKey ∨ q = .unsupportedAlgorithm) ∧
    ¬ "certificate".toList <+: q.text.toList ∧ ¬ "CRL".toList <+: q.text.toList

theorem Signature.elsewhere_of_verify {s : Signed} {key : Bytes} {q : SignatureProblem}
    (h : verify s key = .error (.other q)) : q.Elsewhere := by
  unfold verify at h
  split at h
  · cases h
    exact ⟨.inl rfl, by decide⟩
  · split at h
    · split at h
      · cases h
        exact ⟨.inr rfl, by decide⟩
      · split at h <;> cases h
    · cases h

namespace Verifier

variable {key r : Bytes} {q : SignatureProblem}

theorem elsewhere_of_certificate {c : Certificate} {x : Signed × CertificateBody}
    (hx : Certificate.decodeSigned c.der = some (x, r))
    (h : Verifier.standard.certificate c key = .error (.other q)) : q.Elsewhere := by
  obtain ⟨g, body⟩ := x
  simp only [standard, hx] at h
  exact Signature.elsewhere_of_verify h

theorem elsewhere_of_revocationList {l : RevocationList} {x : Signed × RevocationBody}
    (hx : RevocationList.decodeSigned l.der = some (x, r))
    (h : Verifier.standard.revocationList l key = .error (.other q)) : q.Elsewhere := by
  obtain ⟨g, body⟩ := x
  simp only [standard, hx] at h
  exact Signature.elsewhere_of_verify h

end Verifier

/-- Certificates and revocation lists are as good as the octets kept of them: nothing else plays a
part in what is read, and who reads them again later does not fail at it. -/
theorem ofDer_stable :
    (∀ x c, Certificate.ofDer x = .ok c →
      c.der <+: x ∧ (∀ s, Certificate.ofDer (c.der ++ s) = .ok c) ∧
      (∀ y d, Certificate.ofDer y = .ok d → d.der = c.der → d = c) ∧
      (∃ z, Certificate.decodeSigned c.der = some (z, [])) ∧
      (∀ e, c.distributionPoints = .error e → e = .parse c.subject.oneline .distributionPoints) ∧
      ∀ key q, Verifier.standard.certificate c key = .error (.other q) → q.Elsewhere) ∧
    ∀ x l, RevocationList.ofDer x = .ok l →
      l.der <+: x ∧ (∀ s, RevocationList.ofDer (l.der ++ s) = .ok l) ∧
      (∀ y m, RevocationList.ofDer y = .ok m → m.der = l.der → m = l) ∧
      (∃ z, RevocationList.decodeSigned l.der = some (z, [])) ∧
      ∀ key q, Verifier.standard.revocationList l key = .error (.other q) → q.Elsewhere := by
  refine ⟨fun x c h ↦ ?_, fun x l h ↦ ?_⟩
  · have hr := Certificate.rereads_ofDer
    obtain ⟨z, hsigned⟩ := hr.exists_der h
    exact ⟨(hr h).1, hr.read_append h, fun y d hd ↦ hr.eq_of_der hd h, ⟨z, hsigned⟩,
      fun e ↦ Certificate.distributionPoints_of_decodeSigned hsigned,
      fun key q ↦ Verifier.elsewhere_of_certificate hsigned⟩
  · have hr := RevocationList.rereads_ofDer
    obtain ⟨z, hsigned⟩ := hr.exists_der h
    exact ⟨(hr h).1, hr.read_append h, fun y m hm ↦ hr.eq_of_der hm h, ⟨z, hsigned⟩,
      fun key q ↦ Verifier.elsewhere_of_revocationList hsigned⟩

def RevocationList.sample (issuer signer : Char) (serials : List Char) : RevocationList :=
  (ofDer (sampleDer issuer signer serials)).toOption.getD default

theorem ofDer_stable_trailing :
    (Certificate.ofDer (Certificate.sampleDer 'C' 'B' ["http://a"] ++ [0x30]) =
        .ok (.sample 'C' 'B' ["http://a"]) ∧
      Certificate.ofDer ((Certificate.sample 'C' 'B' ["http://a"]).der ++ [0]) =
        .ok (.sample 'C' 'B' ["http://a"])) ∧
    RevocationList.ofDer (RevocationList.sampleDer 'B' 'E' ['C'] ++ [0x30]) =
        .ok (.sample 'B' 'E' ['C']) ∧
      RevocationList.ofDer ((RevocationList.sample 'B' 'E' ['C']).der ++ [0]) =
        .ok (.sample 'B' 'E' ['C']) := by
  have hc : Certificate.ofDer (Certificate.sampleDer 'C' 'B' ["http://a"] ++ [0x30]) =
      .ok (.sample 'C' 'B' ["http://a"]) := by decide +kernel
  have hl : RevocationList.ofDer (RevocationList.sampleDer 'B' 'E' ['C'] ++ [0x30]) =
      .ok (.sample 'B' 'E' ['C']) := by decide +kernel
  exact ⟨⟨hc, (ofDer_stable.1 _ _ hc).2.1 [0]⟩, hl, (ofDer_stable.2 _ _ hl).2.1 [0]⟩

end CertPath
