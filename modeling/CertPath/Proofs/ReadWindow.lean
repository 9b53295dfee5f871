import CertPath.Proofs.SizeLimit
import CertPath.Proofs.Soundness

namespace CertPath

namespace Net

variable {max : UInt64}

theorem Incoming.toNat_window_iff (max : UInt64) :
    (max + 1).toNat = max.toNat + 1 ↔ max.toNat < UInt64.size - 1 := by
  have hmax : max.toNat < UInt64.size := max.toNat_lt_size
  have hadd : (max + 1).toNat = (max.toNat + 1) % UInt64.size := UInt64.toNat_add max 1
  rw [hadd]
  constructor
  · intro h
    have hlt : (max.toNat + 1) % UInt64.size < UInt64.size := Nat.mod_lt _ (by decide)
    omega
  · intro h
    exact Nat.mod_eq_of_lt (Nat.add_lt_of_lt_sub h)

theorem Incoming.read_of_overflow (h : ¬ max.toNat < UInt64.size - 1) (s : Incoming) :
    s.read max = .error .overflow := by
  have hmax : max.toNat < UInt64.size := max.toNat_lt_size
  exact if_pos (by omega)

namespace Fetcher

variable {f : Fetcher} {p : DistributionPoint} {b : Bytes}

theorem Completes.outcome_of_overflow (h : f.Completes p b) (hs : p.scheme ≠ .ok .ldap)
    (hmax : ¬ f.maxSize.toNat < UInt64.size - 1) (hle : b.length ≤ f.maxSize.toNat) :
    (f.fetchBytes p).outcome = .overflow := by
  cases h with
  | web hs' hu ht hr hw =>
    simp only [fetchBytes_of_web hs', httpGet, hu, if_neg (Nat.not_lt.2 ht), hr,
      Http.Response.accept, if_pos hw.success, Http.Response.read, hw.filter_declared hle,
      Incoming.read_of_overflow hmax]
  | ftp hs' hu hh hn hd he =>
    simp only [fetchBytes, hs', ftpGet, hu, if_neg hh, hn, Ftp.fetch_of_delivers hd, Ftp.drain,
      Incoming.read_of_overflow hmax]
  | ldap hs' => exact absurd hs' hs

end Fetcher

end Net

namespace TrustChainValidator

def fetcher (o : VerifyOptions) (n : Net.Network) : Net.Fetcher where
  network := n
  timeout := o.fetchTimeout
  maxSize := o.maxListSize

variable {o : VerifyOptions} {n : Net.Network} {t : TrustChainValidator}

/-- Options are accepted with any size but zero. With the greatest the octet more that may be read
overflows, and so ends each fetch that comes to read, but for those from a directory. -/
theorem fetchBytes_of_overNetwork (ht : overNetwork o n = .ok t) :
    t.source = (fetcher o n).source ∧ 1 ≤ o.maxListSize.toNat ∧
    ((o.maxListSize + 1).toNat = o.maxListSize.toNat + 1 ↔
      o.maxListSize.toNat < UInt64.size - 1) ∧
    ∀ p b, (fetcher o n).Completes p b → b.length ≤ o.maxListSize.toNat →
      (((fetcher o n).fetchBytes p).outcome = .ok b ↔
        o.maxListSize.toNat < UInt64.size - 1 ∨ p.scheme = .ok .ldap) ∧
      (¬ o.maxListSize.toNat < UInt64.size - 1 → p.scheme ≠ .ok .ldap →
        ((fetcher o n).fetchBytes p).outcome = .overflow ∧ (fetcher o n).fetch p = .overflow) := by
  obtain ⟨rfl, hpos, -⟩ := create_eq_ok ht
  refine ⟨rfl, hpos, Net.Incoming.toNat_window_iff o.maxListSize, fun p b hb hle ↦ ?_⟩
  have hlost (hmax : ¬ o.maxListSize.toNat < UInt64.size - 1) (hs : p.scheme ≠ .ok .ldap) :
      ((fetcher o n).fetchBytes p).outcome = .overflow := hb.outcome_of_overflow hs hmax hle
  constructor
  · constructor
    · intro hb'
      by_contra! hnot
      obtain ⟨hmax, hs⟩ := hnot
      rw [hlost (Nat.not_lt.2 hmax) hs] at hb'
      cases hb'
    · rintro (hmax | hs)
      · exact hb.outcome_of_le hmax hle
      · exact hb.outcome_of_ldap hs hle
  · intro hmax hs
    refine ⟨hlost hmax hs, ?_⟩
    rw [Net.Fetcher.fetch, hlost hmax hs]
    rfl

def sampleLimit (maxListSize : UInt64) : VerifyOptions :=
  { VerifyOptions.standard with maxListSize := maxListSize }

theorem completes_sampleLimit (maxListSize : UInt64) :
    (fetcher (sampleLimit maxListSize) (Net.Fetcher.sampleServers 0).network).Completes
      ⟨"http://w/l"⟩ [1, 2, 3] :=
  (Net.Fetcher.completes_sampleServers maxListSize).1

theorem fetchBytes_of_overNetwork_next :
    (∃ t, overNetwork (sampleLimit 18446744073709551614) (Net.Fetcher.sampleServers 0).network =
      .ok t) ∧
    ((fetcher (sampleLimit 18446744073709551614) (Net.Fetcher.sampleServers 0).network).fetchBytes
      ⟨"http://w/l"⟩).outcome = .ok [1, 2, 3] := by
  have ht : overNetwork (sampleLimit 18446744073709551614) (Net.Fetcher.sampleServers 0).network =
      .ok ⟨_, _, _⟩ := rfl
  obtain ⟨-, -, -, hread⟩ := fetchBytes_of_overNetwork ht
  obtain ⟨hiff, -⟩ := hread _ _ (completes_sampleLimit 18446744073709551614) (by decide)
  exact ⟨⟨_, ht⟩, hiff.2 (.inl (by decide))⟩

/-- Options that are accepted, with a size that their text may give, and a list that is served in
full and never had. -/
theorem fetchBytes_overflows :
    VerifyOptions.parse "\x7b\"max_crl_size\": 18446744073709551615\x7d" =
      .ok (sampleLimit 18446744073709551615) ∧
    (∃ t, overNetwork (sampleLimit 18446744073709551615) (Net.Fetcher.sampleServers 0).network =
      .ok t) ∧
    ((18446744073709551615 : UInt64) + 1).toNat = 0 ∧
    (fetcher (sampleLimit 18446744073709551615) (Net.Fetcher.sampleServers 0).network).Completes
      ⟨"http://w/l"⟩ [1, 2, 3] ∧
    [1, 2, 3].length ≤ (18446744073709551615 : UInt64).toNat ∧
    ((fetcher (sampleLimit 18446744073709551615) (Net.Fetcher.sampleServers 0).network).fetchBytes
      ⟨"http://w/l"⟩).outcome = .overflow :=
  ⟨by decide +kernel, ⟨_, rfl⟩, by decide, completes_sampleLimit _, by decide, by decide +kernel⟩

end TrustChainValidator

end CertPath
