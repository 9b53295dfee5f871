import CertPath.Proofs.Fetching
import CertPath.Proofs.Soundness

namespace CertPath

namespace ListSource

def serving (s : ListSource) (url : String) (b : Bytes) : ListSource := fun p ↦
  if p.url = url then RevocationList.parseFrom url b else s p

def failing (s : ListSource) (url : String) (e : TrustError) : ListSource := fun p ↦
  if p.url = url then .error e else s p

variable (s : ListSource) (b : Bytes) (e : TrustError) {p : DistributionPoint} {url : String}

theorem serving_of_ne (h : p.url ≠ url) : s.serving url b p = s p := if_neg h

theorem failing_of_ne (h : p.url ≠ url) : s.failing url e p = s p := if_neg h

@[simp] theorem serving_url (p : DistributionPoint) :
    s.serving p.url b p = RevocationList.parseFrom p.url b := if_pos rfl

@[simp] theorem failing_url (p : DistributionPoint) : s.failing p.url e p = .error e := if_pos rfl

end ListSource

/-- Octets that are no revocation list which a key of the pool has signed. -/
def Verifier.Forged (v : Verifier) (pool : List Certificate) (b : Bytes) : Prop :=
  ∀ l, RevocationList.parse b = .ok l → ∀ c ∈ pool, v.revocationList l c.publicKey ≠ .ok ()

def Verifier.sampleSuspicious : Verifier where
  certificate := Verifier.sample.certificate
  revocationList l key :=
    if l.der.getLast? = some 69 then .error .mismatch else Verifier.sample.revocationList l key

namespace RevocationList

theorem parse_of_parseFrom {url : String} {b : Bytes} {l : RevocationList}
    (h : parseFrom url b = .ok l) : parse b = .ok l := by
  unfold parseFrom at h
  split at h
  · rename_i hl
    exact hl.trans h
  · cases h
  · cases h
  · cases h

def sampleDer (issuer signer : Char) (serials : List Char) : Bytes :=
  let octet (x : Char) := UInt8.ofNat x.toNat
  let name := Der.short 0x30 (Der.short 0x31 (Der.short 0x30
    (Der.short 6 [0x55, 4, 3] ++ Der.short 12 [octet issuer])))
  let algorithm := Der.short 0x30 (Der.short 6 [0x2B, 0x65, 0x70])
  let time := Der.short 23 ("250101000000Z".toList.map octet)
  let entry (x : Char) := Der.short 0x30 (Der.short 2 [octet x] ++ time)
  Der.short 0x30 (Der.short 0x30 (algorithm ++ name ++ time ++
    Der.short 0x30 (serials.flatMap entry)) ++ algorithm ++ Der.short 3 [0, octet signer])

end RevocationList

namespace RevocationChecker

variable {k : RevocationChecker} {c : Certificate} {issuer : Option Certificate}
  {p : DistributionPoint} {pool : List Certificate} {b : Bytes} {e : TrustError}

theorem verdict_of_forged {i : Certificate} (ha : k.authenticates = true)
    (hs : (Scheme.of? p.url).isSome) (hb : k.verifier.Forged pool b) (hi : i ∈ pool)
    (hp : k.source p = RevocationList.parseFrom p.url b) :
    k.verdict c (some i) p = .silent := by
  cases hl : RevocationList.parseFrom p.url b with
  | error e =>
    obtain ⟨q, rfl⟩ := RevocationList.parseFrom_eq_error hl
    exact verdict_of_recoverable (lookup_of_error hs (hp.trans hl)) rfl
  | ok l =>
    have hforged := hb l (RevocationList.parse_of_parseFrom hl) i hi
    have hna : ¬ k.Accepts (some i) l := fun h ↦ hforged (h ha i rfl).2
    obtain ⟨e, he, hr⟩ := lookup_of_not_accepts (c := c) hs (hp.trans hl) hna
    exact verdict_of_recoverable he hr

theorem verdict_serving_eq_failing {i : Certificate} (ha : k.authenticates = true)
    (hb : k.verifier.Forged pool b) (hi : i ∈ pool) (he : e.recoverable = true) (url : String) :
    verdict { k with source := k.source.serving url b } c (some i) p =
      verdict { k with source := k.source.failing url e } c (some i) p := by
  by_cases hu : p.url = url
  · subst hu
    cases hs : Scheme.of? p.url with
    | none => exact (verdict_of_fatal (.scheme hs)).trans (verdict_of_fatal (.scheme hs)).symm
    | some s =>
      have hs' : (Scheme.of? p.url).isSome := by rw [hs]; rfl
      have hserved : verdict { k with source := k.source.serving p.url b } c (some i) p = .silent :=
        verdict_of_forged ha hs' hb hi (k.source.serving_url b p)
      have hfailed : verdict { k with source := k.source.failing p.url e } c (some i) p = .silent :=
        verdict_of_recoverable (lookup_of_error hs' (k.source.failing_url e p)) he
      rw [hserved, hfailed]
  · rw [verdict_congr (k.source.serving_of_ne b hu), verdict_congr (k.source.failing_of_ne e hu)]

theorem check_serving_eq_failing {i : Certificate} (ha : k.authenticates = true)
    (hb : k.verifier.Forged pool b) (hi : i ∈ pool) (he : e.recoverable = true) (url : String) :
    check { k with source := k.source.serving url b } c (some i) =
      check { k with source := k.source.failing url e } c (some i) :=
  check_congr fun _ _ _ _ ↦ verdict_serving_eq_failing ha hb hi he url

end RevocationChecker

namespace TrustChainValidator

variable {t : TrustChainValidator} {leaf : Certificate} {pool : List Certificate}

theorem mem_pool_of_findPath {p : CertificationPath} (hp : t.findPath leaf pool = .ok p)
    {c : Certificate} (hc : c ∈ p.intermediates ++ [p.anchor]) : c ∈ pool := by
  obtain ⟨q, hq, hb⟩ := findPath_eq_ok hp
  obtain ⟨-, cs, a, hpath, rfl⟩ := PathBuilder.validPath_of_build _ leaf q hb
  rcases List.mem_append.1 hc with hc | hc
  · exact (Partition.isSelfSigned_of_mem_intermediates hq (hpath.chain.mem_intermediates hc)).1
  · obtain rfl := List.mem_singleton.1 hc
    exact (Partition.isSelfSigned_of_mem_anchors hq hpath.anchor).1

/-- Who has no key of the pool gains nothing by what is published at a URL: it is as if nothing
could be had there. -/
theorem verify_serving_eq_failing (ha : t.options.authenticateLists = true) {b : Bytes}
    (hb : t.verifier.Forged pool b) {e : TrustError} (he : e.recoverable = true) (url : String) :
    verify { t with source := t.source.serving url b } leaf pool =
      verify { t with source := t.source.failing url e } leaf pool := by
  cases hp : t.findPath leaf pool with
  | error e' =>
    have hserved : findPath { t with source := t.source.serving url b } leaf pool = .error e' := hp
    have hfailed : findPath { t with source := t.source.failing url e } leaf pool = .error e' := hp
    rw [verify, verify, hserved, hfailed]
  | ok p =>
    refine verify_eq_of_check_eq hp fun l hl ↦ ?_
    have hi : l.2 ∈ pool := mem_pool_of_findPath hp (List.of_mem_zip hl).2
    exact RevocationChecker.check_serving_eq_failing (k := t.revocationChecker) ha hb hi he url

def sampleAuthenticating (authenticates : Bool) : TrustChainValidator where
  options := { VerifyOptions.standard with authenticateLists := authenticates }
  verifier := .sampleSuspicious
  source := RevocationChecker.sampleSource

def sampleForgery : Bytes := RevocationList.sampleDer 'B' 'E' ['C']

/-- Who believes the forged list takes the leaf for revoked. Who looks at its signature passes over
it, and finds the certificate above revoked by a list that is no forgery. -/
theorem verify_past_forgery :
    (verify { sampleAuthenticating false with
        source := RevocationChecker.sampleSource.serving "http://a" sampleForgery }
      samplePath.leaf samplePath.certificates.tail).outcome =
        .error (.revoked "CN = C" "43" "http://a" "unspecified") ∧
    Verifier.sampleSuspicious.Forged samplePath.certificates.tail sampleForgery ∧
    (verify { sampleAuthenticating true with
        source := RevocationChecker.sampleSource.serving "http://a" sampleForgery }
      samplePath.leaf samplePath.certificates.tail).outcome =
        .error (.revoked "CN = B" "42" "http://b" "keyCompromise") := by
  have hb : Verifier.sampleSuspicious.Forged samplePath.certificates.tail sampleForgery := by
    intro l hl c hc
    have hd : (RevocationList.parse sampleForgery).toOption.map (·.der.getLast?) =
        some (some 69) := by decide +kernel
    have hl' : l.der.getLast? = some 69 := by
      rw [hl] at hd
      exact Option.some.inj hd
    simp [Verifier.sampleSuspicious, hl']
  have he : verify { sampleAuthenticating true with
        source := RevocationChecker.sampleSource.serving "http://a" sampleForgery }
      samplePath.leaf samplePath.certificates.tail = _ :=
    verify_serving_eq_failing (t := sampleAuthenticating true)
      (e := .fetch "http://a" .connectionRefused) rfl hb rfl "http://a"
  refine ⟨by decide +kernel, hb, ?_⟩
  rw [he]
  decide +kernel

end TrustChainValidator

end CertPath
