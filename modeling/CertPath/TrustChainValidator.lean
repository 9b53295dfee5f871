import CertPath.AnchorStore
import CertPath.Fingerprint
import CertPath.PathBuilder
import CertPath.RevocationChecker
import CertPath.VerifyOptions

namespace CertPath

structure PathEntry where
  depth : Nat
  subject : String
  issuer : String
  shortName : String
  serial : String
  fingerprint : String
  revocation : RevocationStatus
  deriving DecidableEq, Repr

def PathEntry.of (depth : Nat) (c : Certificate) (revocation : RevocationStatus) : PathEntry where
  depth := depth
  subject := c.subject.oneline
  issuer := c.issuer.oneline
  shortName := c.shortName
  serial := c.serialHex
  fingerprint := c.fingerprint
  revocation := revocation

structure VerifiedPath where
  path : CertificationPath
  entries : List PathEntry
  deriving DecidableEq, Repr

namespace VerifiedPath

def anchor (v : VerifiedPath) : String := v.path.anchor.subject.oneline

def display (v : VerifiedPath) : String :=
  match v.entries with
  | [] => "OK"
  | leaf :: _ => leaf.shortName ++ ", " ++ leaf.serial ++ ", OK"

end VerifiedPath

structure TrustChainValidator where
  options : VerifyOptions
  verifier : Verifier
  source : ListSource

namespace TrustChainValidator

def create (o : VerifyOptions) (v : Verifier) (s : ListSource) :
    Except TrustError TrustChainValidator := do
  o.validate
  return ⟨o, v, s⟩

def overNetwork (o : VerifyOptions) (n : Net.Network) : Except TrustError TrustChainValidator :=
  create o .standard (Net.Fetcher.source ⟨n, o.fetchTimeout, o.maxListSize⟩)

def revocationChecker (t : TrustChainValidator) : RevocationChecker where
  source := t.source
  verifier := t.verifier
  authenticates := t.options.authenticateLists
  workers := t.options.maxWorkers.toNat

def pathBuilder (t : TrustChainValidator) : PathBuilder where
  verifier := t.verifier
  maxDepth := t.options.maxPathDepth.toNat

def settle : List (Certificate × Except TrustError RevocationStatus) →
    Except TrustError (List RevocationStatus)
  | [] => .ok []
  | (c, r) :: rs => do
    match ← r with
    | .revoked p reason => .error (.revoked c.subject.oneline c.serialHex p.url reason)
    | status => return status :: (← settle rs)

/-- Checks every certificate of a path but the anchor, whose status comes last. All are looked up,
even if one was found revoked before. -/
def checkPath (t : TrustChainValidator) (p : CertificationPath) : Asked (List RevocationStatus) :=
  let checks := p.links.map fun l ↦ (l.1, t.revocationChecker.check l.1 (some l.2))
  { outcome := do return (← settle (checks.map fun k ↦ (k.1, k.2.outcome))) ++ [.notChecked]
    points := checks.flatMap fun k ↦ k.2.points }

def statuses (t : TrustChainValidator) (p : CertificationPath) : Asked (List RevocationStatus) :=
  if t.options.checkRevocation then t.checkPath p
  else ⟨.ok (List.replicate p.length .notChecked), []⟩

/-- The path from a leaf to an anchor of a pool. A self-signed leaf is refused before the pool is
looked at. -/
def findPath (t : TrustChainValidator) (leaf : Certificate) (pool : List Certificate) :
    Except TrustError CertificationPath := do
  if ← t.verifier.isSelfSigned leaf then
    .error (.selfSignedLeaf leaf.subject.oneline)
  else t.pathBuilder.build leaf (← Partition.ofPool t.verifier pool)

def entries (p : CertificationPath) (statuses : List RevocationStatus) : List PathEntry :=
  (p.certificates.zip statuses).zipIdx.map fun e ↦ .of e.2 e.1.1 e.1.2

/-- Verifies a leaf. Self-signed certificates of the pool are anchors, the others may stand between
leaf and anchor. -/
def verify (t : TrustChainValidator) (leaf : Certificate) (pool : List Certificate) :
    Asked VerifiedPath :=
  match t.findPath leaf pool with
  | .error e => ⟨.error e, []⟩
  | .ok p => ⟨(t.statuses p).outcome.map fun s ↦ ⟨p, entries p s⟩, (t.statuses p).points⟩

def sourceAnchors (t : TrustChainValidator) (w : Surroundings) : Ending (List Certificate) :=
  match t.options.anchorSource with
  | none => .error (.configuration .noAnchorSource)
  | some s => s.load w t.options.fetchTimeout t.options.maxListSize

def verifyAnchored (t : TrustChainValidator) (w : Surroundings) (leaf : Certificate)
    (pool : List Certificate) : Ending (Asked VerifiedPath) :=
  (t.sourceAnchors w).map fun anchors ↦ t.verify leaf (pool ++ anchors)

def describe (t : TrustChainValidator) : String :=
  "TrustChainValidator \x7b options: " ++ t.options.describe ++ " \x7d"

end TrustChainValidator

end CertPath
