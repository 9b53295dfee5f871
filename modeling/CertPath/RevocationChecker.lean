import CertPath.DistributionPoint
import CertPath.Verifier

namespace CertPath

abbrev ListSource := DistributionPoint → Except TrustError RevocationList

inductive RevocationStatus
  | notRevoked
  | revoked (point : DistributionPoint) (reason : String)
  | notChecked
  deriving DecidableEq, Repr

namespace RevocationStatus

def isRevoked : RevocationStatus → Bool
  | revoked .. => true
  | _ => false

def display : RevocationStatus → String
  | notRevoked => "not revoked"
  | revoked point reason => "revoked (" ++ reason ++ ") by " ++ point.url
  | notChecked => "not checked"

end RevocationStatus

inductive Verdict
  | silent
  | hit (reason : String)
  | fatal (e : TrustError)
  deriving DecidableEq, Repr

/-- The outcome of a task, and the distribution points asked for their lists meanwhile. -/
structure Asked (α : Type) where
  outcome : Except TrustError α
  points : List DistributionPoint

structure RevocationChecker where
  source : ListSource
  verifier : Verifier
  /-- Whether a list must come from the issuer of the certificate, where the issuer is known. -/
  authenticates : Bool
  workers : Nat

namespace RevocationChecker

def create (source : ListSource) (verifier : Verifier) (workers : Nat) :
    Except TrustError RevocationChecker :=
  if workers = 0 then .error (.configuration .zeroWorkers)
  else .ok ⟨source, verifier, false, workers⟩

def authenticate (k : RevocationChecker) (l : RevocationList) (issuer : Certificate)
    (p : DistributionPoint) : Except TrustError Unit :=
  if l.issuer.raw ≠ issuer.subject.raw then
    .error (.revocationList p.url (.otherIssuer l.issuer.oneline issuer.subject.oneline))
  else
    match k.verifier.revocationList l issuer.publicKey with
    | .ok () => .ok ()
    | .error .mismatch => .error (.revocationList p.url (.wrongKey issuer.subject.oneline))
    | .error (.other e) => .error (.revocationList p.url (.signature e))

def lookup (k : RevocationChecker) (c : Certificate) (issuer : Option Certificate)
    (p : DistributionPoint) : Except TrustError (Option String) := do
  let _ ← p.scheme
  let l ← k.source p
  if k.authenticates then
    match issuer with
    | some i => k.authenticate l i p
    | none => pure ()
  return l.lists c

/-- Points that fail in a way from which one can recover count as silent. -/
def verdict (k : RevocationChecker) (c : Certificate) (issuer : Option Certificate)
    (p : DistributionPoint) : Verdict :=
  match k.lookup c issuer p with
  | .ok none => .silent
  | .ok (some reason) => .hit reason
  | .error e => if e.recoverable then .silent else .fatal e

def asks (p : DistributionPoint) : List DistributionPoint :=
  if (Scheme.of? p.url).isSome then [p] else []

def scan (k : RevocationChecker) (c : Certificate) (issuer : Option Certificate) :
    List DistributionPoint → Asked RevocationStatus
  | [] => ⟨.ok .notRevoked, []⟩
  | p :: ps =>
    match k.verdict c issuer p with
    | .silent => ⟨(scan k c issuer ps).outcome, asks p ++ (scan k c issuer ps).points⟩
    | .hit reason => ⟨.ok (.revoked p reason), asks p⟩
    | .fatal e => ⟨.error e, asks p⟩

def check (k : RevocationChecker) (c : Certificate) (issuer : Option Certificate) :
    Asked RevocationStatus :=
  match c.distributionPoints with
  | .error e => ⟨.error e, []⟩
  | .ok ps => k.scan c issuer ps

def describe (k : RevocationChecker) : String :=
  "RevocationChecker \x7b verify_crl_signatures: " ++ toString k.authenticates ++ ", workers: " ++
    toString k.workers ++ " \x7d"

variable {k : RevocationChecker} {c : Certificate} {issuer : Option Certificate}
  {p : DistributionPoint}

variable (k p) in
theorem authenticate_cases (l : RevocationList) (i : Certificate) :
    (k.authenticate l i p = .ok () ∧ l.issuer.raw = i.subject.raw ∧
      k.verifier.revocationList l i.publicKey = .ok ()) ∨
    ∃ e, k.authenticate l i p = .error e ∧ e.recoverable = true ∧
      (l.issuer.raw = i.subject.raw → k.verifier.revocationList l i.publicKey ≠ .ok ()) := by
  unfold authenticate
  by_cases hn : l.issuer.raw = i.subject.raw
  · rw [if_neg (not_not_intro hn)]
    cases k.verifier.revocationList l i.publicKey with
    | ok u => exact .inl ⟨rfl, hn, rfl⟩
    | error f => cases f <;> exact .inr ⟨_, rfl, rfl, nofun⟩
  · rw [if_pos hn]
    exact .inr ⟨_, rfl, rfl, fun h ↦ absurd h hn⟩

theorem lookup_of_unsupported (h : Scheme.of? p.url = none) :
    k.lookup c issuer p = .error (.unsupportedScheme p.url) := by
  simp only [lookup, DistributionPoint.scheme, h]
  rfl

theorem lookup_of_scheme {s : Scheme} (hs : Scheme.of? p.url = some s) :
    k.lookup c issuer p = (k.source p).bind fun l ↦
      (if k.authenticates then issuer.elim (.ok ()) (k.authenticate l · p) else .ok ()).map
        fun _ ↦ l.lists c := by
  rw [lookup, DistributionPoint.scheme, hs]
  cases k.source p with
  | error e => rfl
  | ok l =>
    cases k.authenticates with
    | false => rfl
    | true => cases issuer <;> rfl

theorem verdict_of_error {e : TrustError} (h : k.lookup c issuer p = .error e) :
    k.verdict c issuer p = if e.recoverable then .silent else .fatal e := by
  rw [verdict, h]

theorem verdict_of_recoverable {e : TrustError} (h : k.lookup c issuer p = .error e)
    (he : e.recoverable = true) : k.verdict c issuer p = .silent := by
  rw [verdict_of_error h, if_pos he]

theorem verdict_of_ok {r : Option String} (h : k.lookup c issuer p = .ok r) :
    k.verdict c issuer p = r.elim .silent .hit := by
  cases r <;> rw [verdict, h] <;> rfl

end RevocationChecker

end CertPath
