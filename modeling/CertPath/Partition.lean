import CertPath.Verifier

namespace CertPath

/-- Whether a signature on `c` holds under `key`. A signature that cannot be checked is an error,
never an answer. -/
def Verifier.holds (v : Verifier) (c : Certificate) (key : Bytes) : Except TrustError Bool :=
  match v.certificate c key with
  | .ok () => .ok true
  | .error .mismatch => .ok false
  | .error (.other p) => .error (.signature c.subject.oneline p)

def Verifier.isSelfSigned (v : Verifier) (c : Certificate) : Except TrustError Bool :=
  v.holds c c.publicKey

/-- Certificates that may end a path and certificates that may stand inside one. -/
structure Partition where
  anchors : List Certificate
  intermediates : List Certificate
  deriving DecidableEq, Repr

namespace Partition

def empty : Partition := ⟨[], []⟩

def fill (v : Verifier) (seen : List Bytes) (p : Partition) :
    List Certificate → Except TrustError Partition
  | [] => .ok p
  | c :: cs =>
    if c.der ∈ seen then fill v seen p cs
    else do
      if ← v.isSelfSigned c then fill v (c.der :: seen) ⟨p.anchors ++ [c], p.intermediates⟩ cs
      else fill v (c.der :: seen) ⟨p.anchors, p.intermediates ++ [c]⟩ cs

def ofPool (v : Verifier) (pool : List Certificate) : Except TrustError Partition :=
  fill v [] empty pool

end Partition

end CertPath
