import CertPath.CertificationPath

namespace CertPath

/-- Finds paths of at most `maxDepth` certificates, leaf and anchor included. -/
structure PathBuilder where
  verifier : Verifier
  maxDepth : Nat

namespace PathBuilder

def defaultMaxDepth : Nat := 32

structure Stall where
  depth : Nat
  certificate : Certificate
  deriving DecidableEq, Repr

/-- Where a search stands: which intermediates are taken, those between the leaf and the current
certificate in order, and the first among the deepest dead ends so far. -/
structure Search where
  used : List Bool
  chain : List Certificate
  stall : Option Stall
  deriving DecidableEq, Repr

namespace Search

def start (leaf : Certificate) (intermediates : List Certificate) : Search where
  used := intermediates.map fun c ↦ c.der = leaf.der
  chain := []
  stall := none

def isUsed (s : Search) (i : Nat) : Bool := s.used.getD i true

def enter (s : Search) (i : Nat) (c : Certificate) : Search :=
  { s with used := s.used.set i true, chain := s.chain ++ [c] }

def leave (s : Search) (i : Nat) : Search :=
  { s with used := s.used.set i false, chain := s.chain.dropLast }

def record (s : Search) (current : Certificate) : Search :=
  if s.stall.any fun t ↦ s.chain.length ≤ t.depth then s
  else { s with stall := some ⟨s.chain.length, current⟩ }

end Search

/-- Whether `issuer` has the name that `c` gives for its issuer, and the key that signed `c`. Keys
are tried only where the names agree. -/
def issuedBy (b : PathBuilder) (c issuer : Certificate) : Except TrustError Bool :=
  if issuer.subject.raw = c.issuer.raw then b.verifier.holds c issuer.publicKey else .ok false

def anchorOf (b : PathBuilder) (c : Certificate) :
    List Certificate → Except TrustError (Option Certificate)
  | [] => .ok none
  | a :: as => do if ← b.issuedBy c a then .ok (some a) else anchorOf b c as

abbrev Step := Except TrustError (Option Certificate × Search)

def tryEach (b : PathBuilder) (current : Certificate) (next : Search → Certificate → Step) :
    List (Certificate × Nat) → Search → Step
  | [], s => .ok (none, s.record current)
  | (c, i) :: cs, s =>
    if s.isUsed i then tryEach b current next cs s
    else do
      if ← b.issuedBy current c then
        match ← next (s.enter i c) c with
        | (some a, t) => .ok (some a, t)
        | (none, t) => tryEach b current next cs (t.leave i)
      else tryEach b current next cs s

/-- Searches depth first through at most `levels` more intermediates. Anchors come first. -/
def descend (b : PathBuilder) (p : Partition) : Nat → Search → Certificate → Step
  | levels, s, current => do
    match ← b.anchorOf current p.anchors with
    | some a => .ok (some a, s)
    | none =>
      match levels with
      | 0 => .ok (none, s.record current)
      | n + 1 => tryEach b current (descend b p n) p.intermediates.zipIdx s

def extend (b : PathBuilder) (p : Partition) (s : Search) (current : Certificate) : Step :=
  descend b p (b.maxDepth - 2 - s.chain.length) s current

/-- Builds a path from the leaf to an anchor. All candidates that match at a step are tried. A
self-signed leaf is refused: a certificate must not vouch for itself. -/
def build (b : PathBuilder) (leaf : Certificate) (p : Partition) :
    Except TrustError CertificationPath := do
  if ← b.verifier.isSelfSigned leaf then
    .error (.selfSignedLeaf leaf.subject.oneline)
  else
    match ← b.extend p (.start leaf p.intermediates) leaf with
    | (some a, s) => .ok ⟨leaf, s.chain, a⟩
    | (none, s) =>
      let last := (s.stall.map (·.certificate)).getD leaf
      .error (.noPath last.subject.oneline last.issuer.oneline)

end PathBuilder

end CertPath
