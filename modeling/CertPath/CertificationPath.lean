import CertPath.Partition

namespace CertPath

/-- A leaf, the certificates between, and the anchor, each issued by the next. -/
structure CertificationPath where
  leaf : Certificate
  intermediates : List Certificate
  anchor : Certificate
  deriving DecidableEq, Repr

namespace CertificationPath

def length (p : CertificationPath) : Nat := p.intermediates.length + 2

def certificates (p : CertificationPath) : List Certificate :=
  p.leaf :: p.intermediates ++ [p.anchor]

def links (p : CertificationPath) : List (Certificate × Certificate) :=
  p.certificates.zip p.certificates.tail

end CertificationPath

end CertPath
