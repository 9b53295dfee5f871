import CertPath.Bytes

namespace CertPath.Net

/-- Octets as they arrive, in chunks, and whether their end arrives as well. -/
structure Incoming where
  chunks : List Bytes
  ends : Bool
  deriving DecidableEq, Repr

namespace Incoming

inductive Trouble
  | cut
  | tooLarge (size : Nat)
  | overflow
  deriving DecidableEq, Repr

def fill : Nat → List Bytes → Bytes
  | _, [] => []
  | n, c :: cs => c.take n ++ fill (n - c.length) cs

/-- Reads at most `max` octets. One octet more may be read to see whether there are more, a number
that is out of range for the greatest `max`. -/
def read (max : UInt64) (s : Incoming) : Except Trouble Bytes :=
  if max.toNat + 1 = UInt64.size then .error .overflow
  else
    let b := fill (max.toNat + 1) s.chunks
    if b.length < max.toNat + 1 && !s.ends then .error .cut
    else if max.toNat < b.length then .error (.tooLarge b.length)
    else .ok b

end Incoming

end CertPath.Net
