import CertPath.Bytes

namespace CertPath.Digest

/-- The message, a one bit, zeros, and the length in bits in the last `count` octets of a block. -/
def padded (block count : Nat) (m : Bytes) : Bytes :=
  let fill := (block - (m.length + 1 + count) % block) % block
  m ++ 0x80 :: List.replicate fill 0 ++ Bytes.ofNat count (8 * m.length)

def pieces (size : Nat) : Nat → Bytes → List Bytes
  | 0, _ => []
  | count + 1, b => b.take size :: pieces size count (b.drop size)

def words (w size : Nat) (b : Bytes) : List (BitVec w) :=
  (pieces size (b.length / size) b).map fun x ↦ BitVec.ofNat w x.toNat

end CertPath.Digest
