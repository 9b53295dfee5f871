import CertPath.Bytes

namespace CertPath.Der

structure Oid where
  octets : Bytes
  deriving DecidableEq, Repr, Inhabited

namespace Oid

/-- Base-128 numbers modulo 2 ^ 64. The last one counts as it stands if its octets break off. -/
def arcs (acc : Nat) (open_ : Bool) : Bytes → List Nat
  | [] => if open_ then [acc] else []
  | x :: r =>
    let acc := (acc * 128 + x.toNat % 128) % Nat.pow 2 64
    if x.toNat < 128 then acc :: arcs 0 false r else arcs acc true r

def oversized (run : Nat) : Bytes → Bool
  | [] => false
  | x :: r => if x.toNat < 128 then run ≥ 9 || oversized 0 r else oversized (run + 1) r

/-- The dotted text. The first octet `b` gives `b / 40` and `b % 40`, the single octet zero only
`0`; where a number is too large for 64 bits, the octets are shown in hex instead. -/
def text (o : Oid) : String :=
  match o.octets with
  | [] => ""
  | b :: r =>
    if oversized 0 r then " ".intercalate (o.octets.map fun x ↦ Bytes.hex [x])
    else if r = [] ∧ b = 0 then "0"
    else ".".intercalate ((b.toNat / 40 :: b.toNat % 40 :: arcs 0 false r).map toString)

def commonName : Oid := ⟨[0x55, 0x04, 0x03]⟩
def keyUsage : Oid := ⟨[0x55, 0x1D, 0x0F]⟩
def reasonCode : Oid := ⟨[0x55, 0x1D, 0x15]⟩
def distributionPoints : Oid := ⟨[0x55, 0x1D, 0x1F]⟩
def sha1WithRsa : Oid := ⟨[0x2A, 0x86, 0x48, 0x86, 0xF7, 0x0D, 0x01, 0x01, 0x05]⟩
def sha1WithRsaLegacy : Oid := ⟨[0x2B, 0x0E, 0x03, 0x02, 0x1D]⟩
def sha256WithRsa : Oid := ⟨[0x2A, 0x86, 0x48, 0x86, 0xF7, 0x0D, 0x01, 0x01, 0x0B]⟩
def sha384WithRsa : Oid := ⟨[0x2A, 0x86, 0x48, 0x86, 0xF7, 0x0D, 0x01, 0x01, 0x0C]⟩
def sha512WithRsa : Oid := ⟨[0x2A, 0x86, 0x48, 0x86, 0xF7, 0x0D, 0x01, 0x01, 0x0D]⟩
def ecdsaWithSha256 : Oid := ⟨[0x2A, 0x86, 0x48, 0xCE, 0x3D, 0x04, 0x03, 0x02]⟩
def ecdsaWithSha384 : Oid := ⟨[0x2A, 0x86, 0x48, 0xCE, 0x3D, 0x04, 0x03, 0x03]⟩
def ed25519 : Oid := ⟨[0x2B, 0x65, 0x70]⟩
def curveP256 : Oid := ⟨[0x2A, 0x86, 0x48, 0xCE, 0x3D, 0x03, 0x01, 0x07]⟩
def curveP384 : Oid := ⟨[0x2B, 0x81, 0x04, 0x00, 0x22]⟩

end Oid

end CertPath.Der
