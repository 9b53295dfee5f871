import CertPath.Der.Element
import CertPath.Der.Oid

namespace CertPath.Der

def sequence (s : Bytes) : Option (Bytes × Bytes) := do
  let (e, r) ← numbered 16 s
  some (e.body, r)

def set (s : Bytes) : Option (Bytes × Bytes) := do
  let (e, r) ← numbered 17 s
  some (e.body, r)

def oid (s : Bytes) : Option (Oid × Bytes) := do
  let (e, r) ← element s
  if e.constructed then none else some (⟨e.body⟩, r)

def integerBody (s : Bytes) : Option (Bytes × Bytes) := do
  let (e, r) ← numbered 2 s
  some (e.body, r)

def minimalUnsigned : Bytes → Bool
  | [] => false
  | [x] => x.toNat < 0x80
  | x :: y :: _ => x.toNat < 0x80 && (x.toNat ≠ 0 || 0x80 ≤ y.toNat)

def unsigned32 (s : Bytes) : Option (Nat × Bytes) := do
  let (e, r) ← numbered 2 s
  if !e.constructed && minimalUnsigned e.body && Bytes.toNat e.body < Nat.pow 2 32 then
    some (Bytes.toNat e.body, r)
  else none

def lowBitsZero (n : Nat) (b : Bytes) : Bool :=
  match b.getLast? with
  | none => n = 0
  | some x => x.toNat % Nat.pow 2 n = 0

/-- The octets of a primitive bit string. Its unused bits are zero, and may be all eight of the last
octet. -/
def bitString (s : Bytes) : Option (Bytes × Bytes) := do
  let (e, r) ← numbered 3 s
  match e.body with
  | [] => none
  | unused :: b =>
    if !e.constructed && unused.toNat ≤ 8 && lowBitsZero unused.toNat b then some (b, r) else none

/-- Like `bitString`, but an octet keeps one bit in use, and where there are no octets the number of
unused bits does not count. -/
def namedBits (s : Bytes) : Option (Bytes × Bytes) := do
  let (e, r) ← numbered 3 s
  match e.body with
  | [] => none
  | unused :: b =>
    if !e.constructed && unused.toNat ≤ 7 && (b = [] || lowBitsZero unused.toNat b) then some (b, r)
    else none

def octetString (s : Bytes) : Option (Bytes × Bytes) := do
  let (e, r) ← numbered 4 s
  if e.constructed then none else some (e.body, r)

def boolean (s : Bytes) : Option (Bool × Bytes) := do
  let (e, r) ← numbered 1 s
  match e.body with
  | [x] => some (x ≠ 0, r)
  | _ => none

end CertPath.Der
