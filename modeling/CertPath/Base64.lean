import CertPath.Bytes

namespace CertPath.Base64

def value (x : UInt8) : Option Nat :=
  let n := x.toNat
  if 65 ≤ n ∧ n ≤ 90 then some (n - 65)
  else if 97 ≤ n ∧ n ≤ 122 then some (n - 71)
  else if 48 ≤ n ∧ n ≤ 57 then some (n + 4)
  else if n = 43 then some 62
  else if n = 47 then some 63
  else none

def pad : UInt8 := 61

/-- Four symbols write up to three octets. Padding closes the group, and the bits that it leaves
over are zero. -/
def group (a b c d : UInt8) : Option Bytes := do
  let x ← value a
  let y ← value b
  let first := UInt8.ofNat (4 * x + y / 16)
  if c = pad then
    if d = pad ∧ y % 16 = 0 then some [first] else none
  else
    let z ← value c
    let second := UInt8.ofNat (y % 16 * 16 + z / 4)
    if d = pad then
      if z % 4 = 0 then some [first, second] else none
    else
      let w ← value d
      some [first, second, UInt8.ofNat (z % 4 * 64 + w)]

def groups : Bytes → Option (List Bytes)
  | [] => some []
  | a :: b :: c :: d :: r => do
    let g ← group a b c d
    let gs ← groups r
    some (g :: gs)
  | _ => none

def decode (s : Bytes) : Option Bytes := (groups s).map List.flatten

/-- Decodes a run of groups of which only the last may be padded. -/
def decodeWhole (s : Bytes) : Option Bytes := do
  let gs ← groups s
  if gs.dropLast.all (·.length = 3) then some gs.flatten else none

end CertPath.Base64
