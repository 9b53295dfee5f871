import CertPath.Bytes

namespace CertPath.Der

inductive TagClass
  | universal | application | context | reserved
  deriving DecidableEq, Repr

structure Header where
  cls : TagClass
  constructed : Bool
  number : Nat
  length : Nat
  deriving DecidableEq, Repr

structure Element where
  cls : TagClass
  constructed : Bool
  number : Nat
  body : Bytes
  deriving DecidableEq, Repr

def TagClass.ofOctet (n : Nat) : TagClass :=
  match n / 64 with
  | 0 => .universal
  | 1 => .application
  | 2 => .context
  | _ => .reserved

def longNumber : Nat → Nat → Bytes → Option (Nat × Bytes)
  | 0, _, _ => none
  | _, _, [] => none
  | n + 1, acc, x :: r =>
    let acc := (acc * 128 + x.toNat % 128) % Nat.pow 2 32
    if x.toNat < 128 then some (acc, r) else longNumber n acc r

def tagNumber (x : UInt8) (r : Bytes) : Option (Nat × Bytes) :=
  if x.toNat % 32 = 31 then longNumber 5 0 r else some (x.toNat % 32, r)

/-- A length below 2 ^ 64, short or long and not always minimal, but never indefinite. -/
def lengthOctets : Bytes → Option (Nat × Bytes)
  | [] => none
  | x :: r =>
    let n := x.toNat
    if n < 0x80 then some (n, r)
    else if n = 0x80 ∨ n = 0xFF then none
    else
      let k := n - 0x80
      if r.length < k ∨ Nat.pow 2 64 ≤ Bytes.toNat (r.take k) then none
      else some (Bytes.toNat (r.take k), r.drop k)

def header : Bytes → Option (Header × Bytes)
  | [] => none
  | x :: r => do
    let (number, r) ← tagNumber x r
    let (length, r) ← lengthOctets r
    some (⟨.ofOctet x.toNat, x.toNat / 32 % 2 = 1, number, length⟩, r)

def element (s : Bytes) : Option (Element × Bytes) := do
  let (h, r) ← header s
  if r.length < h.length then none
  else some (⟨h.cls, h.constructed, h.number, r.take h.length⟩, r.drop h.length)

/-- An element whose tag has this number, whatever its class. -/
def numbered (n : Nat) (s : Bytes) : Option (Element × Bytes) := do
  let (e, r) ← element s
  if e.number = n then some (e, r) else none

def repeated {α : Type} (p : Bytes → Option (α × Bytes)) : Nat → Bytes → List α × Bytes
  | 0, s => ([], s)
  | n + 1, s =>
    match p s with
    | none => ([], s)
    | some (a, r) =>
      let (as, t) := repeated p n r
      (a :: as, t)

def many {α : Type} (p : Bytes → Option (α × Bytes)) (s : Bytes) : List α × Bytes :=
  repeated p s.length s

def all {α : Type} (p : Bytes → Option (α × Bytes)) (s : Bytes) : Option (List α) :=
  match many p s with
  | (as, []) => some as
  | _ => none

end CertPath.Der
