import CertPath.Digest.Sha2
import CertPath.Signature.Modular

namespace CertPath.Signature.Ed25519

def p : Nat := Nat.pow 2 255 - 19

def order : Nat := Nat.pow 2 252 + 27742317777372353535851937790883648493

def d : Nat := subMod 0 (121665 * inverse 121666 p) p

/-- The point `(x / z, y / z)`, with `t = x y / z`. -/
structure Point where
  x : Nat
  y : Nat
  z : Nat
  t : Nat

def neutral : Point := ⟨0, 1, 1, 0⟩

def add (q r : Point) : Point :=
  let a := subMod q.y q.x p * subMod r.y r.x p % p
  let b := (q.y + q.x) * (r.y + r.x) % p
  let c := 2 * q.t * (d * r.t % p) % p
  let f := 2 * q.z * r.z % p
  let e := subMod b a p
  let g := subMod f c p
  let h := (f + c) % p
  let k := (b + a) % p
  ⟨e * g % p, h * k % p, g * h % p, e * k % p⟩

def negate (q : Point) : Point := ⟨subMod 0 q.x p, q.y, q.z, subMod 0 q.t p⟩

/-- The point of a height `y` whose other coordinate has this parity, unless that is zero. -/
def lift (y parity : Nat) : Option Point :=
  let y := y % p
  let u := subMod (y * y) 1 p
  let v := (d * (y * y % p) + 1) % p
  let v3 := v * v % p * v % p
  let x := u * v3 % p * powMod (u * (v3 * v3 % p * v % p)) ((p - 5) / 8) p % p
  let check := v * (x * x % p) % p
  let root :=
    if check = u then some x
    else if check = subMod 0 u p then some (x * powMod 2 ((p - 1) / 4) p % p)
    else none
  root.map fun x ↦
    let x := if x % 2 = parity then x else subMod 0 x p
    ⟨x, y, 1, x * y % p⟩

def decode (b : Bytes) : Option Point :=
  let n := Bytes.toNat b.reverse
  lift (n % Nat.pow 2 255) (n / Nat.pow 2 255)

def encode (q : Point) : Bytes :=
  let z := inverse q.z p
  let x := q.x * z % p
  let y := q.y * z % p
  (Bytes.ofNat 32 (y + Nat.pow 2 255 * (x % 2))).reverse

def base : Point := (lift (4 * inverse 5 p) 0).getD neutral

def verify (key message signature : Bytes) : Bool :=
  let commitment := signature.take 32
  let s := Bytes.toNat (signature.drop 32).reverse
  if key.length = 32 && signature.length = 64 && s < order then
    match decode key with
    | none => false
    | some q =>
      let h := Bytes.toNat (Digest.sha512 (commitment ++ key ++ message)).reverse % order
      encode (add (scale add neutral s base) (scale add neutral h (negate q))) == commitment
  else false

end CertPath.Signature.Ed25519
