import CertPath.Bytes
import CertPath.Signature.Modular
import CertPath.Signature.Tight

namespace CertPath.Signature.Ecdsa

/-- The curve `y ^ 2 = x ^ 3 - 3 x + b` modulo `p`, with a point of prime order. -/
structure Curve where
  p : Nat
  b : Nat
  order : Nat
  x : Nat
  y : Nat
  size : Nat

def p256 : Curve where
  p := Nat.pow 2 256 - Nat.pow 2 224 + Nat.pow 2 192 + Nat.pow 2 96 - 1
  b := 0x5AC635D8AA3A93E7B3EBBD55769886BC651D06B0CC53B0F63BCE3C3E27D2604B
  order := 0xFFFFFFFF00000000FFFFFFFFFFFFFFFFBCE6FAADA7179E84F3B9CAC2FC632551
  x := 0x6B17D1F2E12C4247F8BCE6E563A440F277037D812DEB33A0F4A13945D898C296
  y := 0x4FE342E2FE1A7F9B8EE7EB4A7C0F9E162BCE33576B315ECECBB6406837BF51F5
  size := 32

def p384 : Curve where
  p := Nat.pow 2 384 - Nat.pow 2 128 - Nat.pow 2 96 + Nat.pow 2 32 - 1
  b := 0xB3312FA7E23EE7E4988E056BE3F82D19181D9C6EFE8141120314088F5013875AC656398D8A2ED19D2A85C8EDD3EC2AEF
  order := 0xFFFFFFFFFFFFFFFFFFFFFFFFFFFFFFFFFFFFFFFFFFFFFFFFC7634D81F4372DDF581A0DB248B0A77AECEC196ACCC52973
  x := 0xAA87CA22BE8B05378EB1C71EF320AD746E1D3B628BA79B9859F741E082542A385502F25DBF55296C3A545E3872760AB7
  y := 0x3617DE4A96262C6F5D9E98BF9292DC29F8F41DBD289A147CE9DA3113B5F0B8C00A60B1CE1D7E819D7A431D7C90EA0E5F
  size := 48

/-- The point `(x / z ^ 2, y / z ^ 3)`, or the neutral point if `z` is zero. -/
structure Point where
  x : Nat
  y : Nat
  z : Nat

namespace Curve

variable (c : Curve)

def neutral : Point := ⟨1, 1, 0⟩

def double (q : Point) : Point :=
  let zz := q.z * q.z % c.p
  let yy := q.y * q.y % c.p
  let s := 4 * q.x * yy % c.p
  let m := 3 * subMod q.x zz c.p * (q.x + zz) % c.p
  let x := subMod (m * m) (2 * s) c.p
  ⟨x, subMod (m * subMod s x c.p) (8 * yy * yy) c.p, 2 * q.y * q.z % c.p⟩

def add (q r : Point) : Point :=
  if q.z = 0 then r
  else if r.z = 0 then q
  else
    let qz := q.z * q.z % c.p
    let rz := r.z * r.z % c.p
    let u := q.x * rz % c.p
    let s := q.y * (rz * r.z % c.p) % c.p
    let h := subMod (r.x * qz) u c.p
    let d := subMod (r.y * (qz * q.z % c.p)) s c.p
    if h = 0 then if d = 0 then c.double q else neutral
    else
      let hh := h * h % c.p
      let hhh := hh * h % c.p
      let v := u * hh % c.p
      let x := subMod (d * d) (hhh + 2 * v) c.p
      ⟨x, subMod (d * subMod v x c.p) (s * hhh) c.p, h * (q.z * r.z % c.p) % c.p⟩

def onCurve (x y : Nat) : Bool :=
  x < c.p && y < c.p && y * y % c.p = subMod (x * x * x + c.b) (3 * x) c.p

def point (key : Bytes) : Option Point :=
  match key with
  | 0x04 :: r =>
    let x := Bytes.toNat (r.take c.size)
    let y := Bytes.toNat (r.drop c.size)
    if r.length = 2 * c.size && c.onCurve x y then some ⟨x, y, 1⟩ else none
  | _ => none

def verify (digest : Bytes → Bytes) (key message signature : Bytes) : Bool :=
  match c.point key, positivePair signature with
  | some q, some (rs, ss) =>
    let r := rs.toNat
    let s := ss.toNat
    if r < c.order && s < c.order then
      let e := Bytes.toNat ((digest message).take c.size) % c.order
      let w := inverse s c.order
      let sum := c.add (scale c.add neutral (e * w % c.order) ⟨c.x, c.y, 1⟩)
        (scale c.add neutral (r * w % c.order) q)
      let z := inverse sum.z c.p
      sum.z ≠ 0 && sum.x * (z * z % c.p) % c.p % c.order = r
    else false
  | _, _ => false

end Curve

end CertPath.Signature.Ecdsa
