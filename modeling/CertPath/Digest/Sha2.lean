import CertPath.Digest.Padding
import CertPath.Digest.Roots

namespace CertPath.Digest

namespace Sha2

/-- What tells the members of the family apart: round constants and how far words are turned. -/
structure Shape (w : Nat) where
  constants : List (BitVec w)
  bigA : Nat × Nat × Nat
  bigE : Nat × Nat × Nat
  early : Nat × Nat × Nat
  late : Nat × Nat × Nat

structure State (w : Nat) where
  a : BitVec w
  b : BitVec w
  c : BitVec w
  d : BitVec w
  e : BitVec w
  f : BitVec w
  g : BitVec w
  h : BitVec w

variable {w : Nat}

def turns (r : Nat × Nat × Nat) (x : BitVec w) : BitVec w :=
  x.rotateRight r.1 ^^^ x.rotateRight r.2.1 ^^^ x.rotateRight r.2.2

def spread (r : Nat × Nat × Nat) (x : BitVec w) : BitVec w :=
  x.rotateRight r.1 ^^^ x.rotateRight r.2.1 ^^^ (x >>> r.2.2)

def schedule (p : Shape w) : Nat → List (BitVec w) → List (BitVec w)
  | 0, ws => ws
  | n + 1, ws =>
    let x := spread p.late (ws.getD 1 0) + ws.getD 6 0 + spread p.early (ws.getD 14 0) + ws.getD 15 0
    schedule p n (x :: ws)

def round (p : Shape w) (s : State w) (kw : BitVec w × BitVec w) : State w :=
  let x := s.h + turns p.bigE s.e + ((s.e &&& s.f) ^^^ (~~~s.e &&& s.g)) + kw.1 + kw.2
  let y := turns p.bigA s.a + ((s.a &&& s.b) ^^^ (s.a &&& s.c) ^^^ (s.b &&& s.c))
  ⟨x + y, s.a, s.b, s.c, s.d + x, s.e, s.f, s.g⟩

def block (p : Shape w) (s : State w) (b : Bytes) : State w :=
  let ws := (schedule p (p.constants.length - 16) (words w (w / 8) b).reverse).reverse
  let t := (p.constants.zip ws).foldl (round p) s
  ⟨s.a + t.a, s.b + t.b, s.c + t.c, s.d + t.d, s.e + t.e, s.f + t.f, s.g + t.g, s.h + t.h⟩

def digest (p : Shape w) (initial : State w) (m : Bytes) : Bytes :=
  let q := padded (2 * w) (w / 4) m
  let s := (pieces (2 * w) (q.length / (2 * w)) q).foldl (block p) initial
  [s.a, s.b, s.c, s.d, s.e, s.f, s.g, s.h].flatMap fun x ↦ Bytes.ofNat (w / 8) x.toNat

def start (w : Nat) (ps : List Nat) : State w :=
  let x := fun i ↦ rootFraction w 2 (ps.getD i 0)
  ⟨x 0, x 1, x 2, x 3, x 4, x 5, x 6, x 7⟩

def shape32 : Shape 32 where
  constants := (primes.take 64).map (rootFraction 32 3)
  bigA := (2, 13, 22)
  bigE := (6, 11, 25)
  early := (7, 18, 3)
  late := (17, 19, 10)

def shape64 : Shape 64 where
  constants := primes.map (rootFraction 64 3)
  bigA := (28, 34, 39)
  bigE := (14, 18, 41)
  early := (1, 8, 7)
  late := (19, 61, 6)

def start256 : State 32 := start 32 primes
def start384 : State 64 := start 64 (primes.drop 8)
def start512 : State 64 := start 64 primes

end Sha2

def sha256 (m : Bytes) : Bytes := Sha2.digest Sha2.shape32 Sha2.start256 m

def sha384 (m : Bytes) : Bytes := (Sha2.digest Sha2.shape64 Sha2.start384 m).take 48

def sha512 (m : Bytes) : Bytes := Sha2.digest Sha2.shape64 Sha2.start512 m

end CertPath.Digest
