import CertPath.Digest.Padding

namespace CertPath.Digest.Sha1

abbrev Word := BitVec 32

structure State where
  a : Word
  b : Word
  c : Word
  d : Word
  e : Word

def initial : State := ⟨0x67452301, 0xEFCDAB89, 0x98BADCFE, 0x10325476, 0xC3D2E1F0⟩

def schedule : Nat → List Word → List Word
  | 0, ws => ws
  | n + 1, ws =>
    let x := ws.getD 2 0 ^^^ ws.getD 7 0 ^^^ ws.getD 13 0 ^^^ ws.getD 15 0
    schedule n (x.rotateLeft 1 :: ws)

def mix (t : Nat) (b c d : Word) : Word × Word :=
  if t < 20 then ((b &&& c) ||| (~~~b &&& d), 0x5A827999)
  else if t < 40 then (b ^^^ c ^^^ d, 0x6ED9EBA1)
  else if t < 60 then ((b &&& c) ||| (b &&& d) ||| (c &&& d), 0x8F1BBCDC)
  else (b ^^^ c ^^^ d, 0xCA62C1D6)

def round (s : State) (wt : Word × Nat) : State :=
  let (f, k) := mix wt.2 s.b s.c s.d
  ⟨s.a.rotateLeft 5 + f + s.e + k + wt.1, s.a, s.b.rotateLeft 30, s.c, s.d⟩

def block (s : State) (b : Bytes) : State :=
  let ws := (schedule 64 (words 32 4 b).reverse).reverse
  let t := ws.zipIdx.foldl round s
  ⟨s.a + t.a, s.b + t.b, s.c + t.c, s.d + t.d, s.e + t.e⟩

def digest (m : Bytes) : Bytes :=
  let p := padded 64 8 m
  let s := (pieces 64 (p.length / 64) p).foldl block initial
  [s.a, s.b, s.c, s.d, s.e].flatMap fun x ↦ Bytes.ofNat 4 x.toNat

end CertPath.Digest.Sha1
