import CertPath.Digest.Sha1
import CertPath.Digest.Sha2
import CertPath.Signature.Modular
import CertPath.Signature.Tight

namespace CertPath.Signature.Rsa

structure Hash where
  digest : Bytes → Bytes
  announcement : Bytes
  least : Nat

def sha1 : Hash where
  digest := Digest.Sha1.digest
  announcement := [0x30, 0x21, 0x30, 0x09, 0x06, 0x05, 0x2B, 0x0E, 0x03, 0x02, 0x1A, 0x05, 0x00,
    0x04, 0x14]
  least := 1024

/-- The announcement of a digest of the second family, by its number there and its octet count. -/
def announce (number count : UInt8) : Bytes :=
  [0x30, 0x11 + count, 0x30, 0x0D, 0x06, 0x09, 0x60, 0x86, 0x48, 0x01, 0x65, 0x03, 0x04, 0x02,
    number, 0x05, 0x00, 0x04, count]

def sha256 : Hash := ⟨Digest.sha256, announce 1 32, 2048⟩
def sha384 : Hash := ⟨Digest.sha384, announce 2 48, 2048⟩
def sha512 : Hash := ⟨Digest.sha512, announce 3 64, 2048⟩

def encoded (h : Hash) (size : Nat) (m : Bytes) : Bytes :=
  let tail := h.announcement ++ h.digest m
  0x00 :: 0x01 :: List.replicate (size - 3 - tail.length) 0xFF ++ 0x00 :: tail

def acceptable (h : Hash) (modulus exponent : Bytes) : Bool :=
  h.least ≤ 8 * modulus.length && modulus.length ≤ 1024 && modulus.toNat % 2 = 1 &&
    exponent.length ≤ 5 && 3 ≤ exponent.toNat && exponent.toNat < Nat.pow 2 33 && exponent.toNat % 2 = 1

def verify (h : Hash) (key message signature : Bytes) : Bool :=
  match positivePair key with
  | none => false
  | some (modulus, exponent) =>
    let n := modulus.toNat
    let s := signature.toNat
    acceptable h modulus exponent && signature.length = modulus.length && 0 < s && s < n &&
      Bytes.ofNat modulus.length (powMod s exponent.toNat n) == encoded h modulus.length message

end CertPath.Signature.Rsa
