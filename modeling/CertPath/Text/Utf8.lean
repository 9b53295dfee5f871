import CertPath.Bytes

namespace CertPath.Utf8

def encodeChar (c : Char) : Bytes :=
  let n := c.toNat
  if n < 0x80 then [UInt8.ofNat n]
  else if n < 0x800 then [UInt8.ofNat (0xC0 + n / 64), UInt8.ofNat (0x80 + n % 64)]
  else if n < 0x10000 then
    [UInt8.ofNat (0xE0 + n / 4096), UInt8.ofNat (0x80 + n / 64 % 64), UInt8.ofNat (0x80 + n % 64)]
  else
    [UInt8.ofNat (0xF0 + n / 262144), UInt8.ofNat (0x80 + n / 4096 % 64),
      UInt8.ofNat (0x80 + n / 64 % 64), UInt8.ofNat (0x80 + n % 64)]

def encode (s : List Char) : Bytes := s.flatMap encodeChar

def ofString (s : String) : Bytes := encode s.toList

def trail (lo hi : UInt8) (s : Bytes) (k : Nat → Bytes → Option Char × Bytes) :
    Option Char × Bytes :=
  match s with
  | [] => (none, [])
  | x :: r => if lo ≤ x ∧ x ≤ hi then k (x.toNat % 64) r else (none, x :: r)

/-- Reads one character whose first octet is `a`. When the octets start none, the longest piece
that could have started one is passed over and no character comes back. -/
def next (a : UInt8) (r : Bytes) : Option Char × Bytes :=
  let n := a.toNat
  if n < 0x80 then (some (Char.ofNat n), r)
  else if 0xC2 ≤ n ∧ n ≤ 0xDF then
    trail 0x80 0xBF r fun x r ↦ (some (Char.ofNat (n % 32 * 64 + x)), r)
  else if 0xE0 ≤ n ∧ n ≤ 0xEF then
    trail (if n = 0xE0 then 0xA0 else 0x80) (if n = 0xED then 0x9F else 0xBF) r fun x r ↦
      trail 0x80 0xBF r fun y r ↦ (some (Char.ofNat (n % 16 * 4096 + x * 64 + y)), r)
  else if 0xF0 ≤ n ∧ n ≤ 0xF4 then
    trail (if n = 0xF0 then 0x90 else 0x80) (if n = 0xF4 then 0x8F else 0xBF) r fun x r ↦
      trail 0x80 0xBF r fun y r ↦
        trail 0x80 0xBF r fun z r ↦
          (some (Char.ofNat (n % 8 * 262144 + x * 4096 + y * 64 + z)), r)
  else (none, r)

theorem trail_length {lo hi : UInt8} {s : Bytes} {k : Nat → Bytes → Option Char × Bytes}
    (hk : ∀ x r, (k x r).2.length ≤ r.length) : (trail lo hi s k).2.length ≤ s.length := by
  unfold trail
  split
  · exact Nat.le_refl _
  · rename_i x r
    split
    · exact Nat.le_trans (hk _ r) (by simp)
    · exact Nat.le_refl _

theorem next_length (a : UInt8) (r : Bytes) : (next a r).2.length ≤ r.length := by
  unfold next
  dsimp only
  split
  · exact Nat.le_refl _
  split
  · exact trail_length fun _ _ ↦ Nat.le_refl _
  split
  · exact trail_length fun _ _ ↦ trail_length fun _ _ ↦ Nat.le_refl _
  split
  · exact trail_length fun _ _ ↦ trail_length fun _ _ ↦ trail_length fun _ _ ↦ Nat.le_refl _
  · exact Nat.le_refl _

def take : Nat → Bytes → List (Option Char)
  | 0, _ => []
  | _, [] => []
  | n + 1, a :: r => (next a r).1 :: take n (next a r).2

def pieces (b : Bytes) : List (Option Char) := take b.length b

def decode (b : Bytes) : Option (List Char) := (pieces b).mapM id

def toString? (b : Bytes) : Option String := (decode b).map String.ofList

def decodeLossy (b : Bytes) : List Char := (pieces b).map (·.getD '\uFFFD')

end CertPath.Utf8
