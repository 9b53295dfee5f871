import CertPath.Der.Element

namespace CertPath.Der

structure Civil where
  year : Nat
  month : Nat
  day : Nat
  hour : Nat
  minute : Nat
  second : Nat
  deriving DecidableEq, Repr

namespace Civil

def leap (y : Nat) : Bool := (y % 4 = 0 && y % 100 ≠ 0) || y % 400 = 0

def monthDays (y : Nat) : List Nat :=
  [31, if leap y then 29 else 28, 31, 30, 31, 30, 31, 31, 30, 31, 30, 31]

/-- Days from the start of the year 400 years before year zero to the start of year `y`. -/
def daysBefore (y : Nat) : Nat :=
  let n := y + 400
  365 * n + (n - 1) / 4 - (n - 1) / 100 + (n - 1) / 400

def Valid (c : Civil) : Prop :=
  1 ≤ c.month ∧ c.month ≤ 12 ∧ 1 ≤ c.day ∧ c.day ≤ (monthDays c.year).getD (c.month - 1) 0 ∧
    c.hour ≤ 23 ∧ c.minute ≤ 59 ∧ c.second ≤ 59

instance (c : Civil) : Decidable c.Valid := by unfold Valid; infer_instance

def unix (c : Civil) : Int :=
  let days := daysBefore c.year + ((monthDays c.year).take (c.month - 1)).foldr (· + ·) 0 + (c.day - 1)
  ((days : Int) - daysBefore 1970) * 86400 + (c.hour * 3600 + c.minute * 60 + c.second : Nat)

end Civil

def pair : Bytes → Option (Nat × Bytes)
  | x :: y :: r =>
    if 48 ≤ x.toNat ∧ x.toNat ≤ 57 ∧ 48 ≤ y.toNat ∧ y.toNat ≤ 57 then
      some ((x.toNat - 48) * 10 + (y.toNat - 48), r)
    else none
  | _ => none

/-- Month, day, hour and minute, then seconds if at least two octets follow. -/
def fromMonth (year : Nat) (s : Bytes) : Option (Civil × Bytes) := do
  let (month, s) ← pair s
  let (day, s) ← pair s
  let (hour, s) ← pair s
  let (minute, s) ← pair s
  if s.length < 2 then some (⟨year, month, day, hour, minute, 0⟩, s)
  else
    let (second, s) ← pair s
    some (⟨year, month, day, hour, minute, second⟩, s)

/-- An offset from UTC in seconds. A sign before zero hours is lost, so `-0030` is half an hour
ahead. -/
def zone (s : Bytes) : Option Int := do
  match s with
  | [0x5A] => some 0
  | sign :: r =>
    let (h, r) ← pair r
    let (m, r) ← pair r
    if r ≠ [] ∨ 25 < h ∨ 59 < m then none
    else if sign = 0x2B ∨ (sign = 0x2D ∧ h = 0) then some ((h * 3600 + m * 60 : Nat) : Int)
    else if sign = 0x2D then some (-((h * 3600 + m * 60 : Nat) : Int))
    else none
  | [] => none

def utcTime (s : Bytes) : Option Int := do
  let (yy, s) ← pair s
  let (c, s) ← fromMonth (if 50 ≤ yy then 1900 + yy else 2000 + yy) s
  let off ← zone s
  if c.Valid then some (c.unix - off) else none

def fraction : Bytes → Bool
  | [0x5A] => true
  | 0x2E :: r =>
    let d := r.takeWhile fun x ↦ 48 ≤ x.toNat && x.toNat ≤ 57
    d.length ≤ 3 && r.drop d.length == [0x5A]
  | _ => false

def generalizedTime (s : Bytes) : Option Int := do
  let (hi, s) ← pair s
  let (lo, s) ← pair s
  let (c, s) ← fromMonth (100 * hi + lo) s
  if fraction s ∧ c.Valid then some c.unix else none

def time (s : Bytes) : Option (Int × Bytes) := do
  let (e, r) ← element s
  if e.number = 23 then (utcTime e.body).map (·, r)
  else if e.number = 24 then (generalizedTime e.body).map (·, r)
  else none

end CertPath.Der
