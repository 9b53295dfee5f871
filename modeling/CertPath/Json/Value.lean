namespace CertPath.Json

/-- A number as written: all its digits, and the power of ten that goes with them. It is plain when
written with neither point nor exponent. -/
structure Number where
  negative : Bool
  digits : Nat
  exponent : Int
  plain : Bool
  deriving DecidableEq, Repr

/-- A text, or `none` if its escapes leave half a surrogate pair. -/
abbrev Text := Option String

inductive Value
  | null
  | bool (b : Bool)
  | number (n : Number)
  | text (s : Text)
  | array (items : List Value)
  | object (fields : List (Text × Value))
  deriving Repr

namespace Number

def unsigned64? (n : Number) : Option UInt64 :=
  if n.plain && !n.negative && n.digits < Nat.pow 2 64 then some (UInt64.ofNat n.digits) else none

/-- The least magnitude that rounds past the largest double. -/
def doubleLimit : Nat := Nat.pow 2 1024 - Nat.pow 2 970

def isFinite (n : Number) : Bool :=
  if n.digits = 0 then true
  else
    let order := (Nat.toDigits 10 n.digits).length + n.exponent
    if order ≤ 308 then true
    else if 310 ≤ order then false
    else if 0 ≤ n.exponent then n.digits * Nat.pow 10 n.exponent.toNat < doubleLimit
    else n.digits < doubleLimit * Nat.pow 10 (-n.exponent).toNat

end Number

namespace Value

mutual

def depth : Value → Nat
  | array items => itemsDepth items + 1
  | object fields => fieldsDepth fields + 1
  | _ => 0

def itemsDepth : List Value → Nat
  | [] => 0
  | v :: vs => max (depth v) (itemsDepth vs)

def fieldsDepth : List (Text × Value) → Nat
  | [] => 0
  | (_, v) :: fs => max (depth v) (fieldsDepth fs)

end

mutual

def isSound : Value → Bool
  | number n => n.isFinite
  | text s => s.isSome
  | array items => itemsSound items
  | object fields => fieldsSound fields
  | _ => true

def itemsSound : List Value → Bool
  | [] => true
  | v :: vs => isSound v && itemsSound vs

def fieldsSound : List (Text × Value) → Bool
  | [] => true
  | (k, v) :: fs => k.isSome && isSound v && fieldsSound fs

end

end Value

end CertPath.Json
