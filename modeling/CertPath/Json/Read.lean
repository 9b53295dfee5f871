import CertPath.Json.Value
import CertPath.Text.Blank

namespace CertPath.Json

def skip (s : List Char) : List Char := s.dropWhile isMarkupBlank

def hexValue (c : Char) : Option Nat :=
  let n := c.toNat
  if 48 ≤ n ∧ n ≤ 57 then some (n - 48)
  else if 65 ≤ n ∧ n ≤ 70 then some (n - 55)
  else if 97 ≤ n ∧ n ≤ 102 then some (n - 87)
  else none

def hexUnit (a b c d : Char) : Option Nat := do
  some ((((← hexValue a) * 16 + (← hexValue b)) * 16 + (← hexValue c)) * 16 + (← hexValue d))

def escaped : Char → Option Char
  | '"' => some '"'
  | '\\' => some '\\'
  | '/' => some '/'
  | 'b' => some '\x08'
  | 'f' => some '\x0c'
  | 'n' => some '\n'
  | 'r' => some '\r'
  | 't' => some '\t'
  | _ => none

def units : List Char → Option (List Nat × List Char)
  | '"' :: r => some ([], r)
  | '\\' :: 'u' :: a :: b :: c :: d :: r => do
    let n ← hexUnit a b c d
    let (ns, t) ← units r
    some (n :: ns, t)
  | '\\' :: c :: r => do
    let e ← escaped c
    let (ns, t) ← units r
    some (e.toNat :: ns, t)
  | c :: r =>
    if c.toNat < 0x20 || c = '\\' then none
    else do
      let (ns, t) ← units r
      some (c.toNat :: ns, t)
  | [] => none

def isHigh (n : Nat) : Bool := 0xD800 ≤ n && n ≤ 0xDBFF

def isLow (n : Nat) : Bool := 0xDC00 ≤ n && n ≤ 0xDFFF

/-- Joins surrogate pairs; there must be no half of one. -/
def joined : List Nat → Option (List Char)
  | [] => some []
  | n :: ns =>
    if isHigh n then
      match ns with
      | m :: ms =>
        if isLow m then (joined ms).map (Char.ofNat (0x10000 + (n - 0xD800) * 1024 + (m - 0xDC00)) :: ·)
        else none
      | [] => none
    else if isLow n then none
    else (joined ns).map (Char.ofNat n :: ·)

def text (s : List Char) : Option (Text × List Char) := do
  let (ns, r) ← units s
  some ((joined ns).map String.ofList, r)

def digitsValue (s : List Char) : Nat := s.foldl (fun n c ↦ 10 * n + (c.toNat - 48)) 0

def fraction : List Char → Option (List Char × List Char)
  | '.' :: r =>
    match r.span Char.isDigit with
    | ([], _) => none
    | p => some p
  | s => some ([], s)

def signed : List Char → Option (Int × List Char)
  | '-' :: r => unsigned r (-1)
  | '+' :: r => unsigned r 1
  | s => unsigned s 1
where
  unsigned (s : List Char) (sign : Int) : Option (Int × List Char) :=
    match s.span Char.isDigit with
    | ([], _) => none
    | (d, r) => some (sign * digitsValue d, r)

def exponent : List Char → Option ((Int × Bool) × List Char)
  | 'e' :: r | 'E' :: r => (signed r).map fun p ↦ ((p.1, true), p.2)
  | s => some ((0, false), s)

def number (s : List Char) : Option (Number × List Char) := do
  let negative := s.head? = some '-'
  let (whole, s) := (if negative then s.tail else s).span Char.isDigit
  if whole = [] || (whole.head? = some '0' && whole ≠ ['0']) then none
  let (point, s) ← fraction s
  let ((power, marked), s) ← exponent s
  some (⟨negative, digitsValue (whole ++ point), power - point.length, point = [] && !marked⟩, s)

mutual

def value : Nat → List Char → Option (Value × List Char)
  | 0, _ => none
  | n + 1, s =>
    match skip s with
    | 'n' :: 'u' :: 'l' :: 'l' :: r => some (.null, r)
    | 't' :: 'r' :: 'u' :: 'e' :: r => some (.bool true, r)
    | 'f' :: 'a' :: 'l' :: 's' :: 'e' :: r => some (.bool false, r)
    | '"' :: r => (text r).map fun p ↦ (.text p.1, p.2)
    | '[' :: r =>
      match skip r with
      | ']' :: t => some (.array [], t)
      | t => (items n t).map fun p ↦ (.array p.1, p.2)
    | '\x7b' :: r =>
      match skip r with
      | '\x7d' :: t => some (.object [], t)
      | t => (fields n t).map fun p ↦ (.object p.1, p.2)
    | t => (number t).map fun p ↦ (.number p.1, p.2)

def items : Nat → List Char → Option (List Value × List Char)
  | 0, _ => none
  | n + 1, s => do
    let (v, r) ← value n s
    match skip r with
    | ']' :: t => some ([v], t)
    | ',' :: t =>
      let (vs, t) ← items n t
      some (v :: vs, t)
    | _ => none

def fields : Nat → List Char → Option (List (Text × Value) × List Char)
  | 0, _ => none
  | n + 1, s =>
    match skip s with
    | '"' :: r => do
      let (k, r) ← text r
      match skip r with
      | ':' :: r =>
        let (v, r) ← value n r
        match skip r with
        | '\x7d' :: t => some ([(k, v)], t)
        | ',' :: t =>
          let (fs, t) ← fields n t
          some ((k, v) :: fs, t)
        | _ => none
      | _ => none
    | _ => none

end

/-- The one value that the text holds. Every two steps read a character, so the steps suffice. -/
def read (s : List Char) : Option Value :=
  match value (2 * s.length + 2) s with
  | some (v, r) => if skip r = [] then some v else none
  | none => none

end CertPath.Json
