import CertPath.Text.Percent

namespace CertPath.Net.Host

def splitOn (c : Char) (s : List Char) : List (List Char) :=
  s.foldr (fun x ls ↦
    if x = c then [] :: ls
    else
      match ls with
      | [] => [[x]]
      | l :: ls => (x :: l) :: ls) [[]]

def joinWith (sep : List Char) : List (List Char) → List Char
  | [] => []
  | [s] => s
  | s :: t :: r => s ++ sep ++ joinWith sep (t :: r)

def forbidden : List Char :=
  ['\x00', '\t', '\n', '\r', ' ', '#', '/', ':', '<', '>', '?', '@', '[', '\\', ']', '^', '|']

def digitIn (radix : Nat) (c : Char) : Option Nat :=
  let n := c.toNat
  let v := if 48 ≤ n ∧ n ≤ 57 then n - 48 else if 97 ≤ n ∧ n ≤ 102 then n - 87
    else if 65 ≤ n ∧ n ≤ 70 then n - 55 else radix
  if v < radix then some v else none

def numberIn (radix : Nat) (s : List Char) : Option Nat :=
  s.foldl (fun n c ↦ do some (radix * (← n) + (← digitIn radix c))) (some 0)

def number : List Char → Option Nat
  | [] => none
  | '0' :: 'x' :: r | '0' :: 'X' :: r => numberIn 16 r
  | '0' :: c :: r => numberIn 8 (c :: r)
  | s => numberIn 10 s

def parts (s : List Char) : List (List Char) :=
  let ps := splitOn '.' s
  if ps.getLast? = some [] && 1 < ps.length then ps.dropLast else ps

/-- Whether a name must be read as an address. -/
def endsInNumber (s : List Char) : Bool :=
  match (parts s).getLast? with
  | none => false
  | some p => (p ≠ [] && p.all Char.isDigit) || (number p).isSome

/-- An address of one to four numbers, of which the last fills what the others leave. -/
def address4 (s : List Char) : Option Nat := do
  let ns ← (parts s).mapM number
  let last ← ns.getLast?
  let front := ns.dropLast
  if 3 < front.length || front.any (255 < ·) || Nat.pow 256 (4 - front.length) ≤ last then none
  some (front.zipIdx.foldr (fun p n ↦ p.1 * Nat.pow 256 (3 - p.2) + n) last)

def text4 (n : Nat) : List Char :=
  joinWith ['.'] ([3, 2, 1, 0].map fun i ↦ Nat.toDigits 10 (n / Nat.pow 256 i % 256))

def octet (s : List Char) : Option Nat := do
  if s = [] || !s.all Char.isDigit || (s.head? = some '0' && s ≠ ['0']) then none
  let n ← numberIn 10 s
  if n ≤ 255 then some n else none

def dotted (s : List Char) : Option (List Nat) := do
  match ← (splitOn '.' s).mapM octet with
  | [a, b, c, d] => some [256 * a + b, 256 * c + d]
  | _ => none

def group (s : List Char) : Option Nat :=
  if s = [] || 4 < s.length then none else numberIn 16 s

def groups (s : List Char) : Option (List Nat) := do
  if s = [] then some []
  else
    let ps := splitOn ':' s
    let last := ps.getLast?.getD []
    let front ← ps.dropLast.mapM group
    let tail ← if '.' ∈ last then dotted last else (group last).map ([·])
    some (front ++ tail)

def cutDouble : List Char → Option (List Char × List Char)
  | ':' :: ':' :: r => some ([], r)
  | c :: r => (cutDouble r).map fun p ↦ (c :: p.1, p.2)
  | [] => none

/-- An address of eight groups, where a double colon stands for one or more zero groups. -/
def address6 (s : List Char) : Option (List Nat) := do
  match cutDouble s with
  | none =>
    let gs ← groups s
    if gs.length = 8 then some gs else none
  | some (a, b) =>
    let front ← if '.' ∈ a then none else groups a
    let back ← groups b
    if 7 < front.length + back.length then none
    some (front ++ List.replicate (8 - front.length - back.length) 0 ++ back)

def zeros (gs : List Nat) : Nat := (gs.takeWhile (· = 0)).length

def longestRun (gs : List Nat) : Nat × Nat :=
  (List.range gs.length).foldl (fun best i ↦
    if best.2 < zeros (gs.drop i) then (i, zeros (gs.drop i)) else best) (0, 0)

def text6 (gs : List Nat) : List Char :=
  let (start, run) := longestRun gs
  let colons := fun l : List Nat ↦ joinWith [':'] (l.map (Nat.toDigits 16))
  if run < 2 then colons gs
  else colons (gs.take start) ++ [':', ':'] ++ colons (gs.drop (start + run))

def bracketed (s : List Char) : Option (List Char) := do
  if s.getLast? ≠ some ']' then none
  let gs ← address6 s.tail.dropLast
  some ('[' :: text6 gs ++ [']'])

def domain (s : List Char) : Option (List Char) := do
  if s.head? = some '[' then bracketed s
  else
    let name := (← Utf8.decode (Percent.octets s)).map Char.toLower
    if name = [] || name.any fun c ↦ c.toNat < 0x20 || c.toNat = 0x7F || c = '%' || c ∈ forbidden then
      none
    else if endsInNumber name then (address4 name).map text4
    else some name

def other (s : List Char) : Option (List Char) :=
  if s.head? = some '[' then bracketed s
  else if s.any (· ∈ forbidden) then none
  else some (Percent.encode [] s)

end CertPath.Net.Host
