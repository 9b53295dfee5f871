import CertPath.Text.Blank

namespace CertPath.Xml

def isChar (c : Char) : Bool :=
  if c.toNat < 0x20 then isMarkupBlank c else c.toNat ≠ 0xFFFE && c.toNat ≠ 0xFFFF

def startRanges : List (Nat × Nat) :=
  [(0xC0, 0xD6), (0xD8, 0xF6), (0xF8, 0x2FF), (0x370, 0x37D), (0x37F, 0x1FFF), (0x200C, 0x200D),
    (0x2070, 0x218F), (0x2C00, 0x2FEF), (0x3001, 0xD7FF), (0xF900, 0xFDCF), (0xFDF0, 0xFFFD),
    (0x10000, 0xEFFFF)]

def inRanges (rs : List (Nat × Nat)) (c : Char) : Bool :=
  rs.any fun r ↦ r.1 ≤ c.toNat && c.toNat ≤ r.2

def isNameStart (c : Char) : Bool :=
  if c.toNat < 0x80 then c.isAlpha || c = ':' || c = '_' else inRanges startRanges c

def isNameChar (c : Char) : Bool :=
  if c.toNat < 0x80 then c.isAlphanum || c = ':' || c = '_' || c = '-' || c = '.'
  else c.toNat = 0xB7 || inRanges ((0x300, 0x36F) :: (0x203F, 0x2040) :: startRanges) c

def skip (s : List Char) : List Char := s.dropWhile isMarkupBlank

def after? (t : String) (s : List Char) : Option (List Char) :=
  if t.toList.isPrefixOf s then some (s.drop t.toList.length) else none

def startsWith (t : String) (s : List Char) : Bool := t.toList.isPrefixOf s

def occurs (t : String) : List Char → Bool
  | [] => t.toList = []
  | c :: r => startsWith t (c :: r) || occurs t r

/-- Reads up to where `stop` holds. All that is read may stand in a document. -/
def readUntil (stop : List Char → Bool) : List Char → Option (List Char × List Char)
  | [] => some ([], [])
  | c :: r =>
    if !isChar c then none
    else if stop (c :: r) then some ([], c :: r)
    else (readUntil stop r).map fun p ↦ (c :: p.1, p.2)

structure Name where
  qualifier : List Char
  base : List Char
  deriving DecidableEq, Repr

def plainName (s : List Char) : Option (List Char × List Char) :=
  match s with
  | c :: r =>
    if isNameStart c then
      let (n, t) := r.span isNameChar
      some (c :: n, t)
    else none
  | [] => none

def startsName (s : List Char) : Bool := (s.head?.map isNameStart).getD false

def name (s : List Char) : Option (Name × List Char) :=
  let (n, t) := s.span isNameChar
  let (q, r) := n.span (· ≠ ':')
  let n : Name :=
    match r with
    | [] => ⟨[], q⟩
    | _ :: b => ⟨q, b⟩
  if ':' ∉ n.base && startsName n.base && (n.qualifier = [] || startsName n.qualifier) then
    some (n, t)
  else none

def decimal (s : List Char) : Nat := s.foldl (fun n c ↦ 10 * n + (c.toNat - 48)) 0

def isHexDigit (c : Char) : Bool := c.isDigit || ('a' ≤ c && c ≤ 'f') || ('A' ≤ c && c ≤ 'F')

def hexadecimal (s : List Char) : Nat :=
  s.foldl (fun n c ↦ 16 * n +
    (if c.isDigit then c.toNat - 48 else if 'a' ≤ c then c.toNat - 87 else c.toNat - 55)) 0

/-- The character with a number of at most 32 bits; a replacement character where there is none. -/
def charOf (digits : List Char) (n : Nat) : Option Char :=
  if digits = [] || Nat.pow 2 32 ≤ n then none
  else
    let c := if n.isValidChar then Char.ofNat n else '\uFFFD'
    if isChar c then some c else none

def entities : List (List Char × Char) :=
  [("quot".toList, '"'), ("apos".toList, '\x27'), ("amp".toList, '&'), ("lt".toList, '<'),
    ("gt".toList, '>')]

def reference (s : List Char) : Option (Char × List Char) := do
  let (c, r) ←
    match s with
    | '#' :: 'x' :: r =>
      let (d, t) := r.span isHexDigit
      (charOf d (hexadecimal d)).map (·, t)
    | '#' :: r =>
      let (d, t) := r.span Char.isDigit
      (charOf d (decimal d)).map (·, t)
    | s => do
      let (n, t) ← plainName s
      let c ← entities.lookup n
      some (c, t)
  match r with
  | ';' :: t => some (c, t)
  | _ => none

def resolve : Nat → List Char → Option (List Char)
  | _, [] => some []
  | 0, _ => none
  | n + 1, '&' :: r => do
    let (c, t) ← reference r
    (resolve n t).map (c :: ·)
  | n + 1, c :: r => (resolve n r).map (c :: ·)

def resolved (s : List Char) : Option (List Char) := resolve s.length s

end CertPath.Xml
