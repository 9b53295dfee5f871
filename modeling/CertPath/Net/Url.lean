import CertPath.Net.Host

namespace CertPath.Net

/-- A URL in normal form. What follows a number sign is dropped. -/
structure Url where
  scheme : String
  username : List Char
  password : List Char
  host : List Char
  port : Option Nat
  segments : List (List Char)
  query : Option (List Char)
  deriving DecidableEq, Repr

namespace Url

/-- Schemes with servers. In their URLs a backslash is as good as a slash. -/
def usualPorts : List (String × Nat) :=
  [("http", 80), ("https", 443), ("ws", 80), ("wss", 443), ("ftp", 21)]

def isSpecial (scheme : String) : Bool := (usualPorts.lookup scheme).isSome

def clean (s : List Char) : List Char :=
  let blank := fun c : Char ↦ c.toNat ≤ 0x20
  ((s.dropWhile blank).reverse.dropWhile blank).reverse.filter fun c ↦
    c ≠ '\t' && c ≠ '\n' && c ≠ '\r'

def cutScheme (s : List Char) : Option (String × List Char) :=
  match s.span fun c ↦ c.isAlphanum || c = '+' || c = '-' || c = '.' with
  | (c :: cs, ':' :: r) =>
    if c.isAlpha then some (String.ofList ((c :: cs).map Char.toLower), r) else none
  | _ => none

def isSlash (special : Bool) (c : Char) : Bool := c = '/' || (special && c = '\\')

def isEnd (c : Char) : Bool := c = '?' || c = '#'

def pathSet : List Char := [' ', '"', '<', '>', '\x60', '#', '?', '\x7b', '\x7d']

def userSet : List Char :=
  pathSet ++ ['/', ':', ';', '=', '@', '[', '\\', ']', '^', '|']

def querySet : List Char := [' ', '"', '#', '<', '>']

def isDot (s : List Char) : Bool := s.map Char.toLower ∈ [['.'], ['%', '2', 'e']]

def isDoubleDot (s : List Char) : Bool :=
  s.map Char.toLower ∈ [['.', '.'], ['.', '%', '2', 'e'], ['%', '2', 'e', '.'],
    ['%', '2', 'e', '%', '2', 'e']]

/-- Adds the segments between slashes one by one. A dot stays where it is, a double dot goes back,
and either leaves an empty segment at the end. -/
def walk (acc : List (List Char)) : List (List Char) → List (List Char)
  | [] => acc
  | [s] =>
    if isDoubleDot s then acc.dropLast ++ [[]]
    else if isDot s then acc ++ [[]]
    else acc ++ [Percent.encode pathSet s]
  | s :: t :: r =>
    if isDoubleDot s then walk acc.dropLast (t :: r)
    else if isDot s then walk acc (t :: r)
    else walk (acc ++ [Percent.encode pathSet s]) (t :: r)

def pathAndQuery (special : Bool) (acc : List (List Char)) (s : List Char) :
    List (List Char) × Option (List Char) :=
  let (path, r) := s.span fun c ↦ !isEnd c
  let slashed := if special then path.map fun c ↦ if c = '\\' then '/' else c else path
  let query :=
    match r with
    | '?' :: q =>
      some (Percent.encode (if special then '\x27' :: querySet else querySet)
        (q.takeWhile (· ≠ '#')))
    | _ => none
  (walk acc (Host.splitOn '/' slashed), query)

def rest (special : Bool) (s : List Char) : List (List Char) × Option (List Char) :=
  match s with
  | c :: r =>
    if isSlash special c then pathAndQuery special [] r
    else if isEnd c && !special then ([], (pathAndQuery special [] s).2)
    else pathAndQuery special [] s
  | [] => if special then ([[]], none) else ([], none)

def userInfo (s : List Char) : List Char × List Char :=
  let (name, r) := s.span (· ≠ ':')
  (Percent.encode userSet name, Percent.encode userSet r.tail)

def cutUser (s : List Char) : Option (List Char × List Char) :=
  match s.reverse.span (· ≠ '@') with
  | (_, []) => none
  | (after, _ :: before) => some (before.reverse, after.reverse)

def cutPort (inside : Bool) : List Char → List Char × Option (List Char)
  | [] => ([], none)
  | c :: r =>
    if c = ':' && !inside then ([], some r)
    else
      let p := cutPort (if c = '[' then true else if c = ']' then false else inside) r
      (c :: p.1, p.2)

def portOf (scheme : String) (s : List Char) : Option (Option Nat × List Char) :=
  let (digits, r) := s.span Char.isDigit
  let n := (Host.numberIn 10 digits).getD 0
  if (r ≠ [] && r.head? ≠ some '\\') || 65535 < n then none
  else if digits = [] || usualPorts.lookup scheme = some n then some (none, r)
  else some (some n, r)

def afterSlashes (scheme : String) (s : List Char) : Option Url := do
  let special := isSpecial scheme
  let (authority, tail) := s.span fun c ↦ !isSlash special c && !isEnd c
  let user := cutUser authority
  if user = some ([], []) && tail ≠ [] then none
  let (username, password) := userInfo ((user.map (·.1)).getD [])
  let (name, port) := cutPort false ((user.map (·.2)).getD authority)
  let host ← if special then Host.domain name else Host.other name
  if host = [] && (port.isSome || username ≠ [] || password ≠ []) then none
  let (port, more) ← portOf scheme (port.getD [])
  let (segments, query) := rest special (more ++ tail)
  some ⟨scheme, username, password, host, port, segments, query⟩

def afterScheme (scheme : String) (s : List Char) : Option Url :=
  if isSpecial scheme then afterSlashes scheme (s.dropWhile (isSlash true))
  else
    match s with
    | '/' :: '/' :: r => afterSlashes scheme r
    | _ => some ⟨scheme, [], [], [], none, (rest false s).1, (rest false s).2⟩

def parse (s : String) : Option Url := do
  let (scheme, r) ← cutScheme (clean s.toList)
  afterScheme scheme r

def relative (base : Url) (s : List Char) : Option Url :=
  match s with
  | [] => some base
  | '?' :: _ => some { base with query := (pathAndQuery true [] s).2 }
  | '#' :: _ => some base
  | c :: r =>
    if isSlash true c then
      if (r.head?.map (isSlash true)).getD false then
        afterSlashes base.scheme (r.dropWhile (isSlash true))
      else
        let (segments, query) := pathAndQuery true [] r
        some { base with segments := segments, query := query }
    else
      let (segments, query) := pathAndQuery true base.segments.dropLast s
      some { base with segments := segments, query := query }

def join (base : Url) (reference : String) : Option Url :=
  let s := clean reference.toList
  match cutScheme s with
  | none => relative base s
  | some (scheme, r) =>
    if scheme = base.scheme && (r.takeWhile (isSlash true)).length < 2 then relative base r
    else afterScheme scheme r

def path (u : Url) : List Char := u.segments.flatMap ('/' :: ·)

def target (u : Url) : String :=
  String.ofList (u.path ++ (u.query.map ('?' :: ·)).getD [])

def portNumber (u : Url) (default : Nat) : Nat := u.port.getD default

end Url

end CertPath.Net
