import CertPath.Error
import CertPath.Text.Utf8

namespace CertPath

/-- The files below a directory, each by the names that lead to it. -/
abbrev FileTree := List (List String × Bytes)

namespace FileTree

inductive Place
  | file (contents : Bytes)
  | directory (path : List String)
  /-- A directory above the tree, of which nothing is known. -/
  | outside
  deriving DecidableEq, Repr

def isDirectory (t : FileTree) (path : List String) : Bool :=
  t.any fun f ↦ path.isPrefixOf f.1 && path.length < f.1.length

def child (t : FileTree) (path : List String) (name : String) : Except FileProblem Place :=
  if 255 < (Utf8.ofString name).length then .error .nameTooLong
  else
    match t.lookup (path ++ [name]) with
    | some b => .ok (.file b)
    | none => if t.isDirectory (path ++ [name]) then .ok (.directory (path ++ [name]))
      else .error .notFound

def step (t : FileTree) : Place → String → Except FileProblem Place
  | .file _, _ => .error .notDirectory
  | .directory path, part =>
    if part = "" ∨ part = "." then .ok (.directory path)
    else if part = ".." then .ok (if path = [] then .outside else .directory path.dropLast)
    else t.child path part
  | .outside, part =>
    if part = "" ∨ part = "." ∨ part = ".." then .ok .outside else .error .notFound

def parts (path : String) : List String :=
  (path.toList.foldr (fun c ps ↦
    if c = '/' then [] :: ps
    else
      match ps with
      | [] => [[c]]
      | p :: ps => (c :: p) :: ps) [[]]).map String.ofList

def resolve (t : FileTree) (path : String) : Except FileProblem Place :=
  if path.toList.contains '\x00' then .error .badName
  else if path = "" then .error .notFound
  else if 4096 ≤ (Utf8.ofString path).length then .error .nameTooLong
  else
    let start := if path.toList.head? = some '/' then Place.outside else .directory []
    (parts path).foldlM t.step start

def read (t : FileTree) (path : String) : Except FileProblem Bytes := do
  match ← t.resolve path with
  | .file b => .ok b
  | _ => .error .isDirectory

def contains (t : FileTree) (path : String) : Bool := (t.resolve path).toOption.isSome

def filesIn (t : FileTree) (path : String) : Except FileProblem (List (String × Bytes)) := do
  match ← t.resolve path with
  | .file _ => .error .notDirectory
  | .outside => .ok []
  | .directory d => .ok (t.filterMap fun f ↦
      match f.1.drop d.length with
      | [name] => if d.isPrefixOf f.1 then some (name, f.2) else none
      | _ => none)

def write (t : FileTree) (path : List String) (b : Bytes) : FileTree :=
  t.filter (·.1 ≠ path) ++ [(path, b)]

end FileTree

end CertPath
