import CertPath.Xml.Lexis
import CertPath.Xml.Node

namespace CertPath.Xml

structure Attribute where
  name : Name
  value : List Char
  deriving DecidableEq, Repr

/-- Namespaces by the qualifier that stands for them, nearest first. -/
abbrev Scope := List (List Char × List Char)

def xmlUri : List Char := "http://www.w3.org/XML/1998/namespace".toList

def xmlnsUri : List Char := "http://www.w3.org/2000/xmlns/".toList

def attributeText (s : List Char) : Option (Attribute × List Char) := do
  let (n, r) ← name s
  match skip r with
  | '=' :: r =>
    match skip r with
    | q :: r =>
      if q ≠ '"' && q ≠ '\x27' then none
      else
        let (v, t) ← readUntil (fun t ↦ t.head? = some q || t.head? = some '<') r
        match t with
        | c :: t => if c = q then some (⟨n, v⟩, t) else none
        | [] => none
    | [] => none
  | _ => none

/-- The attributes of a tag up to its end, and whether the tag closes its own element. -/
def attributesText : Nat → List Char → Option ((List Attribute × Bool) × List Char)
  | 0, _ => none
  | n + 1, s =>
    match skip s with
    | '/' :: '>' :: r => some (([], true), r)
    | '>' :: r => some (([], false), r)
    | t =>
      if t.length = s.length then none
      else do
        let (a, r) ← attributeText t
        let ((as, closed), r) ← attributesText n r
        some ((a :: as, closed), r)

def attributeValue (s : List Char) : Option (List Char) :=
  resolved (s.map fun c ↦ if isMarkupBlank c then ' ' else c)

def declare (own : Scope) : List Attribute → Option (Scope × List Name)
  | [] => some (own, [])
  | ⟨n, raw⟩ :: as => do
    let v ← attributeValue raw
    if n.qualifier = "xmlns".toList then
      if v = xmlnsUri || (n.base == "xml".toList) != (v == xmlUri) || own.any (·.1 = n.base) then none
      else declare (if v = xmlUri then own else own ++ [(n.base, v)]) as
    else if n.base = "xmlns".toList then
      if v = xmlUri || v = xmlnsUri then none else declare (own ++ [([], v)]) as
    else
      let (scope, names) ← declare own as
      some (scope, n :: names)

def namespaceOf (scope : Scope) (qualifier : List Char) : Option (List Char) := scope.lookup qualifier

def expanded (scope : Scope) (n : Name) : Option (Option (List Char) × List Char) :=
  if n.qualifier = [] then some (none, n.base)
  else if n.qualifier = "xml".toList then some (some xmlUri, n.base)
  else (namespaceOf scope n.qualifier).map fun u ↦ (some u, n.base)

/-- A tag that opens an element, its `<` read: its name, the namespaces in it, and whether the
element ends with it. -/
def openTag (outer : Scope) (s : List Char) : Option ((Name × Scope × Bool) × List Char) := do
  let (n, r) ← name s
  if n.qualifier = "xmlns".toList then none
  let ((as, closed), r) ← attributesText (r.length + 1) r
  let (own, names) ← declare [] as
  let scope := own ++ outer
  let es ← names.mapM (expanded scope)
  if es.eraseDups.length ≠ es.length then none
  if n.qualifier ≠ [] && (namespaceOf scope n.qualifier).isNone then none
  some ((n, scope, closed), r)

def closeTag (n : Name) (s : List Char) : Option (List Char) := do
  let (closing, r) ← name s
  let r ← after? ">" (skip r)
  if closing = n then some r else none

def comment (s : List Char) : Option (List Char × List Char) := do
  let (t, r) ← readUntil (startsWith "-->") s
  if occurs "--" t || t.getLast? = some '-' then none
  (after? "-->" r).map (t, ·)

def instruction (s : List Char) : Option (List Char) := do
  if startsWith "xml " s then none
  let (_, r) ← plainName s
  let (_, r) ← readUntil (startsWith "?>") (skip r)
  after? "?>" r

def literal (s : List Char) : Option (List Char × List Char) := do
  let r ← after? "[CDATA[" s
  let (t, r) ← readUntil (startsWith "]]>") r
  (after? "]]>" r).map (t, ·)

def plainText (s : List Char) : Option (List Char × List Char) := do
  let (t, r) ← readUntil (fun t ↦ t.head? = some '<') s
  if occurs "]]>" t then none
  (resolved t).map (·, r)

structure Frame where
  name : Name
  scope : Scope
  children : List Node

def Frame.add (f : Frame) (n : Node) : Frame := { f with children := f.children ++ [n] }

def Frame.close (f : Frame) : Node := .element (String.ofList f.name.base) f.children

/-- Reads what stands in the open elements, innermost first, up to the end of the outermost. -/
def content : Nat → Frame → List Frame → List Char → Option (Node × List Char)
  | 0, _, _, _ => none
  | n + 1, f, fs, s =>
    match s with
    | [] => none
    | '<' :: '/' :: r => do
      let r ← closeTag f.name r
      match fs with
      | [] => some (f.close, r)
      | g :: gs => content n (g.add f.close) gs r
    | '<' :: '?' :: r => do content n (f.add .instruction) fs (← instruction r)
    | '<' :: '!' :: r =>
      if startsWith "--" r then do
        let (t, r) ← comment (r.drop 2)
        content n (f.add (.comment t)) fs r
      else do
        let (t, r) ← literal r
        content n (f.add (.text t)) fs r
    | '<' :: r => do
      let ((m, scope, closed), r) ← openTag f.scope r
      if closed then content n (f.add (.element (String.ofList m.base) [])) fs r
      else content n ⟨m, scope, []⟩ (f :: fs) r
    | s => do
      let (t, r) ← plainText s
      content n (f.add (.text t)) fs r

def root (s : List Char) : Option (Node × List Char) := do
  let ((m, scope, closed), r) ← openTag [] s
  if closed then some (.element (String.ofList m.base) [], r)
  else content (r.length + 1) ⟨m, scope, []⟩ [] r

def misc : Nat → List Char → Option (List Char)
  | 0, s => some s
  | n + 1, s =>
    match skip s with
    | '<' :: '!' :: '-' :: '-' :: r => do misc n (← comment r).2
    | '<' :: '?' :: r => do misc n (← instruction r)
    | t => some t

def spaced (s : List Char) : Option (List Char) :=
  match s with
  | [] => some []
  | c :: _ => if isMarkupBlank c || startsWith "?>" s then some (skip s) else none

def declaration (s : List Char) : Option (List Char) := do
  let r ← spaced (s.drop 5)
  if !startsWith "version" r then none
  let (_, r) ← attributeText r
  let r ← spaced r
  let r ← if startsWith "encoding" r then do spaced (← attributeText r).2 else some r
  let r ← if startsWith "standalone" r then (attributeText r).map (·.2) else some r
  after? "?>" (skip r)

def body (s : List Char) : Option (List Char) :=
  let s := if s.head? = some '\uFEFF' then s.tail else s
  if startsWith "<?xml " s then declaration s else some s

def parse (s : List Char) : Option Node := do
  let s ← body s
  match ← misc s.length s with
  | '<' :: r =>
    let (n, r) ← root r
    let r ← misc r.length r
    if skip r = [] then some n else none
  | _ => none

end CertPath.Xml
