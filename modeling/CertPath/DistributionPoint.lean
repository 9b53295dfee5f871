import CertPath.Certificate

namespace CertPath

inductive Scheme
  | http | https | ftp | ldap
  deriving DecidableEq, Repr

def Scheme.starts : List (String × Scheme) :=
  [("http://", http), ("https://", https), ("ftp://", ftp), ("ldap://", ldap)]

def Scheme.of? (url : String) : Option Scheme :=
  (starts.find? fun p ↦ p.1.toList.isPrefixOf url.toList).map (·.2)

structure DistributionPoint where
  url : String
  deriving DecidableEq, Repr, Inhabited

def DistributionPoint.scheme (p : DistributionPoint) : Except TrustError Scheme :=
  match Scheme.of? p.url with
  | some s => .ok s
  | none => .error (.unsupportedScheme p.url)

inductive GeneralName
  | url (text : String)
  | other (kind : Nat)
  deriving DecidableEq, Repr

namespace GeneralName

def readable (kind : Nat) (body : Bytes) : Bool :=
  match kind with
  | 0 => (Der.oid body).isSome
  | 1 | 2 => (Utf8.decode body).isSome
  | 4 => (DistinguishedName.decode body).any (·.2 = [])
  | 3 | 5 | 7 | 8 => true
  | _ => false

def decode (s : Bytes) : Option (GeneralName × Bytes) := do
  let (e, r) ← Der.element s
  if e.cls ≠ .context then none
  else if e.number = 6 then (Utf8.toString? e.body).map (url ·, r)
  else if readable e.number e.body then some (other e.number, r)
  else none

def url? : GeneralName → Option String
  | url text => some text
  | other _ => none

end GeneralName

inductive PointName
  | full (names : List GeneralName)
  | unnamed
  deriving DecidableEq, Repr

namespace PointName

/-- The list of names in a wrapper of tag zero. The names run on to the end of what encloses the
wrapper, whatever its length says, or to the first that cannot be read. -/
def ofContents (s : Bytes) : Option PointName := do
  let (h, r) ← Der.header s
  if h.number ≠ 0 then none
  else
    match Der.many GeneralName.decode r with
    | ([], _) => none
    | (names, _) => some (full names)

/-- A point without a readable list of names is one without a name. -/
def decode (s : Bytes) : Option (PointName × Bytes) := do
  let (body, rest) ← Der.sequence s
  let name := do
    let (e, _) ← Der.numbered 0 body
    if e.constructed then ofContents e.body else none
  some (name.getD unnamed, rest)

def decodeList (value : Bytes) : Option (List PointName) := do
  let (body, _) ← Der.sequence value
  Der.all decode body

def urls : PointName → List String
  | full names => names.filterMap GeneralName.url?
  | unnamed => []

end PointName

/-- The URLs of the certificate's distribution points in order, each once. -/
def Certificate.distributionPoints (c : Certificate) :
    Except TrustError (List DistributionPoint) :=
  if c.extensionValue Der.Oid.distributionPoints.text = none then .ok []
  else
    match Certificate.decodeSigned c.der with
    | none => .error (.parse c.subject.oneline .contents)
    | some ((_, body), _) =>
      match Extension.unique body.extensions Der.Oid.distributionPoints with
      | none => .error (.parse c.subject.oneline .distributionPoints)
      | some none => .ok []
      | some (some e) =>
        match PointName.decodeList e.value with
        | none => .error (.parse c.subject.oneline .distributionPoints)
        | some points => .ok ((points.flatMap PointName.urls).eraseDups.map DistributionPoint.mk)

end CertPath
