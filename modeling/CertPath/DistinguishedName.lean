import CertPath.Der.Primitive
import CertPath.Text.Utf8

namespace CertPath

/-- A distinguished name: its encoding, by which names are compared, and its attributes in order,
each a type and a value. -/
structure DistinguishedName where
  raw : Bytes
  components : List (String × String)
  deriving DecidableEq, Repr, Inhabited

namespace DistinguishedName

def value? (n : DistinguishedName) (type : String) : Option String :=
  (n.components.find? (·.1 = type)).map (·.2)

def escape (s : List Char) : List Char :=
  s.flatMap fun c ↦ if c = '\\' ∨ c = ',' ∨ c = '=' then ['\\', c] else [c]

def assignment (a : String × String) : List Char :=
  a.1.toList ++ [' ', '=', ' '] ++ escape a.2.toList

def onelineChars : List (String × String) → List Char
  | [] => []
  | [a] => assignment a
  | a :: b :: r => assignment a ++ ',' :: ' ' :: onelineChars (b :: r)

/-- The attributes on one line, as in `C = US, O = Org`, with a backslash before each comma, equals
sign and backslash of a value. -/
def oneline (n : DistinguishedName) : String := String.ofList (onelineChars n.components)

def shortNames : List (String × String) :=
  [("2.5.4.3", "CN"), ("2.5.4.10", "O"), ("2.5.4.11", "OU"), ("2.5.4.6", "C"), ("2.5.4.7", "L"),
    ("2.5.4.8", "ST"), ("2.5.4.5", "serialNumber"), ("2.5.4.42", "GN"), ("2.5.4.4", "SN"),
    ("1.2.840.113549.1.9.1", "emailAddress"), ("0.9.2342.19200300.100.1.25", "DC")]

def shortName (oid : String) : String := (shortNames.lookup oid).getD oid

def textTags : List Nat := [12, 18, 19, 22]

def valueText (e : Der.Element) : String :=
  if e.number ∈ textTags then (Utf8.toString? e.body).getD "<binary>" else "<binary>"

def attributeTypeAndValue (s : Bytes) : Option ((String × String) × Bytes) := do
  let (body, rest) ← Der.sequence s
  let (type, r) ← Der.oid body
  let (value, _) ← Der.element r
  some ((shortName type.text, valueText value), rest)

/-- A set of one or more attributes. What does not read as an attribute is passed over with all
that follows it. -/
def relative (s : Bytes) : Option (List (String × String) × Bytes) := do
  let (body, rest) ← Der.set s
  match Der.many attributeTypeAndValue body with
  | ([], _) => none
  | (as, _) => some (as, rest)

def decode (s : Bytes) : Option (DistinguishedName × Bytes) := do
  let (body, rest) ← Der.sequence s
  let (sets, r) := Der.many relative body
  some (⟨(Bytes.before s rest).take ((Bytes.before s rest).length - r.length), sets.flatten⟩, rest)

end DistinguishedName

end CertPath
