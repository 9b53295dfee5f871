import CertPath.Text.Utf8

namespace CertPath.Net.Ldap

abbrev Attribute := String × List Bytes

abbrev Entry := List Attribute

structure Answer where
  entries : List Entry
  code : Nat
  deriving DecidableEq, Repr

/-- What a server finds at a base; `none` where there is no proper answer. -/
abbrev Directory := String → Option Answer

def listAttribute : String := "certificateRevocationList;binary"

def lower (s : String) : String := String.ofList (s.toList.map Char.toLower)

def wanted (name : String) : Bool :=
  lower name = lower listAttribute || lower name = lower "certificateRevocationList"

def isText (v : Bytes) : Bool := (Utf8.decode v).isSome

def put (name : String) (values : List Bytes) : List Attribute → List Attribute
  | [] => [(name, values)]
  | a :: as => if a.1 = name then (name, values) :: as else a :: put name values as

/-- The attributes whose values are all texts. Of attributes with one name the last counts. -/
def texts (e : Entry) : List Attribute :=
  (e.filter fun a ↦ a.2.all isText).foldl (fun as a ↦ put a.1 a.2 as) []

/-- The attributes with a value that is no text. Such values come before those that are texts, and
attributes with one name are joined. -/
def binaries (e : Entry) : List Attribute :=
  (e.filter fun a ↦ !a.2.all isText).foldl (fun as a ↦
    put a.1 (((as.lookup a.1).getD []) ++ a.2.filter (!isText ·) ++ a.2.filter isText) as) []

def firstValue (as : List Attribute) : Option Bytes :=
  ((as.find? fun a ↦ wanted a.1).map (·.2)).bind List.head?

def valueOf (e : Entry) : Option Bytes := firstValue (binaries e) <|> firstValue (texts e)

def value? (es : List Entry) : Option Bytes := (es.findSome? valueOf).filter (· ≠ [])

end CertPath.Net.Ldap
