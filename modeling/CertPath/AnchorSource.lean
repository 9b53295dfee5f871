import CertPath.Json.Value

namespace CertPath

inductive AnchorSource
  | system
  | pemFile (path : String)
  | trustList (location : String)
  deriving DecidableEq, Repr

namespace AnchorSource

def display : AnchorSource → String
  | system => "system trust store"
  | pemFile path => "PEM file '" ++ path ++ "'"
  | trustList location => "trust service list '" ++ location ++ "'"

def textField (name : String) (fields : List (Json.Text × Json.Value)) : Option String :=
  match fields.filter (·.1 = some name) with
  | [(_, .text s)] => s
  | _ => none

/-- An object whose field `type` says which source it is, or a list that starts with that word. -/
def ofJson : Json.Value → Option AnchorSource
  | .object fields => do
    match ← textField "type" fields with
    | "system" => some system
    | "pem_file" => (textField "path" fields).map pemFile
    | "tsl" => (textField "location" fields).map trustList
    | _ => none
  | .array [.text (some "system")] => some system
  | .array [.text (some "pem_file"), .text (some path)] => some (pemFile path)
  | .array [.text (some "tsl"), .text (some location)] => some (trustList location)
  | _ => none

end AnchorSource

end CertPath
