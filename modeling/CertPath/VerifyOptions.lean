import CertPath.AnchorSource
import CertPath.Error
import CertPath.Json.Read

namespace CertPath

structure VerifyOptions where
  checkRevocation : Bool
  fetchTimeout : UInt64
  maxListSize : UInt64
  maxWorkers : UInt64
  maxPathDepth : UInt64
  authenticateLists : Bool
  anchorSource : Option AnchorSource
  deriving DecidableEq, Repr

namespace VerifyOptions

def standard : VerifyOptions where
  checkRevocation := true
  fetchTimeout := 10
  maxListSize := 10485760
  maxWorkers := 4
  maxPathDepth := 32
  authenticateLists := false
  anchorSource := none

def names : List String :=
  ["check_revocation", "fetch_timeout_secs", "max_crl_size", "max_workers", "max_path_depth",
    "verify_crl_signatures", "anchor_source"]

def flag : Json.Value → Option Bool
  | .bool b => some b
  | _ => none

def count : Json.Value → Option UInt64
  | .number n => n.unsigned64?
  | _ => none

def maxSourceDepth : Nat := 126

/-- A source or `null`. A source is read whole before it is looked at, so that what would be passed
over elsewhere must be sound as well. -/
def source : Json.Value → Option (Option AnchorSource)
  | .null => some none
  | v => if v.isSound && v.depth ≤ maxSourceDepth then (AnchorSource.ofJson v).map some else none

def set (o : VerifyOptions) (name : String) (v : Json.Value) : Option VerifyOptions :=
  match name with
  | "check_revocation" => (flag v).map fun x ↦ { o with checkRevocation := x }
  | "fetch_timeout_secs" => (count v).map fun x ↦ { o with fetchTimeout := x }
  | "max_crl_size" => (count v).map fun x ↦ { o with maxListSize := x }
  | "max_workers" => (count v).map fun x ↦ { o with maxWorkers := x }
  | "max_path_depth" => (count v).map fun x ↦ { o with maxPathDepth := x }
  | "verify_crl_signatures" => (flag v).map fun x ↦ { o with authenticateLists := x }
  | "anchor_source" => (source v).map fun x ↦ { o with anchorSource := x }
  | _ => some o

def setFields (o : VerifyOptions) (seen : List String) :
    List (Json.Text × Json.Value) → Option VerifyOptions
  | [] => some o
  | (none, _) :: _ => none
  | (some name, v) :: fs =>
    if name ∈ seen then none
    else do setFields (← o.set name v) (if name ∈ names then name :: seen else seen) fs

def setItems (o : VerifyOptions) : List String → List Json.Value → Option VerifyOptions
  | _, [] => some o
  | [], _ :: _ => none
  | name :: ns, v :: vs => do setItems (← o.set name v) ns vs

def ofJson : Json.Value → Option VerifyOptions
  | .object fields => standard.setFields [] fields
  | .array items => standard.setItems names items
  | _ => none

def parse (s : String) : Except TrustError VerifyOptions :=
  match (Json.read s.toList).bind ofJson with
  | some o => .ok o
  | none => .error .json

def validate (o : VerifyOptions) : Except TrustError Unit :=
  if o.fetchTimeout = 0 then .error (.configuration .zeroTimeout)
  else if o.maxListSize = 0 then .error (.configuration .zeroSize)
  else if o.maxWorkers = 0 then .error (.configuration .zeroWorkers)
  else if o.maxPathDepth < 2 then .error (.configuration .shortDepth)
  else .ok ()

/-- The options on one line. A source is left out: it is `none` wherever this is shown. -/
def describe (o : VerifyOptions) : String :=
  "VerifyOptions \x7b check_revocation: " ++ toString o.checkRevocation ++
    ", fetch_timeout_secs: " ++ toString o.fetchTimeout ++
    ", max_crl_size: " ++ toString o.maxListSize ++
    ", max_workers: " ++ toString o.maxWorkers ++
    ", max_path_depth: " ++ toString o.maxPathDepth ++
    ", verify_crl_signatures: " ++ toString o.authenticateLists ++ ", anchor_source: None \x7d"

end VerifyOptions

end CertPath
