import CertPath.AnchorSource
import CertPath.FileTree
import CertPath.Pem
import CertPath.TrustList
import CertPath.Net.Fetcher

namespace CertPath

structure Surroundings where
  files : FileTree
  bundlePath : Option String
  directoryPath : Option String
  network : Net.Network

namespace Surroundings

def systemBundle? (w : Surroundings) : Option String := w.bundlePath.filter w.files.contains

end Surroundings

namespace AnchorSource

def fileExtension (name : String) : Option String :=
  match name.toList.reverse.span (· ≠ '.') with
  | (_, []) | (_, [_]) => none
  | (after, _) => some (String.ofList after.reverse)

/-- Whether a file is looked at by its name: one called `pem`, `crt`, `cer` or by a digit. -/
def isCertificateFile (name : String) : Bool :=
  match fileExtension name with
  | none => false
  | some e => e ∈ ["pem", "crt", "cer"] || (e.toList.length = 1 && e.toList.all Char.isDigit)

def directoryAnchors (files : FileTree) (path : String) : List Certificate :=
  match files.filesIn path with
  | .error _ => []
  | .ok fs => (fs.filter fun f ↦ isCertificateFile f.1).flatMap fun f ↦ Certificate.parseBundle f.2

/-- The certificates of the system: those of its bundle if it has any, else those of its directory. -/
def systemAnchors (w : Surroundings) : Except TrustError (List Certificate) :=
  let bundled :=
    match w.systemBundle?.map w.files.read with
    | some (.ok b) => Certificate.parseBundle b
    | _ => []
  let found :=
    if bundled ≠ [] then bundled
    else (w.directoryPath.map (directoryAnchors w.files)).getD []
  if found = [] then .error (.configuration .noSystemStore) else .ok found

def pemAnchors (files : FileTree) (path : String) : Except TrustError (List Certificate) :=
  match files.read path with
  | .error e => .error (.file path e)
  | .ok b =>
    match Certificate.parseBundle b with
    | [] => .error (.configuration (.noCertificates path))
    | cs => .ok cs

def isRemote (location : String) : Bool :=
  "http://".toList.isPrefixOf location.toList || "https://".toList.isPrefixOf location.toList

def localPath (location : String) : String :=
  if "file://".toList.isPrefixOf location.toList then String.ofList (location.toList.drop 7)
  else location

def trustListBytes (w : Surroundings) (timeout maxSize : UInt64) (location : String) : Net.Fetched :=
  if isRemote location then Net.Fetcher.httpGet ⟨w.network, timeout, maxSize⟩ location
  else
    match w.files.read (localPath location) with
    | .ok b => ⟨.ok b, []⟩
    | .error e => ⟨.error (.file (localPath location) e), []⟩

def trustListAnchors (location : String) (b : Bytes) : Except TrustError (List Certificate) :=
  match Utf8.decode b with
  | none => .error (.configuration (.undecodedTrustList location))
  | some s =>
    match TrustList.parse s with
    | none => .error (.configuration (.malformedTrustList location))
    | some cs => .ok cs

/-- Loads the certificates of a source. Whether they are anchors is not decided here. -/
def load (w : Surroundings) (timeout maxSize : UInt64) : AnchorSource → Ending (List Certificate)
  | system => .ofExcept (systemAnchors w)
  | pemFile path => .ofExcept (pemAnchors w.files path)
  | trustList location =>
    (trustListBytes w timeout maxSize location).outcome.bind fun b ↦
      .ofExcept (trustListAnchors location b)

def sent (w : Surroundings) (timeout maxSize : UInt64) : AnchorSource → List Net.Sent
  | trustList location => (trustListBytes w timeout maxSize location).sent
  | _ => []

end AnchorSource

end CertPath
