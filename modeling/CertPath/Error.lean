import CertPath.Net.Status

namespace CertPath

inductive PemProblem
  | malformed
  | unreadable
  | wrongLabel (label : String)
  | noCertificate
  | noRevocationList
  deriving DecidableEq, Repr

def PemProblem.text : PemProblem → String
  | malformed => ""
  | unreadable => "failed to parse PEM"
  | wrongLabel label => "expected CERTIFICATE, got " ++ label
  | noCertificate => "no CERTIFICATE / TRUSTED CERTIFICATE found in PEM input"
  | noRevocationList => "no X509 CRL found in PEM input"

inductive DerProblem
  | certificate
  | revocationList
  | emptyInput
  deriving DecidableEq, Repr

def DerProblem.text : DerProblem → String
  | certificate => ""
  | revocationList => "CRL"
  | emptyInput => "empty input"

inductive CertificatePart
  | keyUsage
  | distributionPoints
  | contents
  deriving DecidableEq, Repr

def CertificatePart.text : CertificatePart → String
  | keyUsage => "key usage"
  | distributionPoints => "CRL distribution points"
  | contents => ""

inductive SignatureProblem
  | certificate
  | publicKey
  | revocationList
  | unsupportedAlgorithm
  | custom (text : String)
  deriving DecidableEq, Repr

def SignatureProblem.text : SignatureProblem → String
  | certificate => "certificate"
  | publicKey => "public key"
  | revocationList => "CRL"
  | unsupportedAlgorithm => "signature unsupported algorithm"
  | custom text => text

inductive ListProblem
  | pem (p : PemProblem)
  | der (p : DerProblem)
  | otherIssuer (issuer expected : String)
  | wrongKey (subject : String)
  | signature (p : SignatureProblem)
  deriving DecidableEq, Repr

inductive FetchProblem
  | invalidUrl
  | missingHost
  | status (code : Nat)
  | responseTooLarge (size limit : Nat)
  | listTooLarge (size limit : Nat)
  | transferTooLarge (limit : Nat)
  | noValue
  | cannotConnect (server : String)
  | connectionRefused
  | transport
  deriving DecidableEq, Repr

def FetchProblem.text : FetchProblem → String
  | invalidUrl => "invalid URL"
  | missingHost => "missing host"
  | status code => "HTTP " ++ Net.statusText code
  | responseTooLarge size limit =>
    "response of " ++ Nat.repr size ++ " bytes exceeds the " ++ Nat.repr limit ++ " byte limit"
  | listTooLarge size limit =>
    "CRL of " ++ Nat.repr size ++ " bytes exceeds the " ++ Nat.repr limit ++ " byte limit"
  | transferTooLarge limit =>
    "Connection error: CRL exceeds the " ++ Nat.repr limit ++ " byte limit"
  | noValue => "no 'certificateRevocationList;binary' value"
  | cannotConnect server => "cannot connect to " ++ server
  | connectionRefused => "connection refused"
  | transport => ""

inductive FileProblem
  | notFound
  | notDirectory
  | isDirectory
  | nameTooLong
  | badName
  deriving DecidableEq, Repr

def FileProblem.text : FileProblem → String
  | notFound => "No such file or directory (os error 2)"
  | notDirectory => "Not a directory (os error 20)"
  | isDirectory => "Is a directory (os error 21)"
  | nameTooLong => "File name too long (os error 36)"
  | badName => "file name contained an unexpected NUL byte"

inductive ConfigurationProblem
  | zeroTimeout
  | zeroSize
  | zeroWorkers
  | shortDepth
  | noAnchorSource
  | noSystemStore
  | noCertificates (path : String)
  | malformedTrustList (location : String)
  | undecodedTrustList (location : String)
  | custom (text : String)
  deriving DecidableEq, Repr

def ConfigurationProblem.text : ConfigurationProblem → String
  | zeroTimeout => "fetch_timeout_secs must be at least 1"
  | zeroSize => "max_crl_size must be at least 1"
  | zeroWorkers => "max_workers must be at least 1"
  | shortDepth => "max_path_depth must allow at least a leaf and an anchor"
  | noAnchorSource => "no trust anchor source configured"
  | noSystemStore => "no system trust store found"
  | noCertificates path => "no certificates in '" ++ path ++ "'"
  | malformedTrustList location => "malformed TSL '" ++ location ++ "'"
  | undecodedTrustList location => "TSL '" ++ location ++ "' is not UTF-8"
  | custom text => text

inductive TrustError
  | pem (p : PemProblem)
  | der (p : DerProblem)
  | parse (subject : String) (part : CertificatePart)
  | revocationList (url : String) (p : ListProblem)
  | fetch (url : String) (p : FetchProblem)
  | timeout (url : String) (seconds : Nat)
  | noPath (subject issuer : String)
  | selfSignedLeaf (subject : String)
  | revoked (subject serial url reason : String)
  | unsupportedScheme (url : String)
  | configuration (p : ConfigurationProblem)
  | signature (subject : String) (p : SignatureProblem)
  | file (path : String) (p : FileProblem)
  | json
  deriving DecidableEq, Repr

def reasoned (headline reason : String) : String :=
  if reason = "" then headline else headline ++ ": " ++ reason

def PemProblem.message (p : PemProblem) : String := reasoned "Invalid PEM format" p.text

def DerProblem.message (p : DerProblem) : String := reasoned "Invalid DER format" p.text

def ListProblem.text : ListProblem → String
  | pem p => p.message
  | der p => p.message
  | otherIssuer issuer expected => "CRL issued by '" ++ issuer ++ "', expected '" ++ expected ++ "'"
  | wrongKey subject => "CRL signature does not verify with the key of '" ++ subject ++ "'"
  | signature p => p.text

namespace TrustError

/-- Whether another distribution point may still answer in place of the one that failed. -/
def recoverable : TrustError → Bool
  | revocationList .. | fetch .. | timeout .. => true
  | _ => false

def message : TrustError → String
  | pem p => p.message
  | der p => p.message
  | parse subject part =>
    reasoned ("Failed to parse certificate '" ++ subject ++ "'") part.text
  | revocationList url p => reasoned ("Unusable CRL from '" ++ url ++ "'") p.text
  | fetch url p => reasoned ("Failed to fetch CRL from '" ++ url ++ "'") p.text
  | timeout url seconds => "Fetching '" ++ url ++ "' timed out after " ++ Nat.repr seconds ++ "s"
  | noPath subject issuer =>
    "No certification path for '" ++ subject ++ "': issuer '" ++ issuer ++ "' not found"
  | selfSignedLeaf subject => "Certificate '" ++ subject ++ "' is self-signed"
  | revoked subject serial url reason =>
    "Certificate '" ++ subject ++ "' (serial " ++ serial ++ ") is revoked by CRL at '" ++ url ++
      "' (reason: " ++ reason ++ ")"
  | unsupportedScheme url =>
    "Cannot download CRL from distribution point '" ++ url ++ "': unsupported scheme"
  | configuration p => reasoned "Configuration error" p.text
  | signature subject p => reasoned ("Signature check failed for '" ++ subject ++ "'") p.text
  | file path p => "IO error: " ++ path ++ ": " ++ p.text
  | json => "JSON serialization error"

end TrustError

end CertPath
