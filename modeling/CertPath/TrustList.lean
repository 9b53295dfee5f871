import CertPath.Base64
import CertPath.Certificate
import CertPath.Text.Blank
import CertPath.Xml.Parse

namespace CertPath.TrustList

def certificateElement : String := "X509Certificate"

def certificateOf (s : List Char) : Option Certificate := do
  let der ← Base64.decodeWhole (Utf8.encode (s.filter (!isAsciiBlank ·)))
  (Certificate.ofDer der).toOption

/-- The certificates of a document in order. What cannot be read is left out. -/
def certificates (document : Xml.Node) : List Certificate :=
  (document.descendants.filter fun n ↦ n.name? = some certificateElement).filterMap fun n ↦
    certificateOf n.ownText

def parse (s : List Char) : Option (List Certificate) := (Xml.parse s).map certificates

end CertPath.TrustList
