import CertPath.Certificate
import CertPath.Digest.Sha2

namespace CertPath

def fingerprint (b : Bytes) : String := (Digest.sha256 b).colonHex

def Certificate.fingerprint (c : Certificate) : String := CertPath.fingerprint c.der

end CertPath
