import CertPath.DistributionPoint
import CertPath.Fingerprint
import CertPath.PathBuilder
import CertPath.TrustChainValidator
import CertPath.Proofs.Decoding
import CertPath.Proofs.Issuance
import CertPath.Proofs.Trace
import CertPath.Proofs.Completeness
import CertPath.Proofs.Pool
import CertPath.Proofs.Settlement
import CertPath.Proofs.Soundness
import CertPath.Proofs.Fetching
import CertPath.Proofs.Forgery
import CertPath.Proofs.Monotonicity
import CertPath.Proofs.Findings
import CertPath.Proofs.Padding
import CertPath.Proofs.Ascent
import CertPath.Proofs.Sufficiency
import CertPath.Proofs.Concurrency
import CertPath.Proofs.Redecoding
import CertPath.Proofs.SearchOrder
import CertPath.Proofs.Preference
import CertPath.Proofs.DeadEnds
import CertPath.Proofs.Restoration
import CertPath.Proofs.Classification
import CertPath.Proofs.Consultation
import CertPath.Proofs.PublicKeys
import CertPath.Proofs.SerialNumbers
import CertPath.Proofs.SerialTexts
import CertPath.Proofs.OnelineNames
import CertPath.Proofs.Bundles
import CertPath.Proofs.Armour
import CertPath.Proofs.PemReaders
import CertPath.Proofs.SizeLimit
import CertPath.Proofs.CommandLines
import CertPath.Proofs.DistributionUrls
import CertPath.Proofs.DirectoryValues
import CertPath.Proofs.ReadWindow
import CertPath.Proofs.Deadlines
import CertPath.Proofs.Addresses
import CertPath.Proofs.Documents
import CertPath.Proofs.TrustLists
