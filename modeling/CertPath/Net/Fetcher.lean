import CertPath.RevocationChecker
import CertPath.Net.Ftp
import CertPath.Net.Http
import CertPath.Net.Ldap

namespace CertPath

def RevocationList.parseFrom (url : String) (b : Bytes) : Except TrustError RevocationList :=
  match RevocationList.parse b with
  | .ok l => .ok l
  | .error (.pem p) => .error (.revocationList url (.pem p))
  | .error (.der p) => .error (.revocationList url (.der p))
  | .error e => .error e

namespace Net

inductive Peer
  | refuses
  /-- Nothing answers in time. -/
  | unreachable
  | web (server : Http.Server)
  | ftp (server : Ftp.Server)
  | ldap (directory : Ldap.Directory)

def Peer.http (site : Http.Site) : Peer := .web (.ofSite site)

/-- The hosts and their ports, and the seconds that the system's clock shows. -/
structure Network where
  peer : String → Nat → Peer
  clock : Nat

instance : CoeFun Network fun _ ↦ String → Nat → Peer := ⟨Network.peer⟩

inductive Sent
  | get (target : String)
  | line (text : String)
  | search (base : String)
  deriving DecidableEq, Repr

structure Fetched where
  outcome : Ending Bytes
  sent : List Sent

structure Fetcher where
  network : Network
  timeout : UInt64
  maxSize : UInt64

namespace Fetcher

def standardMaxSize : UInt64 := 10485760

/-- Connects to the server of a URL, securely for `https` and only then. -/
def connect (f : Fetcher) (u : Url) : Except Http.Trouble Http.Server :=
  match (Url.usualPorts.lookup u.scheme).filter fun _ ↦ u.scheme ∈ ["http", "https"] with
  | none => .error .broken
  | some port =>
    match f.network (String.ofList u.host) (u.portNumber port) with
    | .unreachable => .error .timeout
    | .web server =>
      if server.secure = decide (u.scheme = "https") then .ok server else .error .broken
    | _ => .error .broken

def lastSecond : Nat := 9223372036854775807

/-- The deadline is reckoned from the clock, and is out of range with too long a timeout. -/
def httpGet (f : Fetcher) (url : String) : Fetched :=
  match Url.parse url with
  | none => ⟨.error (.fetch url .transport), []⟩
  | some u =>
    if lastSecond < f.network.clock + f.timeout.toNat then ⟨.overflow, []⟩
    else
      let (answer, targets) := Http.request f.connect Http.maxRedirects [] u
      let outcome :=
        match answer with
        | .error .timeout => .error (.timeout url f.timeout.toNat)
        | .error .broken => .error (.fetch url .transport)
        | .ok r => r.accept url f.maxSize
      ⟨outcome, targets.map .get⟩

def login (u : Url) : List Char × List Char :=
  if u.username = [] then ("anonymous".toList, "anonymous".toList)
  else (Percent.decode u.username, Percent.decode u.password)

def ftpGet (f : Fetcher) (url : String) : Fetched :=
  match Url.parse url with
  | none => ⟨.error (.fetch url .invalidUrl), []⟩
  | some u =>
    if u.host = [] then ⟨.error (.fetch url .missingHost), []⟩
    else
      match f.network (String.ofList u.host) (u.portNumber 21) with
      | .unreachable => ⟨.error (.timeout url f.timeout.toNat), []⟩
      | .ftp server =>
        let (user, password) := login u
        let (answer, lines) := Ftp.fetch server user password (Percent.decode u.path) f.maxSize
        let outcome :=
          match answer with
          | .ok b => .ok b
          | .error .timeout => .error (.timeout url f.timeout.toNat)
          | .error .bad => .error (.fetch url .transport)
          | .error .tooLarge => .error (.fetch url (.transferTooLarge f.maxSize.toNat))
          | .error .overflow => .overflow
          | .error .hang => .hang
        ⟨outcome, lines.map fun l ↦ .line (String.ofList l)⟩
      | _ => ⟨.error (.fetch url .transport), []⟩

def usualLdapPort : Nat := 389

def ldapServer (u : Url) : String :=
  "ldap://" ++ String.ofList u.host ++ ":" ++ Nat.repr (u.portNumber usualLdapPort)

def ldapBase (u : Url) : String :=
  String.ofList (Percent.decode (u.path.dropWhile (· = '/')))

def ldapGet (f : Fetcher) (url : String) : Fetched :=
  match Url.parse url with
  | none => ⟨.error (.fetch url .invalidUrl), []⟩
  | some u =>
    if u.host = [] then ⟨.error (.fetch url .missingHost), []⟩
    else
      match f.network (String.ofList u.host) (u.portNumber usualLdapPort) with
      | .ldap directory =>
        let outcome :=
          match directory (ldapBase u) with
          | none => .error (.fetch url .transport)
          | some a =>
            if a.code ≠ 0 then .error (.fetch url .transport)
            else
              match Ldap.value? a.entries with
              | none => .error (.fetch url .noValue)
              | some b =>
                if f.maxSize.toNat < b.length then
                  .error (.fetch url (.listTooLarge b.length f.maxSize.toNat))
                else .ok b
        ⟨outcome, [.search (ldapBase u)]⟩
      | .web _ | .ftp _ => ⟨.error (.fetch url .transport), []⟩
      | _ => ⟨.error (.fetch url (.cannotConnect (ldapServer u))), []⟩

def fetchBytes (f : Fetcher) (p : DistributionPoint) : Fetched :=
  match p.scheme with
  | .error e => ⟨.error e, []⟩
  | .ok .http | .ok .https => f.httpGet p.url
  | .ok .ftp => f.ftpGet p.url
  | .ok .ldap => f.ldapGet p.url

def fetch (f : Fetcher) (p : DistributionPoint) : Ending RevocationList :=
  (f.fetchBytes p).outcome.bind fun b ↦ .ofExcept (RevocationList.parseFrom p.url b)

/-- The lists that come back. What a fetch counts as that does not come back is for
`Asked.endingWith` to overrule. -/
def source (f : Fetcher) : ListSource := fun p ↦ (f.fetch p).returned (.fetch p.url .transport)

end Fetcher

end Net

/-- How a task ends that has its lists from a fetcher. The first fetch that does not come back ends
it in its own way. -/
def Asked.endingWith {α : Type} (f : Net.Fetcher) (a : Asked α) : Ending α :=
  (a.points.findSome? fun p ↦ (f.fetch p).lost?).getD (.ofExcept a.outcome)

end CertPath
