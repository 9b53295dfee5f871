import CertPath.Bytes
import CertPath.Ending
import CertPath.Net.Incoming
import CertPath.Net.Url

namespace CertPath.Net.Http

structure Response where
  status : Nat
  location : Option String
  declared : Option Nat
  body : Incoming
  deriving DecidableEq, Repr

/-- What a server answers for each target; `none` where that is no response at all. -/
abbrev Site := String → Option Response

inductive Trouble
  | timeout
  | broken
  deriving DecidableEq, Repr

structure Server where
  /-- Whether it wants a secure connection, and has a certificate for one that the client takes. -/
  secure : Bool
  answer : List String → Except Trouble Response

def Server.ofSite (site : Site) : Server where
  secure := false
  answer targets :=
    match targets.getLast?.bind site with
    | none => .error .broken
    | some r => .ok r

def redirects : List Nat := [301, 302, 303, 307, 308]

def Response.redirect? (r : Response) (base : Url) : Option Url :=
  if r.status ∈ redirects then r.location.bind base.join else none

/-- Requests a URL and goes where the responses send it, at most `n` times. The targets requested
come back with the last response, after those requested before. -/
def request (connect : Url → Except Trouble Server) :
    Nat → List String → Url → Except Trouble Response × List String
  | n, targets, u =>
    match connect u with
    | .error e => (.error e, targets)
    | .ok server =>
      match server.answer (targets ++ [u.target]) with
      | .error e => (.error e, targets ++ [u.target])
      | .ok r =>
        match r.redirect? u with
        | none => (.ok r, targets ++ [u.target])
        | some v =>
          match n with
          | 0 => (.error .broken, targets ++ [u.target])
          | m + 1 => request connect m (targets ++ [u.target]) v

def maxRedirects : Nat := 10

def Response.isSuccess (r : Response) : Bool := 200 ≤ r.status && r.status ≤ 299

def Response.read (r : Response) (url : String) (max : UInt64) : Ending Bytes :=
  match r.declared.filter (max.toNat < ·) with
  | some size => .error (.fetch url (.responseTooLarge size max.toNat))
  | none =>
    match r.body.read max with
    | .ok b => .ok b
    | .error .cut => .error (.fetch url .transport)
    | .error (.tooLarge size) => .error (.fetch url (.responseTooLarge size max.toNat))
    | .error .overflow => .overflow

def Response.accept (r : Response) (url : String) (max : UInt64) : Ending Bytes :=
  if r.isSuccess then r.read url max else .error (.fetch url (.status r.status))

end CertPath.Net.Http
