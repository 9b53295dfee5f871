import CertPath.Der.Primitive

namespace CertPath

structure Extension where
  oid : Der.Oid
  critical : Bool
  value : Bytes
  deriving DecidableEq, Repr

namespace Extension

def decode (s : Bytes) : Option (Extension × Bytes) := do
  let (body, rest) ← Der.sequence s
  let (oid, r) ← Der.oid body
  let (critical, r) := (Der.boolean r).getD (false, r)
  let (value, _) ← Der.octetString r
  some (⟨oid, critical, value⟩, rest)

def decodeList (s : Bytes) : Option (List Extension × Bytes) := do
  let (body, rest) ← Der.sequence s
  let es ← Der.all decode body
  some (es, rest)

/-- The extensions that end a structure, in a wrapper with this tag number. Only the wrapper's tag
counts: whatever its length says, the extension list must take up all that is left. -/
def decodeTail (number : Nat) (s : Bytes) : Option (List Extension) :=
  if s = [] then some []
  else do
    let (h, r) ← Der.header s
    if h.number ≠ number then none
    else
      let (es, rest) ← decodeList r
      if rest = [] then some es else none

/-- The one extension of a type: `none` if there are several, `some none` if there is none. -/
def unique (es : List Extension) (oid : Der.Oid) : Option (Option Extension) :=
  match es.filter (·.oid = oid) with
  | [] => some none
  | [e] => some (some e)
  | _ => none

end Extension

end CertPath
