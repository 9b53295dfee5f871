import CertPath.Base64
import CertPath.Certificate
import CertPath.Text.Blank
import CertPath.Text.Utf8

namespace CertPath

namespace Pem

structure Block where
  label : String
  contents : Bytes
  deriving DecidableEq, Repr

def lines : Bytes → List Bytes
  | [] => []
  | x :: r =>
    if x = 10 then [x] :: lines r
    else
      match lines r with
      | [] => [[x]]
      | l :: ls => (x :: l) :: ls

def dashes : List Char := List.replicate 5 '-'

def beginning : List Char := "-----BEGIN ".toList

def ending : List Char := "-----END ".toList

def hasDashes : List Char → Bool
  | [] => false
  | c :: r => dashes.isPrefixOf (c :: r) || hasDashes r

/-- What an opening line says after `-----BEGIN `: `none` unless dashes close the label. -/
def labelOf (rest : List Char) : Option String :=
  if hasDashes rest then some (String.ofList (rest.takeWhile (· ≠ '-'))) else none

/-- The blocks of a text line by line, `none` for the first that cannot be read; nothing is read
after that. An open block is a label and the base-64 symbols so far. -/
def scan : Option (String × Bytes) → List Bytes → List (Option Block)
  | none, [] => []
  | some _, [] => [none]
  | none, l :: ls =>
    match Utf8.decode l with
    | none => [none]
    | some text =>
      if beginning.isPrefixOf text then
        match labelOf (text.drop beginning.length) with
        | none => [none]
        | some label => scan (some (label, [])) ls
      else scan none ls
  | some (label, symbols), l :: ls =>
    match Utf8.decode l with
    | none => [none]
    | some text =>
      if ending.isPrefixOf text then
        match Base64.decode symbols with
        | none => [none]
        | some contents => some ⟨label, contents⟩ :: scan none ls
      else scan (some (label, symbols ++ Utf8.encode (trimEnd text))) ls

def read (input : Bytes) : List (Option Block) := scan none (lines input)

/-- The readable blocks with one of these labels. A block that cannot be read ends the text, but is
a fault unless a block was found before it. -/
def collect (labels : List String) (found : List Bytes) : List (Option Block) → Option (List Bytes)
  | [] => some found
  | none :: _ => if found = [] then none else some found
  | some b :: r => collect labels (if b.label ∈ labels then found ++ [b.contents] else found) r

def contents (labels : List String) (missing : PemProblem) (input : Bytes) :
    Except TrustError (List Bytes) :=
  match collect labels [] (read input) with
  | none => .error (.pem .unreadable)
  | some [] => .error (.pem missing)
  | some found => .ok found

def looksArmoured (input : Bytes) : Bool :=
  ((Utf8.ofString "-----BEGIN").isPrefixOf
    (input.dropWhile fun x ↦ x.toNat < 0x80 && isAsciiBlank (Char.ofNat x.toNat)))

end Pem

namespace Certificate

def armourLabels : List String := ["CERTIFICATE", "TRUSTED CERTIFICATE"]

def ofPem (input : Bytes) : Except TrustError Certificate :=
  match Pem.read input with
  | some b :: _ =>
    if b.label ∈ "X509 CERTIFICATE" :: armourLabels then ofDer b.contents
    else .error (.pem (.wrongLabel b.label))
  | _ => .error (.pem .malformed)

def parse (input : Bytes) : Except TrustError Certificate :=
  if input = [] then .error (.der .emptyInput)
  else if Pem.looksArmoured input then ofPem input
  else ofDer input

def parseChain (input : Bytes) : Except TrustError (List Certificate) := do
  let blocks ← Pem.contents armourLabels .noCertificate input
  blocks.mapM ofDer

def parseBundle (input : Bytes) : List Certificate :=
  match Pem.contents armourLabels .noCertificate input with
  | .error _ => []
  | .ok blocks => blocks.filterMap fun b ↦ (ofDer b).toOption

end Certificate

end CertPath
