import CertPath.Net.Incoming
import CertPath.Text.Utf8

namespace CertPath.Net.Ftp

abbrev Line := List Char

/-- What a server sends at once, and whether it then hangs up; else it waits. -/
structure Turn where
  text : Bytes
  hangsUp : Bool
  deriving DecidableEq, Repr

inductive Channel
  | refused
  | unreachable
  | carries (file : Incoming)
  deriving DecidableEq, Repr

/-- A server, which knows the lines sent so far. -/
structure Server where
  greeting : Turn
  answer : List Line → Turn
  channel : List Line → Channel

inductive Trouble
  | timeout
  | bad
  | tooLarge
  | overflow
  | hang
  deriving DecidableEq, Repr

structure Dialog where
  sent : List Line
  unread : Bytes
  hungUp : Bool
  deriving DecidableEq, Repr

abbrev Session := ExceptT Trouble (StateM Dialog)

def lines (s : List Char) : List Line :=
  (s.foldr (fun c ls ↦
    if c = '\n' then [] :: ls
    else
      match ls with
      | [] => [[c]]
      | l :: ls => (c :: l) :: ls) [[]]).dropLast

def Dialog.take (server : Server) (d : Dialog) (l : Line) : Dialog :=
  let turn := server.answer (d.sent ++ [l])
  ⟨d.sent ++ [l], d.unread ++ turn.text, d.hungUp || turn.hangsUp⟩

def send (server : Server) (command : List Char) : Session Unit :=
  modify fun d ↦ (lines (command ++ ['\r', '\n'])).foldl (Dialog.take server) d

def cutLine : Bytes → Option (Bytes × Bytes)
  | [] => none
  | x :: r => if x = 10 then some ([x], r) else (cutLine r).map fun p ↦ (x :: p.1, p.2)

def codeOf (line : Bytes) : Option Nat :=
  match line with
  | a :: b :: c :: _ =>
    if [a, b, c].all fun x ↦ 48 ≤ x.toNat && x.toNat ≤ 57 then
      some (([a, b, c].map fun x ↦ x.toNat - 48).foldl (fun n d ↦ 10 * n + d) 0)
    else none
  | _ => none

def lastLine (start : Bytes) : Nat → Bytes → Option (Bytes × Bytes)
  | 0, _ => none
  | n + 1, s => do
    let (line, r) ← cutLine s
    if 5 ≤ line.length && start.isPrefixOf line then some (line, r) else lastLine start n r

inductive Reading
  | short
  | malformed
  | reply (code : Nat) (line rest : Bytes)
  deriving DecidableEq, Repr

/-- Reads one reply. If its first line is not the last, the last is one in which the same code
stands before a blank. -/
def readReply (s : Bytes) : Reading :=
  match cutLine s with
  | none => .short
  | some (line, _) =>
    if line.length < 5 then .malformed
    else
      match codeOf line with
      | none => .malformed
      | some code =>
        match lastLine (line.take 3 ++ [32]) (s.length + 1) s with
        | none => .short
        | some (last, rest) => .reply code last rest

/-- Awaits a reply with one of these codes. With `silence` it fails when nothing comes. -/
def await (silence : Trouble) (codes : List Nat) : Session (Nat × Bytes) := do
  let d ← get
  match readReply d.unread with
  | .short => throw (if d.hungUp then .bad else silence)
  | .malformed => throw .bad
  | .reply code line rest =>
    set { d with unread := rest }
    if code ∈ codes then return (code, line) else throw .bad

def octet (s : List Char) : Option (Nat × List Char) :=
  let (digits, r) := s.span Char.isDigit
  let n := digits.foldl (fun n c ↦ 10 * n + (c.toNat - 48)) 0
  if digits = [] || 255 < n then none else some (n, r)

def octets : Nat → List Char → Bool
  | 0, _ => false
  | n + 1, s =>
    match octet s with
    | some (_, ',' :: r) => octets n r
    | some (_, ')' :: _) => n = 0
    | _ => false

def namesAddress : List Char → Bool
  | [] => false
  | c :: r => (c = '(' && octets 6 r) || namesAddress r

/-- Logs in, and wants files as they are. Reading has a deadline only after the greeting. -/
def enter (server : Server) (user password : List Char) : Session Unit := do
  let _ ← await .hang [220]
  send server ("USER ".toList ++ user)
  let (code, _) ← await .timeout [230, 331]
  if code = 331 then
    send server ("PASS ".toList ++ password)
    let _ ← await .timeout [230]
  send server "TYPE I".toList
  let _ ← await .timeout [200]

def openFile (server : Server) (path : List Char) : Session Incoming := do
  send server "PASV".toList
  let (_, line) ← await .timeout [227]
  if !((Utf8.decode line).map namesAddress).getD false then throw .bad
  send server ("RETR ".toList ++ path)
  match server.channel (← get).sent with
  | .refused => throw .bad
  | .unreachable => throw .timeout
  | .carries file =>
    let _ ← await .timeout [150, 125]
    return file

def drain (max : UInt64) (file : Incoming) : Except Trouble Bytes :=
  match file.read max with
  | .ok b => .ok b
  | .error .cut => .error .timeout
  | .error (.tooLarge _) => .error .tooLarge
  | .error .overflow => .error .overflow

def readFile (server : Server) (max : UInt64) (file : Incoming) : Session Bytes := do
  let b ← ExceptT.mk (pure (drain max file))
  let _ ← await .timeout [226, 250]
  send server "QUIT".toList
  return b

def retrieve (server : Server) (user password path : List Char) (max : UInt64) : Session Bytes := do
  enter server user password
  let file ← openFile server path
  readFile server max file

def fetch (server : Server) (user password path : List Char) (max : UInt64) :
    Except Trouble Bytes × List Line :=
  let (r, d) := (retrieve server user password path max).run
    ⟨[], server.greeting.text, server.greeting.hangsUp⟩
  (r, d.sent)

end CertPath.Net.Ftp
