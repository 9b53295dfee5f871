namespace CertPath.Xml

/-- A part of a document: an element by its name without the qualifier, a text, a comment, or an
instruction. -/
inductive Node
  | element (name : String) (children : List Node)
  | text (s : List Char)
  | comment (s : List Char)
  | instruction
  deriving Repr

namespace Node

def name? : Node → Option String
  | element name _ => some name
  | _ => none

def ownText : Node → List Char
  | element _ children => children.flatMap fun n ↦
    match n with
    | text s => s
    | _ => []
  | _ => []

mutual

/-- The node and all nodes in it, each before those in it. -/
def descendants : Node → List Node
  | element name children => element name children :: allDescendants children
  | text s => [text s]
  | comment s => [comment s]
  | instruction => [instruction]

def allDescendants : List Node → List Node
  | [] => []
  | n :: ns => descendants n ++ allDescendants ns

end

end Node

end CertPath.Xml
