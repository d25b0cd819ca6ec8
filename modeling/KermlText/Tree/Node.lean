import KermlText.Grammar.Element
import KermlText.Token

/-!
Trees. A node keeps the rule that made it, its children in the order of the text, and its fields:
names for some of the children, given by their places among the children. A mark says that the parser
had to recover right inside the node.
-/

namespace KermlText

/-- Where a field points among the children. -/
inductive Slot where
  | one (child : Nat)
  | many (children : List Nat)
  /-- A token that spells a relationship, whatever its spelling. -/
  | relation (relation : Relation) (child : Nat)
  deriving DecidableEq

/-- Fields in the order in which they were first filled. -/
abbrev Fields := List (String × Slot)

mutual

inductive Node where
  | mk (rule : Rule) (children : List Child) (fields : Fields) (error : Bool)

inductive Child where
  | node (node : Node)
  | token (token : Token)

end

namespace Child

def node? : Child → Option Node
  | .node n => some n
  | .token _ => none

def token? : Child → Option Token
  | .token t => some t
  | .node _ => none

end Child

namespace Node

def rule : Node → Rule
  | .mk r _ _ _ => r

def children : Node → List Child
  | .mk _ cs _ _ => cs

def fields : Node → Fields
  | .mk _ _ fs _ => fs

/-- Whether the parser recovered right inside this node. -/
def isError : Node → Bool
  | .mk _ _ _ e => e

def childNodes (n : Node) : List Node := n.children.filterMap Child.node?

mutual

/-- Whether the parser recovered anywhere in this tree. -/
def hasErrors : Node → Bool
  | .mk _ cs _ e => e || anyErrors cs

def anyErrors : List Child → Bool
  | [] => false
  | .token _ :: cs => anyErrors cs
  | .node n :: cs => n.hasErrors || anyErrors cs

end

mutual

/-- All tokens of the tree, in the order of the text. -/
def tokens : Node → List Token
  | .mk _ cs _ _ => tokensOf cs

def tokensOf : List Child → List Token
  | [] => []
  | .token t :: cs => t :: tokensOf cs
  | .node n :: cs => n.tokens ++ tokensOf cs

end

mutual

/-- All nodes of the tree, each in front of those inside it. -/
def descendants : Node → List Node
  | .mk r cs fs e => .mk r cs fs e :: descendantsOf cs

def descendantsOf : List Child → List Node
  | [] => []
  | .token _ :: cs => descendantsOf cs
  | .node n :: cs => n.descendants ++ descendantsOf cs

end

mutual

/-- Equal trees. The order of fields does not count. -/
def same : Node → Node → Bool
  | .mk r cs fs e, .mk r' cs' fs' e' =>
    r == r' && allSame cs cs' && fs.length == fs'.length &&
      fs.all (fun f => fs'.lookup f.1 == some f.2) && e == e'

def allSame : List Child → List Child → Bool
  | [], [] => true
  | .token t :: cs, .token t' :: cs' => t == t' && allSame cs cs'
  | .node n :: cs, .node n' :: cs' => n.same n' && allSame cs cs'
  | _, _ => false

end

/-! ### Fields -/

def slot? (n : Node) (name : String) : Option Slot := n.fields.lookup name

def hasField (n : Node) (name : String) : Bool := (n.slot? name).isSome

/-- The child under `name`, the first one of a list. -/
def field? (n : Node) (name : String) : Option Child :=
  match n.slot? name with
  | some (.one i) | some (.relation _ i) => n.children[i]?
  | some (.many is) => is.head?.bind fun i => n.children[i]?
  | none => none

/-- All children under `name`. -/
def fieldAll (n : Node) (name : String) : List Child :=
  match n.slot? name with
  | some (.one i) | some (.relation _ i) => n.children[i]?.toList
  | some (.many is) => is.filterMap fun i => n.children[i]?
  | none => []

def relation? (n : Node) (name : String) : Option Relation :=
  match n.slot? name with
  | some (.relation r _) => some r
  | _ => none

/-- The name that the node's identification gives it. -/
def name? (n : Node) : Option String := do
  let identification ← (← n.field? "identification").node?
  let token ← (← identification.field? "name").token?
  some token.text

/-! ### Text -/

/-- Token texts one behind the other, with a blank where the text had a gap. `stop` is where the
token before ended. -/
def joinFrom : Option Nat → List Token → String
  | _, [] => ""
  | stop, t :: ts =>
    (if stop.any (fun o => o != t.offset) then " " else "") ++ t.text ++ joinFrom (some t.stop) ts

def text (n : Node) : String := joinFrom none n.tokens

/-- From the first token's start to the last token's end. -/
def range? (n : Node) : Option (Nat × Nat) := do
  let first ← n.tokens.head?
  let last ← n.tokens.getLast?
  some (first.offset, last.stop)

end Node

end KermlText
