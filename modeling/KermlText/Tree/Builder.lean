import KermlText.Tree.Node

/-!
A node in the making. Children are only ever added at the end, and a field is filled by pointing at
children that are there already, so what a field points at stays where it is. Nodes of skipped tokens
are never pointed at.
-/

namespace KermlText

structure Builder where
  rule : Rule
  children : List Child
  fields : Fields
  error : Bool

namespace Builder

def start (r : Rule) : Builder := ⟨r, [], [], false⟩

def size (b : Builder) : Nat := b.children.length

def push (b : Builder) (c : Child) : Builder := { b with children := b.children ++ [c] }

def pushToken (b : Builder) (t : Token) : Builder := b.push (.token t)

def pushNode (b : Builder) (n : Node) : Builder := b.push (.node n)

def pushNode? (b : Builder) : Option Node → Builder
  | some n => b.pushNode n
  | none => b

def markError (b : Builder) : Builder := { b with error := true }

/-- Whether a label catches a child: tokens or nodes as asked, but no skipped tokens. -/
def catches (tokens : Bool) : Child → Bool
  | .token _ => tokens
  | .node n => !tokens && n.rule != .error

/-- The places of the children since `start` that a label catches. -/
def caught (b : Builder) (start : Nat) (tokens : Bool) : List Nat :=
  (List.range' start (b.size - start)).filter fun i => b.children[i]?.any (catches tokens)

def fill (b : Builder) (name : String) (slot : Slot) : Builder :=
  { b with fields := b.fields ++ [(name, slot)] }

/-- A list field grows at its end. A field that is no list stays what it is. -/
def extend (is : List Nat) : Slot → Slot
  | .many js => .many (js ++ is)
  | slot => slot

/-- The children since `start` go under `name`. A single field keeps the first child that it ever
got; a list field is there even when it is empty. -/
def label (b : Builder) (name : String) (many : Bool) (start : Nat) (tokens : Bool)
    (relation : Option Relation) : Builder :=
  let is := b.caught start tokens
  if many then
    if b.fields.any (fun f => f.1 == name) then
      { b with fields := b.fields.map fun f => if f.1 == name then (f.1, extend is f.2) else f }
    else b.fill name (.many is)
  else
    match is with
    | [] => b
    | i :: _ =>
      if b.fields.any (fun f => f.1 == name) then b
      else
        match relation with
        | some r => b.fill name (.relation r i)
        | none => b.fill name (.one i)

def pushLabeledNode (b : Builder) (name : String) (n : Node) : Builder :=
  (b.pushNode n).label name false b.size false none

def pushLabeledToken (b : Builder) (name : String) (t : Token) : Builder :=
  (b.pushToken t).label name false b.size true none

def finish (b : Builder) : Node := .mk b.rule b.children b.fields b.error

/-- Opens a finished node again. -/
def reopen (n : Node) : Builder := ⟨n.rule, n.children, n.fields, n.isError⟩

/-- The one node inside, if there is nothing else: no other child, no field, no mark. -/
def single? (b : Builder) : Option Node :=
  match b.children with
  | [.node n] => if b.fields.isEmpty && !b.error then some n else none
  | _ => none

/-- The one node inside opened again, or the builder itself if there is something else. -/
def unwrapped (b : Builder) : Builder :=
  match b.single? with
  | some n => reopen n
  | none => b

@[simp] theorem reopen_finish (b : Builder) : reopen b.finish = b := rfl

@[simp] theorem finish_reopen (n : Node) : (reopen n).finish = n := by
  cases n; rfl

end Builder

end KermlText
