import KermlText.Tree.Node

/-!
Shapes: what a tree says to someone who reads only rules and fields. Children without a field do not
show, and a relationship shows as what it says, so two spellings of it have one shape.
-/

namespace KermlText

inductive Shape where
  | token (text : String)
  | relation (relation : Relation)
  | list (items : List Shape)
  | node (rule : Rule) (fields : List (String × Shape))

namespace Shape

mutual

def same : Shape → Shape → Bool
  | .token s, .token t => s == t
  | .relation r, .relation q => r == q
  | .list xs, .list ys => allSame xs ys
  | .node r fs, .node q gs => r == q && fieldsSame fs gs
  | _, _ => false

def allSame : List Shape → List Shape → Bool
  | [], [] => true
  | x :: xs, y :: ys => x.same y && allSame xs ys
  | _, _ => false

def fieldsSame : List (String × Shape) → List (String × Shape) → Bool
  | [], [] => true
  | (a, x) :: fs, (b, y) :: gs => a == b && x.same y && fieldsSame fs gs
  | _, _ => false

end

mutual

/-- One line, no blanks: `Rule(field=value,…)`, texts between backquotes, lists between brackets. -/
def render : Shape → String
  | .token s => "`" ++ s ++ "`"
  | .relation r => "<" ++ r.name ++ ">"
  | .list xs => "[" ++ ",".intercalate (renderAll xs) ++ "]"
  | .node r fs => r.name ++ "(" ++ ",".intercalate (renderFields fs) ++ ")"

def renderAll : List Shape → List String
  | [] => []
  | x :: xs => x.render :: renderAll xs

def renderFields : List (String × Shape) → List String
  | [] => []
  | (a, x) :: fs => (a ++ "=" ++ x.render) :: renderFields fs

end

/-- What a field shows, given the shapes of all children. -/
def ofSlot (children : List Shape) : Slot → Option Shape
  | .one i => children[i]?
  | .many is => some (.list (is.filterMap fun i => children[i]?))
  | .relation r _ => some (.relation r)

end Shape

namespace Node

mutual

def shape : Node → Shape
  | .mk r cs fs _ =>
    let shapes := shapesOf cs
    .node r (fs.filterMap fun f => (Shape.ofSlot shapes f.2).map fun x => (f.1, x))

def shapesOf : List Child → List Shape
  | [] => []
  | .token t :: cs => .token t.text :: shapesOf cs
  | .node n :: cs => n.shape :: shapesOf cs

end

end Node

end KermlText
