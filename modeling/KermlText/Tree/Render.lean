import KermlText.Text.Quoted
import KermlText.Tree.Node

/-!
Trees as indented lists: one line for each node and each token, two blanks for each level, and a mark
behind nodes in which the parser recovered.
-/

namespace KermlText.Node

def line (depth : Nat) (s : String) : String :=
  String.ofList (List.replicate (2 * depth) ' ') ++ s ++ "\n"

mutual

def lines (depth : Nat) : Node → String
  | .mk r cs _ e => line depth (r.name ++ (if e then " !" else "")) ++ linesOf (depth + 1) cs

def linesOf (depth : Nat) : List Child → String
  | [] => ""
  | .token t :: cs => line depth (Text.quote t.text) ++ linesOf depth cs
  | .node n :: cs => n.lines depth ++ linesOf depth cs

end

def render (n : Node) : String := n.lines 0

end KermlText.Node
