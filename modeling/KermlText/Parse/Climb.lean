import KermlText.Parse.Walk

/-!
Left-recursive rules: one operand, and then operators as long as they bind tightly enough. Each
operator makes a node around what was read so far, so a chain of operators grows to the left and its
length costs no depth.
-/

namespace KermlText

/-- The node of an operator behind `left`, so far. -/
def Builder.operator (rule : Rule) (left : Node) (t : Token) : Builder :=
  ((Builder.start rule).pushLabeledNode "left" left).pushLabeledToken "operator" t

namespace Setup

open Session

variable (u : Setup) (call : Call)

/-- One operand of the rule. A node with nothing but one node in it is that node. -/
def operand (scope : Scope) : Action Node := do
  let b ← u.body call scope (.start scope.rule)
  return b.single?.getD b.finish

/-- The node of an operator behind `left`, with what follows the operator. -/
def operation (tier : Tier) (rule : Rule) (scope : Scope) (left : Node) : Action Node := do
  let x ← get
  match u.stream.advance x.pos with
  | .error f => throw f
  | .ok (operator, pos) =>
    moveTo pos
    note (.matched (pos - 1))
    let b := Builder.operator rule left operator
    match tier.form with
    | .binary =>
      let b' ← call scope.rule tier.operandLevel scope b
      return (b'.label "right" false b.size false none).finish
    | .typeSuffix | .suffix =>
      return (← u.body call { scope with rule := rule } b).finish

/-- Operators of `level` or tighter behind `left`. Each takes a token. -/
def operations (table : Table) (level : Nat) (scope : Scope) : Nat → Node → Action Node
  | 0, _ => throw .endless
  | n + 1, left => do
    match table.lookup (← u.kind) with
    | none => return left
    | some (tier, rule) =>
      if tier.level < level then return left
      u.checkCancelled
      operations table level scope n (← u.operation call tier rule scope left)

def climb (table : Table) (level : Nat) (scope : Scope) : Action Node := do
  let inner := { scope with follow := scope.follow ∪ table.operators }
  let left ← u.operand call inner
  u.operations call table level inner (u.stream.size + 1) left

end Setup

end KermlText
