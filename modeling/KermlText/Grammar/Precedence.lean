import KermlText.Grammar.Element

/-!
Precedence tables. A left-recursive rule is given by its other alternatives, the operands, and by a
table of operators in tiers from loose to tight. An operator is followed by an operand that binds
tighter, by a type, or by whatever its own node rule says.
-/

namespace KermlText

inductive Form where
  /-- operand, operator, operand -/
  | binary
  /-- operand, operator, name of a type -/
  | typeSuffix
  /-- operand, operator, and the alternatives of the operator's node rule -/
  | suffix
  deriving DecidableEq

structure Tier where
  level : Nat
  form : Form
  rightAssoc : Bool
  /-- Operators with the rule of the node that each builds. -/
  operators : List (Kind × Rule)

namespace Tier

def tokens (t : Tier) : KindSet := .ofList (t.operators.map (·.1))

def node? (t : Tier) (k : Kind) : Option Rule :=
  (t.operators.find? (fun o => o.1 == k)).map (·.2)

/-- The loosest level that the right operand may use. -/
def operandLevel (t : Tier) : Nat := if t.rightAssoc then t.level else t.level + 1

end Tier

structure Table where
  rule : Rule
  tiers : List Tier

namespace Table

def operators (t : Table) : KindSet :=
  t.tiers.foldl (fun s tier => s ∪ tier.tokens) ∅

/-- The tier of an operator and the rule of the node that it builds. -/
def lookup (t : Table) (k : Kind) : Option (Tier × Rule) :=
  t.tiers.findSome? fun tier => (tier.node? k).map fun r => (tier, r)

def tierRows (t : Table) (tier : Tier) : List (List Element) :=
  match tier.form with
  | .binary => [[.rule t.rule, .oneOf tier.tokens, .ruleAt t.rule tier.operandLevel]]
  | .typeSuffix | .suffix => tier.operators.map fun o => [.rule t.rule, .token o.1, .rule o.2]

/-- The alternatives that the table stands for. -/
def alternatives (t : Table) : List Alternative :=
  (t.tiers.flatMap t.tierRows).map fun es => ⟨es, true⟩

end Table

end KermlText
