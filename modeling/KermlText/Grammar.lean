import KermlText.Grammar.Precedence
import KermlText.Grammar.Sets
import KermlText.RuleMap

/-!
Grammars: definitions, precedence tables, and the sets that lookahead works with. A grammar is made by
`build` only, so its sets are always those of its definitions.
-/

namespace KermlText

structure Grammar where
  definitions : RuleMap Definition
  tables : RuleMap (Option Table)
  nullableRules : RuleSet
  firstSets : RuleMap KindSet
  followSets : RuleMap KindSet

namespace Grammar

/-- The last definition of a rule counts. Each table adds its alternatives to those of its rule, and
of two tables for one rule the last is the one that is looked up. -/
def build (defs : List Definition) (tables : List Table) : Grammar :=
  let definitions : RuleMap Definition := .tabulate fun r =>
    let d := (defs.reverse.find? (fun d => d.rule = r)).getD (.blank r)
    { d with alternatives := d.alternatives ++
        (tables.filter (fun t => t.rule = r)).flatMap Table.alternatives }
  let rows : RuleMap (List (List Element)) := .tabulate fun r =>
    (definitions.get r).alternatives.map (·.elements)
  let nullable := leastNullable rows.get
  let first := leastFirst rows.get nullable.contains
  let follow := leastFollow rows.get nullable.contains first.get
  { definitions := definitions
    tables := .tabulate fun r => tables.reverse.find? (fun t => t.rule = r)
    nullableRules := nullable
    firstSets := .tabulate first.get
    followSets := .tabulate follow.get }

def definition (g : Grammar) (r : Rule) : Definition := g.definitions.get r

def alternatives (g : Grammar) (r : Rule) : List Alternative := (g.definition r).alternatives

def table? (g : Grammar) (r : Rule) : Option Table := g.tables.get r

def nullable (g : Grammar) (r : Rule) : Bool := g.nullableRules.contains r

def first (g : Grammar) (r : Rule) : KindSet := g.firstSets.get r

def follow (g : Grammar) (r : Rule) : KindSet := g.followSets.get r

/-- The kinds that an element may start with. -/
def firstOf (g : Grammar) (e : Element) : KindSet := e.firstKinds g.nullable g.first

def isNullable (g : Grammar) (e : Element) : Bool := e.isNullable g.nullable

def firstOfRow (g : Grammar) (es : List Element) : KindSet := rowFirstKinds g.nullable g.first es

def rowNullable (g : Grammar) (es : List Element) : Bool := allNullable g.nullable es

/-- The alternatives that lookahead may choose, by their place in the list. -/
def choices (g : Grammar) (r : Rule) : List Nat := (g.definition r).choices

end Grammar

end KermlText
