import KermlText.KindSet
import KermlText.Rule

/-!
What a rule is made of. A rule has alternatives, an alternative is a row of elements, and an element
stands for some tokens, for another rule, or for a group of elements with a say on how often it
occurs. Labels say under which field of the tree the matched children are found again.
-/

namespace KermlText

/-- What a relationship says, whichever of its spellings was used. -/
inductive Relation where
  | specializes | subsets | redefines | references | crosses | typing | conjugates | annotates
  deriving DecidableEq

namespace Relation

def all : List Relation :=
  [.specializes, .subsets, .redefines, .references, .crosses, .typing, .conjugates, .annotates]

def name : Relation → String
  | .specializes => "specializes"
  | .subsets => "subsets"
  | .redefines => "redefines"
  | .references => "references"
  | .crosses => "crosses"
  | .typing => "typed by"
  | .conjugates => "conjugates"
  | .annotates => "annotates"

def ofName? (s : String) : Option Relation :=
  all.find? (fun r => r.name == s)

end Relation

inductive Element where
  /-- One token of the kind. The kind `eof` stands for the end of input and takes nothing. -/
  | token (kind : Kind)
  | oneOf (kinds : KindSet)
  /-- A token that spells a relationship. -/
  | relation (kind : Kind) (relation : Relation)
  /-- A token of the comment channel. -/
  | comment
  | rule (rule : Rule)
  /-- A left-recursive rule that takes only operators of this level or tighter ones. -/
  | ruleAt (rule : Rule) (level : Nat)
  | optional (element : Element)
  /-- `min` times or more. A list with `resync` skips tokens that it cannot use; any other list
  stops and leaves them to what comes behind it. -/
  | repeated (element : Element) (min : Nat) (resync : Bool)
  | seq (elements : List Element)
  /-- The children that `element` added go under `name`: all of them if `many`, else the first. -/
  | labeled (name : String) (many : Bool) (element : Element)

structure Alternative where
  elements : List Element
  /-- Stands for operators of a precedence table; never chosen by lookahead. -/
  leftRecursive : Bool

structure Definition where
  rule : Rule
  /-- The children go straight into the node that mentions the rule. -/
  inline : Bool
  /-- Lookahead inside the rule sees comments. -/
  comments : Bool
  alternatives : List Alternative

namespace Definition

/-- A rule that nothing was said about: a node without alternatives. -/
def blank (r : Rule) : Definition := ⟨r, false, false, []⟩

/-- The alternatives that lookahead may choose, by their place in the list. -/
def choices (d : Definition) : List Nat :=
  (List.range d.alternatives.length).filter fun i =>
    d.alternatives[i]?.any fun a => !a.leftRecursive

end Definition

mutual

/-- Whether a label over this element catches tokens. Otherwise it catches nodes. -/
def Element.catchesTokens : Element → Bool
  | .token _ | .oneOf _ | .relation _ _ | .comment => true
  | .rule _ | .ruleAt _ _ => false
  | .optional e | .repeated e _ _ | .labeled _ _ e => e.catchesTokens
  | .seq [] => false
  | .seq (e :: es) => e.catchesTokens && allCatchTokens es

def allCatchTokens : List Element → Bool
  | [] => true
  | e :: es => e.catchesTokens && allCatchTokens es

end

/-- The relation that a label over this element records. -/
def Element.relation? : Element → Option Relation
  | .relation _ r => some r
  | _ => none

end KermlText
