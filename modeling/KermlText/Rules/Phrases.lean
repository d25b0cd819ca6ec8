import KermlText.Grammar.Element

/-!
The words in which the rules are written: short names for elements, and the phrases that many rules
share. A relationship with two spellings makes two alternatives that differ in the spelling only and
record the same relation.
-/

namespace KermlText

namespace Relation

/-- The spellings of a relation, each a row of tokens. The first token of a row carries it. -/
def spellings : Relation → List (Kind × List Kind)
  | .specializes => [(.colonGt, []), (.kwSpecializes, [])]
  | .subsets => [(.colonGt, []), (.kwSubsets, [])]
  | .redefines => [(.colonGtGt, []), (.kwRedefines, [])]
  | .references => [(.colonColonGt, []), (.kwReferences, [])]
  | .crosses => [(.fatArrow, []), (.kwCrosses, [])]
  | .typing => [(.colon, []), (.kwTyped, [.kwBy])]
  | .conjugates => [(.tilde, []), (.kwConjugates, [])]
  | .annotates => [(.atSign, []), (.kwMetadata, [])]

end Relation

namespace Rules.Phrase

def tok (k : Kind) : Element := .token k

def oneOf (ks : List Kind) : Element := .oneOf (.ofList ks)

def ref (r : Rule) : Element := .rule r

def opt (e : Element) : Element := .optional e

def many (e : Element) : Element := .repeated e 0 false

/-- The list of a body: a stray token is reported and skipped there. -/
def members (e : Element) : Element := .repeated e 0 true

def seq (es : List Element) : Element := .seq es

def field (name : String) (e : Element) : Element := .labeled name false e

/-- A field that collects a list. -/
def fields (name : String) (e : Element) : Element := .labeled name true e

def commentBody : Element := .comment

/-- One or more `item`, with commas between them. -/
def separated (name : String) (item : Rule) : Element :=
  fields name (seq [ref item, many (seq [tok .comma, ref item])])

/-- One row per spelling of `r`, each with the same elements in front and behind. -/
def spelled (front : List Element) (r : Relation) (back : List Element) : List (List Element) :=
  r.spellings.map fun s => front ++ field "relation" (.relation s.1 r) :: s.2.map tok ++ back

/-- One row per rule. -/
def anyOf (rs : List Rule) : List (List Element) := rs.map fun r => [ref r]

def node (r : Rule) (rows : List (List Element)) : Definition :=
  ⟨r, false, false, rows.map fun es => ⟨es, false⟩⟩

def inline (r : Rule) (rows : List (List Element)) : Definition :=
  { node r rows with inline := true }

/-- A node rule whose lookahead sees comments. -/
def commented (r : Rule) (rows : List (List Element)) : Definition :=
  { node r rows with comments := true }

def visibility : List Kind := [.kwPublic, .kwPrivate, .kwProtected]

def nameField (name : String) : Element := field name (ref .qualifiedName)

def identification : Element := field "identification" (opt (ref .identification))

def body : Element := ref .namespaceBody

def featureRelationships : Element :=
  fields "specializations" (many (ref .featureRelationship))

end Rules.Phrase

end KermlText
