import KermlText.Rules.Phrases

/-!
Relationships that are declared on their own, with both ends named.
-/

namespace KermlText.Rules

open Phrase

/-- The word `word` with an identification, or nothing. -/
def optNamed (word : Kind) : Element :=
  opt (seq [tok word, identification])

def optSpecialization : Element := opt (ref .specializationPrefix)

def relationships : List Definition :=
  [inline .relationshipElement
     (anyOf
        [.subclassificationDeclaration, .conjugationDeclaration, .disjoiningDeclaration,
         .featureTypingDeclaration, .subsettingDeclaration, .redefinitionDeclaration, .dependency]),
   inline .specializationPrefix [[tok .kwSpecialization, identification]],
   node .subclassificationDeclaration
     (spelled
        [optSpecialization, field "keyword" (oneOf [.kwSubclassifier, .kwSubtype]),
         nameField "specific"]
        .specializes [nameField "general", body]),
   node .conjugationDeclaration
     (spelled [optNamed .kwConjugation, tok .kwConjugate, nameField "conjugate"]
        .conjugates [nameField "original", body]),
   node .disjoiningDeclaration
     [[optNamed .kwDisjoining, tok .kwDisjoint, nameField "disjoined", tok .kwFrom,
       nameField "disjoining", body]],
   node .featureTypingDeclaration
     (spelled [optSpecialization, tok .kwTyping, nameField "typed"]
        .typing [nameField "type", body]),
   node .subsettingDeclaration
     (spelled [optSpecialization, tok .kwSubset, nameField "subsetting"]
        .subsets [nameField "subsetted", body]),
   node .redefinitionDeclaration
     (spelled [optSpecialization, tok .kwRedefinition, nameField "redefining"]
        .redefines [nameField "redefined", body]),
   node .dependency
     [[tok .kwDependency, opt (seq [identification, tok .kwFrom]),
       separated "clients" .qualifiedName, tok .kwTo, separated "suppliers" .qualifiedName, body]]]

end KermlText.Rules
