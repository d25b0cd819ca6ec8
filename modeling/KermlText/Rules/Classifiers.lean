import KermlText.Rules.Phrases

/-!
Types and classifiers. Each kind of classifier has its own words in front of one common declaration;
functions and predicates have bodies with a result.
-/

namespace KermlText.Rules

open Phrase

def classifier (r : Rule) (words : List Kind) (body : Rule) : Definition :=
  node r
    [field "modifier" (opt (tok .kwAbstract)) ::
      words.map tok ++ [ref .classifierDeclaration, ref body]]

def classifiers : List Definition :=
  [inline .classifierElement
     (anyOf
        [.typeDecl, .classifierDecl, .classDecl, .dataTypeDecl, .structureDecl, .associationDecl,
         .associationStructureDecl, .behaviorDecl, .functionDecl, .predicateDecl, .interactionDecl,
         .metaclassDecl]),
   inline .classifierDeclaration
     [[identification, field "multiplicity" (opt (ref .multiplicity)),
       fields "specializations" (many (ref .classifierRelationship))]],
   classifier .typeDecl [.kwType] .namespaceBody,
   classifier .classifierDecl [.kwClassifier] .namespaceBody,
   classifier .classDecl [.kwClass] .namespaceBody,
   classifier .dataTypeDecl [.kwDatatype] .namespaceBody,
   classifier .structureDecl [.kwStruct] .namespaceBody,
   classifier .associationDecl [.kwAssoc] .namespaceBody,
   classifier .associationStructureDecl [.kwAssoc, .kwStruct] .namespaceBody,
   classifier .behaviorDecl [.kwBehavior] .namespaceBody,
   classifier .functionDecl [.kwFunction] .functionBody,
   classifier .predicateDecl [.kwPredicate] .functionBody,
   classifier .interactionDecl [.kwInteraction] .namespaceBody,
   classifier .metaclassDecl [.kwMetaclass] .namespaceBody,
   inline .classifierRelationship
     (anyOf
        [.specializationPart, .conjugationPart, .disjoiningPart, .unioningPart, .intersectingPart,
         .differencingPart]),
   node .specializationPart (spelled [] .specializes [separated "targets" .qualifiedName]),
   node .conjugationPart (spelled [] .conjugates [nameField "target"]),
   node .disjoiningPart [[tok .kwDisjoint, tok .kwFrom, separated "targets" .qualifiedName]],
   node .unioningPart [[tok .kwUnions, separated "targets" .qualifiedName]],
   node .intersectingPart [[tok .kwIntersects, separated "targets" .qualifiedName]],
   node .differencingPart [[tok .kwDifferences, separated "targets" .qualifiedName]]]

end KermlText.Rules
