import KermlText.Rules.Phrases

/-!
Features and what a feature declaration says about other elements: types, subsetting, redefinition,
chaining, and so on. A feature may go without its word; all other kinds of feature have one.
-/

namespace KermlText.Rules

open Phrase

def directions : List Kind := [.kwIn, .kwOut, .kwInout]

def modifiers : List Kind :=
  [.kwAbstract, .kwComposite, .kwPortion, .kwConst, .kwDerived, .kwEnd, .kwVar, .kwMember]

def orderings : List Kind := [.kwOrdered, .kwNonunique]

def keywordFeature (r : Rule) (word : Kind) (body : Rule) : Definition :=
  node r [[ref .featurePrefix, tok word, identification, ref .featureTail, ref body]]

def features : List Definition :=
  [inline .featureElement
     (anyOf
        [.feature, .step, .expressionDeclaration, .booleanExpression, .invariant, .connector,
         .bindingConnector, .succession, .itemFlow, .successionItemFlow]),
   inline .featurePrefix
     [[field "direction" (opt (oneOf directions)), fields "modifiers" (many (oneOf modifiers))]],
   inline .featureTail
     [[field "multiplicity" (opt (ref .multiplicity)), fields "ordering" (many (oneOf orderings)),
       featureRelationships, field "multiplicity" (opt (ref .multiplicity)),
       fields "ordering" (many (oneOf orderings)), field "value" (opt (ref .featureValue))]],
   node .feature
     [[ref .featurePrefix, tok .kwFeature, identification, ref .featureTail, body],
      [ref .featurePrefix, field "identification" (ref .identification), ref .featureTail, body]],
   keywordFeature .step .kwStep .namespaceBody,
   keywordFeature .expressionDeclaration .kwExpr .functionBody,
   keywordFeature .booleanExpression .kwBool .functionBody,
   node .invariant
     [[ref .featurePrefix, tok .kwInv, field "negated" (opt (tok .kwNot)), identification,
       ref .featureTail, ref .functionBody]],
   node .featureValue
     [[field "operator" (oneOf [.eq, .colonEq]), field "value" (ref .ownedExpression)],
      [field "default" (tok .kwDefault), field "operator" (opt (oneOf [.eq, .colonEq])),
       field "value" (ref .ownedExpression)]],
   inline .featureRelationship
     (anyOf
        [.featureTyping, .subsetting, .redefinition, .referenceSubsetting, .crossSubsetting,
         .conjugationPart, .featureChaining, .featureInverting, .typeFeaturing, .disjoiningPart,
         .unioningPart, .intersectingPart, .differencingPart]),
   node .featureTyping (spelled [] .typing [separated "types" .qualifiedName]),
   node .subsetting (spelled [] .subsets [separated "targets" .qualifiedName]),
   node .redefinition (spelled [] .redefines [separated "targets" .qualifiedName]),
   node .referenceSubsetting (spelled [] .references [field "target" (ref .featureChain)]),
   node .crossSubsetting (spelled [] .crosses [field "target" (ref .featureChain)]),
   node .featureChaining [[tok .kwChains, field "chain" (ref .featureChain)]],
   node .featureInverting [[tok .kwInverse, tok .kwOf, nameField "target"]],
   node .typeFeaturing [[tok .kwFeatured, tok .kwBy, separated "targets" .qualifiedName]]]

end KermlText.Rules
