import KermlText.Rules.Phrases

/-!
Connectors, bindings, successions and flows, and the bodies of functions. The parts behind the words
of a flow are the same for a plain flow and for one that is a succession too.
-/

namespace KermlText.Rules

open Phrase

/-- Rows that begin with the prefix of a feature and the given words. -/
def worded (words : List Kind) (tails : List (List Element)) : List (List Element) :=
  tails.map fun tail => ref .featurePrefix :: words.map tok ++ tail

def flowTails : List (List Element) :=
  [[identification, featureRelationships, opt (seq [tok .kwOf, nameField "item"]), tok .kwFrom,
    field "source" (ref .featureChain), tok .kwTo, field "target" (ref .featureChain), body],
   [field "source" (ref .featureChain), tok .kwTo, field "target" (ref .featureChain), body]]

/-- Two connector ends with a token between them. -/
def ends (between : Kind) : List Element :=
  [field "source" (ref .connectorEnd), tok between, field "target" (ref .connectorEnd)]

/-- A declaration in front of its word, or nothing. -/
def optDeclaration (word : Kind) : Element :=
  opt (seq [identification, featureRelationships, tok word])

def connectors : List Definition :=
  [node .connectorEnd
     [[field "multiplicity" (opt (ref .multiplicity)), field "reference" (ref .featureChain)]],
   inline .connectorEnds
     [tok .kwFrom :: ends .kwTo,
      [tok .lParen, separated "ends" .connectorEnd, tok .rParen]],
   node .connector
     (worded [.kwConnector]
       [[identification, featureRelationships, ref .connectorEnds, body],
        ends .kwTo ++ [body],
        [identification, featureRelationships, body]]),
   node .bindingConnector
     (worded [.kwBinding] [optDeclaration .kwOf :: ends .eq ++ [body]]),
   node .succession
     (worded [.kwSuccession] [optDeclaration .kwFirst :: ends .kwThen ++ [body]] ++
       [field "first" (tok .kwFirst) :: ends .kwThen ++ [body]]),
   node .itemFlow (worded [.kwFlow] flowTails),
   node .successionItemFlow (worded [.kwSuccession, .kwFlow] flowTails),
   inline .functionBody
     [[tok .semicolon],
      [tok .lBrace, fields "members" (members (ref .functionBodyMember)),
       field "result" (opt (ref .ownedExpression)), tok .rBrace]],
   inline .functionBodyMember (anyOf [.namespaceMember, .returnParameterMember])]

end KermlText.Rules
