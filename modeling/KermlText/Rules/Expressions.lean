import KermlText.Grammar.Precedence
import KermlText.Rules.Phrases

/-!
Expressions. `ownedExpression` and `primaryExpression` are left-recursive: the alternatives here are
their operands, and the two precedence tables hold their operators, loose tiers first. The other
rules after an operator say what follows it.
-/

namespace KermlText.Rules

open Phrase

def binary (level : Nat) (kinds : List Kind) : Tier :=
  ⟨level, .binary, false, kinds.map fun k => (k, .operatorExpression)⟩

def binaryRight (level : Nat) (kinds : List Kind) : Tier :=
  { binary level kinds with rightAssoc := true }

def typeSuffix (level : Nat) (kinds : List Kind) : Tier :=
  ⟨level, .typeSuffix, false, kinds.map fun k => (k, .classificationExpression)⟩

def suffix (level : Nat) (operators : List (Kind × Rule)) : Tier :=
  ⟨level, .suffix, false, operators⟩

def operatorTable : Table where
  rule := .ownedExpression
  tiers :=
    [binary 1 [.questionQuestion],
     binary 2 [.kwImplies],
     binary 3 [.kwOr, .pipe],
     binary 4 [.kwXor],
     binary 5 [.kwAnd, .amp],
     binary 6 [.eqEq, .bangEq, .eqEqEq, .bangEqEq],
     typeSuffix 7 [.kwIstype, .kwHastype, .atSign, .atAt, .kwAs, .kwMeta],
     binary 8 [.lt, .gt, .ltEq, .gtEq],
     binary 9 [.dotDot],
     binary 10 [.plus, .minus],
     binary 11 [.star, .slash, .percent],
     binaryRight 12 [.starStar, .caret]]

def suffixTable : Table where
  rule := .primaryExpression
  tiers :=
    [suffix 13
      [(.dot, .featureChainExpression),
       (.hash, .indexExpression),
       (.lBracket, .bracketExpression),
       (.arrow, .arrowInvocationExpression),
       (.lParen, .invocationExpression)]]

def expressions : List Definition :=
  [node .ownedExpression
     (anyOf
        [.conditionalExpression, .unaryExpression, .selfClassificationExpression,
         .primaryExpression]),
   node .operatorExpression [[field "right" (ref .ownedExpression)]],
   node .classificationExpression [[field "type" (ref .qualifiedName)]],
   node .conditionalExpression
     [[tok .kwIf, field "condition" (ref .ownedExpression), tok .question,
       field "then" (ref .ownedExpression), tok .kwElse, field "else" (ref .ownedExpression)]],
   node .unaryExpression
     [[field "operator" (oneOf [.plus, .minus, .tilde, .kwNot, .kwAll]),
       field "operand" (ref .primaryExpression)]],
   node .selfClassificationExpression
     [[field "operator" (oneOf [.kwIstype, .kwHastype, .atSign, .atAt, .kwAs, .kwMeta]),
       field "type" (ref .qualifiedName)]],
   node .primaryExpression
     (anyOf
        [.nullExpression, .literalExpression, .sequenceExpression, .bodyExpression, .newExpression,
         .featureReferenceExpression]),
   node .featureChainExpression
     [[field "member" (ref .qualifiedName)],
      [tok .question, field "select" (ref .bodyExpression)],
      [field "collect" (ref .bodyExpression)]],
   node .indexExpression [[tok .lParen, separated "indices" .ownedExpression, tok .rParen]],
   node .bracketExpression [[separated "indices" .ownedExpression, tok .rBracket]],
   node .arrowInvocationExpression
     [[field "function" (ref .qualifiedName), field "arguments" (ref .argumentList)],
      [field "function" (ref .qualifiedName), field "body" (ref .bodyExpression)],
      [field "function" (ref .qualifiedName)]],
   node .invocationExpression [[opt (ref .arguments), tok .rParen]],
   node .nullExpression [[tok .kwNull], [tok .lParen, tok .rParen]],
   node .literalExpression
     [[field "value" (oneOf [.integer, .decimal, .string, .kwTrue, .kwFalse, .star])]],
   node .sequenceExpression
     [[tok .lParen, separated "elements" .ownedExpression, opt (tok .comma), tok .rParen]],
   node .bodyExpression
     [[tok .lBrace, fields "parameters" (many (ref .bodyParameter)),
       field "result" (opt (ref .ownedExpression)), tok .rBrace]],
   node .bodyParameter
     [[field "direction" (tok .kwIn), field "identification" (ref .identification),
       fields "specializations" (many (ref .featureRelationship)), tok .semicolon]],
   node .newExpression
     [[tok .kwNew, field "type" (ref .qualifiedName), field "arguments" (ref .argumentList)]],
   node .featureReferenceExpression [[field "reference" (ref .qualifiedName)]],
   node .argumentList [[tok .lParen, opt (ref .arguments), tok .rParen]],
   inline .arguments
     [[fields "arguments" (ref .argument),
       many (seq [tok .comma, fields "arguments" (ref .argument)])]],
   inline .argument (anyOf [.namedArgument, .positionalArgument]),
   node .namedArgument [[field "name" (tok .ident), tok .eq, field "value" (ref .ownedExpression)]],
   node .positionalArgument [[field "value" (ref .ownedExpression)]]]

end KermlText.Rules
