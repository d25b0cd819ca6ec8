import KermlText.Rules.Phrases

/-!
Names, chains of names, and multiplicities.
-/

namespace KermlText.Rules

open Phrase

def names : List Definition :=
  [node .identification
     [[tok .lt, field "short_name" (tok .ident), tok .gt, field "name" (opt (tok .ident))],
      [field "name" (tok .ident)]],
   node .qualifiedName
     [[fields "segments" (tok .ident), many (seq [tok .colonColon, fields "segments" (tok .ident)])]],
   node .featureChain
     [[fields "segments" (ref .qualifiedName),
       many (seq [tok .dot, fields "segments" (ref .qualifiedName)])]],
   node .multiplicity
     [[tok .lBracket, field "lower" (ref .multiplicityBound),
       opt (seq [tok .dotDot, field "upper" (ref .multiplicityBound)]), tok .rBracket]],
   node .multiplicityBound
     [[field "value" (oneOf [.integer, .star])], [field "value" (ref .qualifiedName)]]]

end KermlText.Rules
