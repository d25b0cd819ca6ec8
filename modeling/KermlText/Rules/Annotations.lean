import KermlText.Rules.Phrases

/-!
Comments, documentation, textual representations and metadata. The first three take a token of the
comment channel as their body, so lookahead inside them sees comments.
-/

namespace KermlText.Rules

open Phrase

def annotations : List Definition :=
  [inline .annotationElement
     (anyOf [.comment, .documentation, .textualRepresentation, .metadataFeature]),
   inline .aboutClause [[tok .kwAbout, separated "about" .qualifiedName]],
   inline .localeClause [[tok .kwLocale, field "locale" (tok .string)]],
   commented .comment
     [[tok .kwComment, identification, opt (ref .aboutClause), opt (ref .localeClause),
       field "body" commentBody]],
   commented .documentation
     [[tok .kwDoc, identification, opt (ref .localeClause), field "body" commentBody]],
   commented .textualRepresentation
     [[tok .kwRep, identification, tok .kwLanguage, field "language" (tok .string),
       field "body" commentBody],
      [tok .kwLanguage, field "language" (tok .string), field "body" commentBody]],
   node .metadataFeature
     (spelled [] .annotates
        [field "declaration" (opt (ref .metadataTyping)), nameField "type", opt (ref .aboutClause),
         body]),
   node .metadataTyping (spelled [field "identification" (ref .identification)] .typing [])]

end KermlText.Rules
