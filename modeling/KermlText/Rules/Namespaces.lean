import KermlText.Rules.Phrases

/-!
Namespaces and their members: packages, imports, aliases, and the groups of declarations that a body
may hold. A member is a visibility, or none, in front of one element.
-/

namespace KermlText.Rules

open Phrase

def member (r element : Rule) : Definition :=
  node r [[field "visibility" (opt (oneOf visibility)), field "element" (ref element)]]

def namespaces : List Definition :=
  [node .rootNamespace [[fields "members" (members (ref .namespaceMember)), tok .eof]],
   inline .namespaceMember
     (anyOf
        [.packageMember, .importMember, .aliasMember, .classifierMember, .featureMember,
         .relationshipMember, .annotationMember]),
   member .packageMember .packageElement,
   member .importMember .importElement,
   member .aliasMember .aliasDecl,
   member .classifierMember .classifierElement,
   member .featureMember .featureElement,
   member .relationshipMember .relationshipElement,
   member .annotationMember .annotationElement,
   node .returnParameterMember
     [[field "visibility" (opt (oneOf visibility)), tok .kwReturn, field "element" (ref .feature)]],
   inline .packageElement (anyOf [.packageDecl, .libraryPackage, .namespaceDecl]),
   node .packageDecl [[tok .kwPackage, identification, body]],
   node .libraryPackage
     [[field "standard" (opt (tok .kwStandard)), tok .kwLibrary, tok .kwPackage, identification,
       body]],
   node .namespaceDecl [[tok .kwNamespace, identification, body]],
   inline .namespaceBody
     [[tok .semicolon],
      [tok .lBrace, fields "members" (members (ref .namespaceMember)), tok .rBrace]],
   inline .importElement (anyOf [.importDecl, .elementFilter]),
   node .importDecl
     [[tok .kwImport, field "all" (opt (tok .kwAll)), nameField "target",
       opt (seq [tok .colonColon, field "wildcard" (tok .star)]),
       opt (seq [tok .colonColon, field "recursive" (tok .starStar)]),
       fields "filters" (many (ref .filterCondition)), tok .semicolon]],
   node .elementFilter [[tok .kwFilter, field "condition" (ref .ownedExpression), tok .semicolon]],
   node .filterCondition [[tok .lBracket, field "condition" (ref .ownedExpression), tok .rBracket]],
   node .aliasDecl [[tok .kwAlias, identification, tok .kwFor, nameField "target", body]]]

end KermlText.Rules
