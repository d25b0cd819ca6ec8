/-!
The kinds of token in a KerML text: trivia, literals, punctuation marks, reserved words, and the two
marks of trouble, `error` for characters that start no token and `eof` for the end of the input.

A kind with a fixed spelling is a punctuation mark or a reserved word. Declaration order is the order
in which sets of kinds are listed, so `index` is part of what a reader sees.
-/

namespace KermlText

inductive Kind where
  -- trivia
  | whitespace | lineComment | blockComment
  -- literals
  | ident | integer | decimal | string
  -- punctuation
  | lBrace | rBrace | lBracket | rBracket | lParen | rParen | semicolon | colon | colonColon
  | colonGt | colonGtGt | colonColonGt | colonEq | dot | dotDot | comma | eq | eqEq | eqEqEq
  | bangEq | bangEqEq | lt | gt | ltEq | gtEq | arrow | fatArrow | atSign | atAt | hash | star
  | starStar | plus | minus | slash | percent | caret | tilde | question | questionQuestion | pipe
  | amp
  -- reserved words
  | kwAbout | kwAbstract | kwAlias | kwAll | kwAnd | kwAs | kwAssoc | kwBehavior | kwBinding
  | kwBool | kwBy | kwChains | kwClass | kwClassifier | kwComment | kwComposite | kwConjugate
  | kwConjugates | kwConjugation | kwConnector | kwConst | kwCrosses | kwDatatype | kwDefault
  | kwDependency | kwDerived | kwDifferences | kwDisjoining | kwDisjoint | kwDoc | kwElse | kwEnd
  | kwExpr | kwFalse | kwFeature | kwFeatured | kwFilter | kwFirst | kwFlow | kwFor | kwFrom
  | kwFunction | kwHastype | kwIf | kwImplies | kwImport | kwIn | kwInout | kwInteraction
  | kwIntersects | kwInv | kwInverse | kwIstype | kwLanguage | kwLibrary | kwLocale | kwMember
  | kwMeta | kwMetaclass | kwMetadata | kwNamespace | kwNew | kwNonunique | kwNot | kwNull | kwOf
  | kwOr | kwOrdered | kwOut | kwPackage | kwPortion | kwPredicate | kwPrivate | kwProtected
  | kwPublic | kwRedefines | kwRedefinition | kwReferences | kwRep | kwReturn | kwSpecialization
  | kwSpecializes | kwStandard | kwStep | kwStruct | kwSubclassifier | kwSubset | kwSubsets
  | kwSubtype | kwSuccession | kwThen | kwTo | kwTrue | kwType | kwTyped | kwTyping | kwUnions
  | kwVar | kwXor
  -- trouble
  | error | eof
  deriving DecidableEq

namespace Kind

def trivia : List Kind :=
  [.whitespace, .lineComment, .blockComment]

def literals : List Kind :=
  [.ident, .integer, .decimal, .string]

def marks : List Kind :=
  [.lBrace, .rBrace, .lBracket, .rBracket, .lParen, .rParen, .semicolon, .colon, .colonColon,
   .colonGt, .colonGtGt, .colonColonGt, .colonEq, .dot, .dotDot, .comma, .eq, .eqEq, .eqEqEq,
   .bangEq, .bangEqEq, .lt, .gt, .ltEq, .gtEq, .arrow, .fatArrow, .atSign, .atAt, .hash, .star,
   .starStar, .plus, .minus, .slash, .percent, .caret, .tilde, .question, .questionQuestion, .pipe,
   .amp]

def words : List Kind :=
  [.kwAbout, .kwAbstract, .kwAlias, .kwAll, .kwAnd, .kwAs, .kwAssoc, .kwBehavior, .kwBinding,
   .kwBool, .kwBy, .kwChains, .kwClass, .kwClassifier, .kwComment, .kwComposite, .kwConjugate,
   .kwConjugates, .kwConjugation, .kwConnector, .kwConst, .kwCrosses, .kwDatatype, .kwDefault,
   .kwDependency, .kwDerived, .kwDifferences, .kwDisjoining, .kwDisjoint, .kwDoc, .kwElse, .kwEnd,
   .kwExpr, .kwFalse, .kwFeature, .kwFeatured, .kwFilter, .kwFirst, .kwFlow, .kwFor, .kwFrom,
   .kwFunction, .kwHastype, .kwIf, .kwImplies, .kwImport, .kwIn, .kwInout, .kwInteraction,
   .kwIntersects, .kwInv, .kwInverse, .kwIstype, .kwLanguage, .kwLibrary, .kwLocale, .kwMember,
   .kwMeta, .kwMetaclass, .kwMetadata, .kwNamespace, .kwNew, .kwNonunique, .kwNot, .kwNull, .kwOf,
   .kwOr, .kwOrdered, .kwOut, .kwPackage, .kwPortion, .kwPredicate, .kwPrivate, .kwProtected,
   .kwPublic, .kwRedefines, .kwRedefinition, .kwReferences, .kwRep, .kwReturn, .kwSpecialization,
   .kwSpecializes, .kwStandard, .kwStep, .kwStruct, .kwSubclassifier, .kwSubset, .kwSubsets,
   .kwSubtype, .kwSuccession, .kwThen, .kwTo, .kwTrue, .kwType, .kwTyped, .kwTyping, .kwUnions,
   .kwVar, .kwXor]

/-- All kinds in declaration order. -/
def all : List Kind :=
  trivia ++ literals ++ marks ++ words ++ [.error, .eof]

def count : Nat := 150

/-- The place of a kind in declaration order. -/
def index (k : Kind) : Nat := k.ctorIdx

theorem index_lt (k : Kind) : k.index < count := by
  cases k <;> decide

theorem length_all : all.length = count := by decide +kernel

theorem all_getElem?_index (k : Kind) : all[k.index]? = some k := by
  cases k <;> rfl

theorem mem_all (k : Kind) : k ∈ all :=
  List.mem_of_getElem? (all_getElem?_index k)

theorem index_inj {a b : Kind} (h : a.index = b.index) : a = b := by
  have := all_getElem?_index a
  rw [h, all_getElem?_index b] at this
  exact (Option.some.inj this).symm

/-- The one spelling of a punctuation mark or a reserved word. -/
def spelling? : Kind → Option String
  | .lBrace => some "\x7b" | .rBrace => some "\x7d" | .lBracket => some "[" | .rBracket => some "]"
  | .lParen => some "(" | .rParen => some ")" | .semicolon => some ";" | .colon => some ":"
  | .colonColon => some "::" | .colonGt => some ":>" | .colonGtGt => some ":>>"
  | .colonColonGt => some "::>" | .colonEq => some ":=" | .dot => some "." | .dotDot => some ".."
  | .comma => some "," | .eq => some "=" | .eqEq => some "==" | .eqEqEq => some "==="
  | .bangEq => some "!=" | .bangEqEq => some "!==" | .lt => some "<" | .gt => some ">"
  | .ltEq => some "<=" | .gtEq => some ">=" | .arrow => some "->" | .fatArrow => some "=>"
  | .atSign => some "@" | .atAt => some "@@" | .hash => some "#" | .star => some "*"
  | .starStar => some "**" | .plus => some "+" | .minus => some "-" | .slash => some "/"
  | .percent => some "%" | .caret => some "^" | .tilde => some "~" | .question => some "?"
  | .questionQuestion => some "??" | .pipe => some "|" | .amp => some "&"
  | .kwAbout => some "about" | .kwAbstract => some "abstract" | .kwAlias => some "alias"
  | .kwAll => some "all" | .kwAnd => some "and" | .kwAs => some "as" | .kwAssoc => some "assoc"
  | .kwBehavior => some "behavior" | .kwBinding => some "binding" | .kwBool => some "bool"
  | .kwBy => some "by" | .kwChains => some "chains" | .kwClass => some "class"
  | .kwClassifier => some "classifier" | .kwComment => some "comment"
  | .kwComposite => some "composite" | .kwConjugate => some "conjugate"
  | .kwConjugates => some "conjugates" | .kwConjugation => some "conjugation"
  | .kwConnector => some "connector" | .kwConst => some "const" | .kwCrosses => some "crosses"
  | .kwDatatype => some "datatype" | .kwDefault => some "default"
  | .kwDependency => some "dependency" | .kwDerived => some "derived"
  | .kwDifferences => some "differences" | .kwDisjoining => some "disjoining"
  | .kwDisjoint => some "disjoint" | .kwDoc => some "doc" | .kwElse => some "else"
  | .kwEnd => some "end" | .kwExpr => some "expr" | .kwFalse => some "false"
  | .kwFeature => some "feature" | .kwFeatured => some "featured" | .kwFilter => some "filter"
  | .kwFirst => some "first" | .kwFlow => some "flow" | .kwFor => some "for"
  | .kwFrom => some "from" | .kwFunction => some "function" | .kwHastype => some "hastype"
  | .kwIf => some "if" | .kwImplies => some "implies" | .kwImport => some "import"
  | .kwIn => some "in" | .kwInout => some "inout" | .kwInteraction => some "interaction"
  | .kwIntersects => some "intersects" | .kwInv => some "inv" | .kwInverse => some "inverse"
  | .kwIstype => some "istype" | .kwLanguage => some "language" | .kwLibrary => some "library"
  | .kwLocale => some "locale" | .kwMember => some "member" | .kwMeta => some "meta"
  | .kwMetaclass => some "metaclass" | .kwMetadata => some "metadata"
  | .kwNamespace => some "namespace" | .kwNew => some "new" | .kwNonunique => some "nonunique"
  | .kwNot => some "not" | .kwNull => some "null" | .kwOf => some "of" | .kwOr => some "or"
  | .kwOrdered => some "ordered" | .kwOut => some "out" | .kwPackage => some "package"
  | .kwPortion => some "portion" | .kwPredicate => some "predicate" | .kwPrivate => some "private"
  | .kwProtected => some "protected" | .kwPublic => some "public"
  | .kwRedefines => some "redefines" | .kwRedefinition => some "redefinition"
  | .kwReferences => some "references" | .kwRep => some "rep" | .kwReturn => some "return"
  | .kwSpecialization => some "specialization" | .kwSpecializes => some "specializes"
  | .kwStandard => some "standard" | .kwStep => some "step" | .kwStruct => some "struct"
  | .kwSubclassifier => some "subclassifier" | .kwSubset => some "subset"
  | .kwSubsets => some "subsets" | .kwSubtype => some "subtype"
  | .kwSuccession => some "succession" | .kwThen => some "then" | .kwTo => some "to"
  | .kwTrue => some "true" | .kwType => some "type" | .kwTyped => some "typed"
  | .kwTyping => some "typing" | .kwUnions => some "unions" | .kwVar => some "var"
  | .kwXor => some "xor"
  | _ => none

/-- The reserved word spelled `w`. Case matters. -/
def ofWord? (w : String) : Option Kind :=
  words.find? (fun k => k.spelling? == some w)

/-- The code name of a kind: `CLASS_KW` for the word `class`, `COLON_GT` for the mark `:>`. -/
def label : Kind → String
  | .whitespace => "WHITESPACE" | .lineComment => "LINE_COMMENT" | .blockComment => "BLOCK_COMMENT"
  | .ident => "IDENT" | .integer => "INTEGER" | .decimal => "DECIMAL" | .string => "STRING"
  | .lBrace => "L_BRACE" | .rBrace => "R_BRACE" | .lBracket => "L_BRACKET"
  | .rBracket => "R_BRACKET" | .lParen => "L_PAREN" | .rParen => "R_PAREN"
  | .semicolon => "SEMICOLON" | .colon => "COLON" | .colonColon => "COLON_COLON"
  | .colonGt => "COLON_GT" | .colonGtGt => "COLON_GT_GT" | .colonColonGt => "COLON_COLON_GT"
  | .colonEq => "COLON_EQ" | .dot => "DOT" | .dotDot => "DOT_DOT" | .comma => "COMMA" | .eq => "EQ"
  | .eqEq => "EQ_EQ" | .eqEqEq => "EQ_EQ_EQ" | .bangEq => "BANG_EQ" | .bangEqEq => "BANG_EQ_EQ"
  | .lt => "LT" | .gt => "GT" | .ltEq => "LT_EQ" | .gtEq => "GT_EQ" | .arrow => "ARROW"
  | .fatArrow => "FAT_ARROW" | .atSign => "AT" | .atAt => "AT_AT" | .hash => "HASH"
  | .star => "STAR" | .starStar => "STAR_STAR" | .plus => "PLUS" | .minus => "MINUS"
  | .slash => "SLASH" | .percent => "PERCENT" | .caret => "CARET" | .tilde => "TILDE"
  | .question => "QUESTION" | .questionQuestion => "QUESTION_QUESTION" | .pipe => "PIPE"
  | .amp => "AMP"
  | .error => "ERROR" | .eof => "EOF"
  | k => (k.spelling?.getD "").toUpper ++ "_KW"

def ofLabel? (s : String) : Option Kind :=
  all.find? (fun k => k.label == s)

/-- What a message calls a kind: the quoted spelling, else a noun. -/
def noun (k : Kind) : String :=
  match k.spelling? with
  | some s => "'" ++ s ++ "'"
  | none =>
    match k with
    | .ident => "identifier"
    | .integer => "integer"
    | .decimal => "real number"
    | .string => "string"
    | .whitespace => "whitespace"
    | .lineComment => "line note"
    | .blockComment => "comment"
    | .eof => "end of input"
    | _ => "invalid token"

end Kind

end KermlText
