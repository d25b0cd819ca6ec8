import KermlText.Grammar
import KermlText.Rules.Annotations
import KermlText.Rules.Classifiers
import KermlText.Rules.Connectors
import KermlText.Rules.Expressions
import KermlText.Rules.Features
import KermlText.Rules.Names
import KermlText.Rules.Namespaces
import KermlText.Rules.Relationships

/-!
The grammar of KerML.
-/

namespace KermlText

def Rules.all : List Definition :=
  namespaces ++ names ++ classifiers ++ features ++ connectors ++ relationships ++ annotations ++
    expressions

def kerml : Grammar := .build Rules.all [Rules.operatorTable, Rules.suffixTable]

end KermlText
