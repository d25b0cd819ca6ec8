import KermlText.Rule
import KermlText.Token

/-!
What can go wrong. A syntax error is a record for the reader of a text: where, in which rule, what
stood there and what would have been accepted. A failure is what a step of the parser answers when it
cannot go on; the parser turns most of them into syntax errors.
-/

namespace KermlText

inductive Code where
  | invalidToken
  | missingToken
  | unexpectedToken
  | missingDelimiter
  | nestingTooDeep
  | noAlternative
  | trailingInput
  | endOfInput
  deriving DecidableEq

namespace Code

def all : List Code :=
  [.invalidToken, .missingToken, .unexpectedToken, .missingDelimiter, .nestingTooDeep,
   .noAlternative, .trailingInput, .endOfInput]

def label : Code → String
  | .invalidToken => "E0101"
  | .missingToken => "E0201"
  | .unexpectedToken => "E0202"
  | .missingDelimiter => "E0203"
  | .nestingTooDeep => "E0204"
  | .noAlternative => "E0301"
  | .trailingInput => "E0302"
  | .endOfInput => "E0901"

def ofLabel? (s : String) : Option Code :=
  all.find? (fun c => c.label == s)

def summary : Code → String
  | .invalidToken => "invalid token"
  | .missingToken => "missing token"
  | .unexpectedToken => "unexpected token"
  | .missingDelimiter => "missing closing delimiter"
  | .nestingTooDeep => "nesting too deep"
  | .noAlternative => "no viable alternative"
  | .trailingInput => "unexpected trailing input"
  | .endOfInput => "unexpected end of input"

end Code

structure SyntaxError where
  code : Code
  /-- The rule that was being read. -/
  rule : Rule
  position : Position
  start : Nat
  stop : Nat
  found : Kind
  expected : KindSet
  message : String
  deriving DecidableEq

namespace SyntaxError

/-- The wording depends on the code. Only some codes name what was expected. -/
def wording (code : Code) (token : Token) (expected : KindSet) : String :=
  match code with
  | .invalidToken => "invalid token '" ++ token.text ++ "'"
  | .unexpectedToken | .trailingInput => "unexpected " ++ token.kind.noun
  | .nestingTooDeep => code.summary ++ " before " ++ token.kind.noun
  | _ =>
    (if expected.isEmpty then code.summary else "expected " ++ expected.render) ++
      ", found " ++ token.kind.noun

/-- An error at `token`. -/
def make (code : Code) (rule : Rule) (token : Token) (expected : KindSet) : SyntaxError where
  code := code
  rule := rule
  position := token.position
  start := token.offset
  stop := token.stop
  found := token.kind
  expected := expected
  message := wording code token expected

def render (e : SyntaxError) : String :=
  "error[" ++ e.code.label ++ "] at " ++ e.position.render ++ " in " ++ e.rule.name ++ ": " ++
    e.message

end SyntaxError

inductive Failure where
  /-- No alternative of `rule` fits the tokens that come. -/
  | noAlternative (rule : Rule) (position : Position) (offset : Nat) (expected : KindSet)
      (found : Kind)
  /-- A token was asked for behind the end of input. -/
  | endOfInput (position : Position) (offset : Nat)
  | rejected (error : SyntaxError)
  | cancelled
  /-- Lookahead goes round in a circle of the grammar and takes no token. -/
  | endless
  deriving DecidableEq

namespace Failure

def message : Failure → String
  | .noAlternative r p _ expected k =>
    "no viable alternative for " ++ r.name ++ " at " ++ p.render ++ ": expected " ++
      expected.render ++ ", found " ++ k.noun
  | .endOfInput p _ => "unexpected end of input at " ++ p.render
  | .rejected e => e.render
  | .cancelled => "parse cancelled"
  | .endless => "lookahead does not end"

/-- The record that a reader gets, if any. `rule` is blamed where the failure names none. -/
def syntaxError? (rule : Rule) : Failure → Option SyntaxError
  | .noAlternative r p offset expected k =>
    some
      { code := .noAlternative
        rule := r
        position := p
        start := offset
        stop := offset
        found := k
        expected := expected
        message := "no viable alternative for " ++ r.name ++ ": expected " ++ expected.render ++
          ", found " ++ k.noun }
  | .endOfInput p offset =>
    some
      { code := .endOfInput
        rule := rule
        position := p
        start := offset
        stop := offset
        found := .eof
        expected := ∅
        message := Code.endOfInput.summary }
  | .rejected e => some e
  | .cancelled | .endless => none

end Failure

end KermlText
