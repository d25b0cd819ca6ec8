import KermlText.Language
import KermlText.Parse.Climb
import KermlText.Scanner

/-!
Parses. A parse gives a tree with every token in it that a rule can see, and a list of what was wrong;
only a parse that is called off gives none.
-/

namespace KermlText

namespace Setup

open Session

variable (u : Setup)

/-- Reads a rule with `n` more rules to open inside one another. At the limit the text is skipped up
to something that may follow the rule. -/
def call : Nat → Call
  | 0, r, _, scope, b => do
    note (.called r scope.follow)
    u.checkCancelled
    u.report .nestingTooDeep r (u.grammar.first r)
    u.recover scope r b
  | n + 1, r, level, scope, b => do
    note (.called r scope.follow)
    u.checkCancelled
    note (.opened (u.settings.maxDepth - n))
    match u.grammar.table? r with
    | some table =>
      return b.pushNode (← u.climb (call n) table level { scope with rule := r })
    | none =>
      let d := u.grammar.definition r
      let inner := { scope with rule := r, comments := scope.comments || d.comments }
      if d.inline then u.body (call n) inner b
      else return b.pushNode (← u.body (call n) inner (.start r)).finish

def rootScope (r : Rule) : Scope := ⟨r, u.grammar.follow r ∪ endKinds, ∅, false⟩

/-- Reads a whole text as `r`. What is left over behind the rule goes into the node of the rule. -/
def root (r : Rule) : Action Node := do
  let b ← u.call u.settings.maxDepth r 0 (u.rootScope r) (.start r)
  return (← u.expectEnd (u.rootScope r) r b.unwrapped).finish

def run (r : Rule) : EStateM.Result Failure Session Node :=
  u.root r (.start u.settings)

end Setup

/-- The setup of a parse of a token list. -/
def Setup.ofTokens (ts : List Token) (settings : Settings) : Setup := ⟨kerml, .ofTokens ts, settings⟩

structure Parse where
  root : Node
  errors : List SyntaxError

namespace Parse

def ok (p : Parse) : Bool := p.errors.isEmpty

/-- What stands for a parse that gave no tree. -/
def ofFailure (r : Rule) (f : Failure) : Parse :=
  ⟨(Builder.start r).markError.finish, (f.syntaxError? r).toList⟩

end Parse

/-- The parse of a token list as `r`, with the errors that were sent while it was running. -/
def parseTokens (r : Rule) (ts : List Token) (settings : Settings) :
    Except Failure Parse × List SyntaxError :=
  match (Setup.ofTokens ts settings).run r with
  | .ok n x => (.ok ⟨n, x.errors⟩, x.sent)
  | .error f x => (.error f, x.sent)

/-- The parse of a text as `r`, with standard settings. -/
def parseAs (r : Rule) (text : String) : Parse :=
  match (parseTokens r (scan text) .standard).1 with
  | .ok p => p
  | .error f => .ofFailure r f

/-- The parse of a file. -/
def parse (text : String) : Parse := parseAs .rootNamespace text

def parseAll (texts : List String) : List Parse := texts.map parse

end KermlText
