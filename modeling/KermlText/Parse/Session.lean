import KermlText.Resolver
import KermlText.Settings

/-!
The state of a parse and the steps that every part of it uses. Errors go two ways: into the list that
the parse answers with, and to the caller while the parse is running, so that what was sent is known
even when the parse is called off. After a report all others are dropped until a token matches again;
an operator behind an operand does not count.

The journal is a record of what was done, the latest first. Nothing reads it during a parse.
-/

namespace KermlText

inductive Event where
  /-- A rule was called. -/
  | called (rule : Rule) (follow : KindSet)
  /-- A called rule was opened; so many are open now. -/
  | opened (depth : Nat)
  /-- An alternative of a rule was asked for. -/
  | asked (rule : Rule) (follow : KindSet)
  /-- The token at a place went into the node that asked for it. -/
  | matched (place : Nat)
  /-- The token at a place was skipped, inside lists that can go on at the given kinds. -/
  | skipped (place : Nat) (context : KindSet)
  | reported
  /-- A report was dropped because of an earlier one. -/
  | suppressed
  /-- A list went round once more. -/
  | again (before after : Nat)

/-- What stays the same during a parse. -/
structure Setup where
  grammar : Grammar
  stream : Stream
  settings : Settings

structure Session where
  pos : Nat
  resolver : Resolver
  errors : List SyntaxError
  sent : List SyntaxError
  recovering : Bool
  /-- How often it was asked whether the parse is called off. -/
  checks : Nat
  journal : List Event

/-- What is around the place where a parse is. -/
structure Scope where
  /-- The rule that is being read. -/
  rule : Rule
  /-- What may come behind what is read next. -/
  follow : KindSet
  /-- Where the lists around can go on. Only a list may skip these. -/
  context : KindSet
  comments : Bool

abbrev Action := EStateM Failure Session

namespace Session

def start (settings : Settings) : Session :=
  ⟨0, .make settings.lookahead settings.caching, [], [], false, 0, []⟩

def note (e : Event) : Action Unit :=
  modify fun x => { x with journal := e :: x.journal }

def moveTo (pos : Nat) : Action Unit :=
  modify fun x => { x with pos := pos }

def setRecovering (b : Bool) : Action Unit :=
  modify fun x => { x with recovering := b }

end Session

namespace Setup

open Session

variable (u : Setup)

def checkCancelled : Action Unit := do
  let x ← get
  set { x with checks := x.checks + 1 }
  if u.settings.isCancelled x.checks x.sent.length then throw .cancelled

/-- The kind of the current token. -/
def kind : Action Kind := do
  return u.stream.kind (← get).pos

def lookahead (scope : Scope) : Action Kind := do
  return u.stream.lookahead (← get).pos scope.comments

def atEnd : Action Bool := do
  return u.stream.atEnd (← get).pos

/-- Reports an error at the current token, unless an earlier one is not recovered from or there are
enough. A token that is no token is reported as such, whatever the reason. -/
def report (code : Code) (rule : Rule) (expected : KindSet) : Action Unit := do
  let x ← get
  let found := u.stream.current x.pos
  if x.recovering then note .suppressed
  else if u.settings.maxErrors.any (fun n => n ≤ x.errors.length) then pure ()
  else
    let e := SyntaxError.make (if found.kind = .error then .invalidToken else code) rule found expected
    set { x with
      errors := x.errors ++ [e]
      sent := x.sent ++ [e]
      recovering := true
      journal := .reported :: x.journal }

/-- The alternative of the rule being read that fits here, or why there is none. -/
def decide (scope : Scope) : Action (Except Failure Nat) := do
  let x ← get
  let (choice, resolver) :=
    x.resolver.decide u.grammar u.stream x.pos scope.rule (u.grammar.choices scope.rule) scope.follow
      scope.comments
  set { x with resolver := resolver }
  return choice

/-- Whether to enter an optional element or one more of a list. -/
def enter (scope : Scope) (e : Element) : Action Bool := do
  let x ← get
  let (choice, resolver) :=
    x.resolver.enter u.grammar u.stream x.pos e scope.follow scope.comments
  set { x with resolver := resolver }
  match choice with
  | .ok b => return b
  | .error f => throw f

end Setup

end KermlText
