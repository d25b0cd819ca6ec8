import KermlText.Parse.Session
import KermlText.Tree.Builder

/-!
Taking tokens, and what to do when the wanted one is not there. The parser skips tokens, at most up to
one that is wanted, that may follow, or that a list around can go on with, and keeps them in a node of
their own; a wanted token that does not turn up counts as if it had been there.
-/

namespace KermlText

namespace Stream

variable (s : Stream)

/-- The places of the tokens from `pos` on, up to one of a kind in `sync`. -/
def placesUpTo (sync : KindSet) : Nat → Nat → List Nat
  | 0, _ => []
  | n + 1, pos =>
    match s.next? pos with
    | none => []
    | some next =>
      if sync.contains (s.kind pos) then [] else s.settle pos :: placesUpTo sync n next

end Stream

namespace Setup

open Session

variable (u : Setup)

def endKinds : KindSet := .single .eof

def closers : KindSet := .ofList [.rBrace, .rParen, .rBracket]

/-- The tokens at `places` become one node of skipped tokens, if there are any. -/
def skip (scope : Scope) (places : List Nat) : Action (Option Node) := do
  match places.getLast? with
  | none => return none
  | some last =>
    modify fun x => { x with
      pos := last + 1
      journal := (places.map fun i => Event.skipped i scope.context).reverse ++ x.journal }
    return some (.mk .error (places.map fun i => .token (u.stream.token i)) [] true)

def skipUntil (scope : Scope) (sync : KindSet) : Action (Option Node) := do
  let x ← get
  u.skip scope (u.stream.placesUpTo sync u.stream.size x.pos)

def skipOne (scope : Scope) : Action (Option Node) := do
  let x ← get
  u.skip scope (if u.stream.atEnd x.pos then [] else [u.stream.settle x.pos])

/-- Takes the current token if its kind is in `set`. -/
def eat (set : KindSet) (b : Builder) : Action (Option Builder) := do
  let x ← get
  let k := u.stream.kind x.pos
  if k = .eof || !set.contains k then return none
  match u.stream.advance x.pos with
  | .error _ => return none
  | .ok (t, pos) =>
    moveTo pos
    note (.matched (pos - 1))
    setRecovering false
    return some (b.pushToken t)

/-- The end of input is there, or everything up to it is skipped. -/
def expectEnd (scope : Scope) (rule : Rule) (b : Builder) : Action Builder := do
  if ← u.atEnd then return b
  u.report .trailingInput rule endKinds
  return b.pushNode? (← u.skipUntil scope endKinds)

/-- The code for a missing token of a kind in `set` in front of one of kind `k`. -/
def missing (set : KindSet) (k : Kind) : Code :=
  if set.size = 1 && set.intersects closers then .missingDelimiter
  else if k = .eof then .endOfInput
  else .missingToken

/-- Takes a token of a kind in `set`, behind some skipped ones if need be. -/
def expect (scope : Scope) (set : KindSet) (b : Builder) : Action Builder := do
  if set = endKinds then u.expectEnd scope scope.rule b
  else
    match ← u.eat set b with
    | some b' => return b'
    | none =>
      u.report (missing set (← u.kind)) scope.rule set
      let skipped ← u.skipUntil scope (set ∪ scope.follow ∪ scope.context ∪ endKinds)
      let b' := b.markError.pushNode? skipped
      match ← u.eat set b' with
      | some b'' => return b''
      | none =>
        setRecovering true
        return b'

/-- Skips to something that may follow the rule. -/
def recover (scope : Scope) (rule : Rule) (b : Builder) : Action Builder := do
  let sync := scope.follow ∪ u.grammar.follow rule ∪ scope.context ∪ endKinds
  return (b.pushNode? (← u.skipUntil scope sync)).markError

/-- Takes the first comment in front of the current token. -/
def expectComment (scope : Scope) (b : Builder) : Action Builder := do
  let x ← get
  match u.stream.comment? x.pos with
  | some i =>
    moveTo (i + 1)
    note (.matched i)
    setRecovering false
    return b.pushToken (u.stream.token i)
  | none =>
    u.report .missingToken scope.rule (.single .blockComment)
    return b.markError

end Setup

end KermlText
