import KermlText.Parse.Recovery

/-!
Reading the elements of an alternative into a node. What may come behind an element is what the rest
of its row may start with, and what may come behind the row if that rest may be empty.

Rules are read by `call`, which is given from outside: the walk over one alternative goes down its
elements only.
-/

namespace KermlText

/-- How a rule is read into a node, at a level of operators. -/
abbrev Call := Rule → Nat → Scope → Builder → Action Builder

namespace Setup

open Session

variable (u : Setup)

/-- The scope of an element that has the row `rest` behind it. -/
def before (rest : List Element) (scope : Scope) : Scope :=
  { scope with
    follow := u.grammar.firstOfRow rest ∪ (if u.grammar.rowNullable rest then scope.follow else ∅) }

/-- The scope of one item of a list of `e`: one more may follow, and the lists inside may count on
this list to go on with it. -/
def within (e : Element) (scope : Scope) : Scope :=
  let again := scope.follow ∪ u.grammar.firstOf e
  { scope with follow := again, context := scope.context ∪ again }

/-- Whether a list of `e` is over when `k` is no item: if it does not skip, or if something around it
can use `k`. -/
def leaves (e : Element) (resync : Bool) (scope : Scope) (k : Kind) : Bool :=
  !resync || k = .eof || k = .blockComment || scope.follow.contains k ||
    (u.grammar.firstOf e).contains k || scope.context.contains k

/-- Whether a list is over when its item took nothing in front of `k`. -/
def stops (resync : Bool) (scope : Scope) (k : Kind) : Bool :=
  !resync || k = .eof || scope.follow.contains k

/-- Whether a list of `e` has one more item: it is short of its least number, or lookahead says so. -/
def enterItem (scope : Scope) (e : Element) (need : Nat) : Action Bool :=
  if 0 < need then return true else u.enter scope e

/-- Items of a list, `need` of them at least. Each round that is followed by another takes a token or
more, so there are at most as many as there are tokens, and one more. -/
def items (item : Scope → Builder → Action Builder) (e : Element) (resync : Bool) (scope : Scope) :
    Nat → Nat → Builder → Action Builder
  | 0, _, _ => throw .endless
  | n + 1, need, b => do
    u.checkCancelled
    let start := (← get).pos
    let again := scope.follow ∪ u.grammar.firstOf e
    if ← u.enterItem scope e need then
      let b' ← item (u.within e scope) b
      if (← get).pos = start then
        let k ← u.kind
        if stops resync scope k then return b'
        u.report .unexpectedToken scope.rule again
        let b'' := b'.pushNode? (← u.skipOne scope)
        note (.again start (← get).pos)
        items item e resync scope n (need - 1) b''
      else
        note (.again start (← get).pos)
        items item e resync scope n (need - 1) b'
    else
      if u.leaves e resync scope (← u.lookahead scope) then return b
      u.report .unexpectedToken scope.rule again
      let b' := b.pushNode? (← u.skipUntil scope (again ∪ endKinds))
      note (.again start (← get).pos)
      items item e resync scope n need b'

section

variable (call : Call)

mutual

def element : Element → Scope → Builder → Action Builder
  | .token k, scope, b | .relation k _, scope, b => u.expect scope (.single k) b
  | .oneOf ks, scope, b => u.expect scope ks b
  | .comment, scope, b => u.expectComment scope b
  | .rule r, scope, b => call r 0 scope b
  | .ruleAt r level, scope, b => call r level scope b
  | .optional e, scope, b => do
    if ← u.enter scope e then element e scope b else return b
  | .repeated e min resync, scope, b =>
    u.items (element e) e resync scope (u.stream.size + 1) min b
  | .seq es, scope, b => row es scope b
  | .labeled name many e, scope, b => do
    let b' ← element e scope b
    return b'.label name many b.size e.catchesTokens e.relation?

def row : List Element → Scope → Builder → Action Builder
  | [], _, b => return b
  | e :: es, scope, b => do
    let b' ← element e (u.before es scope) b
    row es scope b'

end

/-- Reads an alternative of the rule into `b`, the one that lookahead chooses. -/
def body (scope : Scope) (b : Builder) : Action Builder := do
  note (.asked scope.rule scope.follow)
  match ← u.decide scope with
  | .ok i => u.row call (Resolver.elements u.grammar scope.rule i) scope b
  | .error (.noAlternative _ _ _ expected _) =>
    u.report .noAlternative scope.rule expected
    u.recover scope scope.rule b
  | .error f => throw f

end

end Setup

end KermlText
