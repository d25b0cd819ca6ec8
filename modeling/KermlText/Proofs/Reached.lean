import KermlText.Proofs.Answers

/-! What a parse comes to: the tasks that a run of a task leads to, each with the session in which it is
begun. A claim that asks something of the decisions of a parse asks it of these tasks only. -/

namespace KermlText

namespace Setup

open Session

variable (u : Setup)

/-- A run of the task comes to another one, in a session of its own. -/
inductive Reaches : Nat → Task → Session → Builder → Task → Session → Prop
  | here {n task x b} : Reaches n task x b task x
  | rule {n r scope x b task y} (h : Reaches n (.call r 0 scope) x b task y) :
      Reaches n (.element (.rule r) scope) x b task y
  | ruleAt {n r level scope x b task y} (h : Reaches n (.call r level scope) x b task y) :
      Reaches n (.element (.ruleAt r level) scope) x b task y
  | present {n e scope x b y task z} (he : u.enter scope e x = .ok true y)
      (h : Reaches n (.element e scope) y b task z) :
      Reaches n (.element (.optional e) scope) x b task z
  | repeated {n e least resync scope x b task y}
      (h : Reaches n (.items e resync scope least) x b task y) :
      Reaches n (.element (.repeated e least resync) scope) x b task y
  | seq {n es scope x b task y} (h : Reaches n (.row es scope) x b task y) :
      Reaches n (.element (.seq es) scope) x b task y
  | labeled {n name many e scope x b task y} (h : Reaches n (.element e scope) x b task y) :
      Reaches n (.element (.labeled name many e) scope) x b task y
  | head {n e es scope x b task y} (h : Reaches n (.element e (u.before es scope)) x b task y) :
      Reaches n (.row (e :: es) scope) x b task y
  | tail {n e es scope x b y c task z} (h1 : u.Runs n (.element e (u.before es scope)) x b y c)
      (h : Reaches n (.row es scope) y c task z) : Reaches n (.row (e :: es) scope) x b task z
  | item {n e resync scope need x b y task z}
      (he : u.enterItem scope e need x.checked = .ok true y)
      (h : Reaches n (.element e (u.within e scope)) y b task z) :
      Reaches n (.items e resync scope need) x b task z
  | moved {n e resync scope need x b y z c task w}
      (he : u.enterItem scope e need x.checked = .ok true y)
      (h1 : u.Runs n (.element e (u.within e scope)) y b z c) (hz : z.pos ≠ x.pos)
      (h : Reaches n (.items e resync scope (need - 1)) (z.noted (.again x.pos z.pos)) c task w) :
      Reaches n (.items e resync scope need) x b task w
  | freed {n e resync scope need x b y z c w task v}
      (he : u.enterItem scope e need x.checked = .ok true y)
      (h1 : u.Runs n (.element e (u.within e scope)) y b z c) (hz : z.pos = x.pos)
      (hk : stops resync scope (u.stream.kind z.pos) = false)
      (hw : w = (u.reported .unexpectedToken scope.rule (scope.follow ∪ u.grammar.firstOf e) z).skippedOver
        scope.context (u.stream.placesUpTo ∅ 1 z.pos))
      (h : Reaches n (.items e resync scope (need - 1)) (w.noted (.again x.pos w.pos))
        (c.pushNode? (u.strays (u.stream.placesUpTo ∅ 1 z.pos))) task v) :
      Reaches n (.items e resync scope need) x b task v
  | resumed {n e resync scope need x b y w task z}
      (he : u.enterItem scope e need x.checked = .ok false y)
      (hk : u.leaves e resync scope (u.stream.lookahead y.pos scope.comments) = false)
      (hw : w = (u.reported .unexpectedToken scope.rule (scope.follow ∪ u.grammar.firstOf e) y).skippedOver
        scope.context (u.passed (scope.follow ∪ u.grammar.firstOf e ∪ endKinds) y))
      (h : Reaches n (.items e resync scope need) (w.noted (.again x.pos w.pos))
        (b.pushNode? (u.strays (u.passed (scope.follow ∪ u.grammar.firstOf e ∪ endKinds) y))) task z) :
      Reaches n (.items e resync scope need) x b task z
  | chosen {n scope x b i y task z}
      (hd : u.decide scope (x.noted (.asked scope.rule scope.follow)) = .ok (.ok i) y)
      (h : Reaches n (.row (Resolver.elements u.grammar scope.rule i) scope) y b task z) :
      Reaches n (.body scope) x b task z
  | inlined {n r level scope x b task y} (ht : u.grammar.table? r = none)
      (hi : (u.grammar.definition r).inline = true)
      (h : Reaches n (.body (u.inside r scope))
        ((x.called r scope).noted (.opened (u.settings.maxDepth - n))) b task y) :
      Reaches (n + 1) (.call r level scope) x b task y
  | wrapped {n r level scope x b task y} (ht : u.grammar.table? r = none)
      (hi : (u.grammar.definition r).inline = false)
      (h : Reaches n (.body (u.inside r scope))
        ((x.called r scope).noted (.opened (u.settings.maxDepth - n))) (.start r) task y) :
      Reaches (n + 1) (.call r level scope) x b task y
  | operand {n r level scope x b table task y} (ht : u.grammar.table? r = some table)
      (h : Reaches n (.body (operandScope r table scope))
        ((x.called r scope).noted (.opened (u.settings.maxDepth - n))) (.start r) task y) :
      Reaches (n + 1) (.call r level scope) x b task y
  | operators {n r level scope x b table y c task z} (ht : u.grammar.table? r = some table)
      (h1 : u.Runs n (.body (operandScope r table scope))
        ((x.called r scope).noted (.opened (u.settings.maxDepth - n))) (.start r) y c)
      (h : Reaches n (.operators table level (operandScope r table scope) (c.single?.getD c.finish))
        y b task z) :
      Reaches (n + 1) (.call r level scope) x b task z
  | right {n table level scope left x b tier rule task y}
      (hl : table.lookup (u.stream.kind x.pos) = some (tier, rule)) (hle : level ≤ tier.level)
      (hf : tier.form = .binary) (he : u.stream.atEnd x.pos = false)
      (h : Reaches n (.call scope.rule tier.operandLevel scope)
        (x.checked.operatedAt (u.stream.settle x.pos))
        (.operator rule left (u.stream.current x.pos)) task y) :
      Reaches n (.operators table level scope left) x b task y
  | binary {n table level scope left x b tier rule y c task z}
      (hl : table.lookup (u.stream.kind x.pos) = some (tier, rule)) (hle : level ≤ tier.level)
      (hf : tier.form = .binary) (he : u.stream.atEnd x.pos = false)
      (h1 : u.Runs n (.call scope.rule tier.operandLevel scope)
        (x.checked.operatedAt (u.stream.settle x.pos))
        (.operator rule left (u.stream.current x.pos)) y c)
      (h : Reaches n (.operators table level scope
        (c.label "right" false (Builder.operator rule left (u.stream.current x.pos)).size false
          none).finish) y b task z) :
      Reaches n (.operators table level scope left) x b task z
  | rest {n table level scope left x b tier rule task y}
      (hl : table.lookup (u.stream.kind x.pos) = some (tier, rule)) (hle : level ≤ tier.level)
      (hf : tier.form ≠ .binary) (he : u.stream.atEnd x.pos = false)
      (h : Reaches n (.body { scope with rule := rule })
        (x.checked.operatedAt (u.stream.settle x.pos))
        (.operator rule left (u.stream.current x.pos)) task y) :
      Reaches n (.operators table level scope left) x b task y
  | suffix {n table level scope left x b tier rule y c task z}
      (hl : table.lookup (u.stream.kind x.pos) = some (tier, rule)) (hle : level ≤ tier.level)
      (hf : tier.form ≠ .binary) (he : u.stream.atEnd x.pos = false)
      (h1 : u.Runs n (.body { scope with rule := rule })
        (x.checked.operatedAt (u.stream.settle x.pos))
        (.operator rule left (u.stream.current x.pos)) y c)
      (h : Reaches n (.operators table level scope c.finish) y b task z) :
      Reaches n (.operators table level scope left) x b task z

/-- A parse of the rule comes to the task. -/
def Comes (r : Rule) (task : Task) (x : Session) : Prop :=
  u.Reaches u.settings.maxDepth (.call r 0 (u.rootScope r)) (.start u.settings) (.start r) task x

end Setup

end KermlText
