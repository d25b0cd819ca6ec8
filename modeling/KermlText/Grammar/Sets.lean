import KermlText.Grammar.Element
import KermlText.Grammar.Families

/-!
Which rules may be empty, which kinds may start a rule, and which may follow it. Rules refer to one
another in circles, so each of the three is the least family that its equations allow: start from
nothing and apply the equations until they change nothing any more. A family over finitely many rules
and kinds can grow only so often, which bounds the number of rounds.
-/

namespace KermlText

section

variable (nullable : Rule → Bool) (first : Rule → KindSet)

mutual

def Element.isNullable : Element → Bool
  | .token _ | .oneOf _ | .relation _ _ | .comment => false
  | .rule r | .ruleAt r _ => nullable r
  | .optional _ => true
  | .repeated e min _ => min == 0 || e.isNullable
  | .seq es => allNullable es
  | .labeled _ _ e => e.isNullable

def allNullable : List Element → Bool
  | [] => true
  | e :: es => e.isNullable && allNullable es

end

mutual

def Element.firstKinds : Element → KindSet
  | .token k | .relation k _ => .single k
  | .oneOf s => s
  | .comment => .single .blockComment
  | .rule r | .ruleAt r _ => first r
  | .optional e | .repeated e _ _ | .labeled _ _ e => e.firstKinds
  | .seq es => rowFirstKinds es

/-- The kinds that may start a row: those of its elements up to the first that is never empty. -/
def rowFirstKinds : List Element → KindSet
  | [] => ∅
  | e :: es => if e.isNullable nullable then e.firstKinds ∪ rowFirstKinds es else e.firstKinds

end

/-- What may come next at some place of an alternative: the kinds that the rest of the alternative
may start with, and whether that rest may be empty. -/
structure Next where
  kinds : KindSet
  throughEnd : Bool

/-- What may come next in front of the row `es`, if `next` may come behind it. -/
def Next.before (es : List Element) (next : Next) : Next :=
  ⟨rowFirstKinds nullable first es ∪ (if allNullable nullable es then next.kinds else ∅),
    allNullable nullable es && next.throughEnd⟩

mutual

/-- Every mention of a rule, with what may come next behind it. -/
def Element.mentions : Element → Next → List (Rule × Next)
  | .token _, _ | .oneOf _, _ | .relation _ _, _ | .comment, _ => []
  | .rule r, next | .ruleAt r _, next => [(r, next)]
  | .optional e, next | .labeled _ _ e, next => e.mentions next
  | .repeated e _ _, next =>
    e.mentions ⟨next.kinds ∪ e.firstKinds nullable first, next.throughEnd⟩
  | .seq es, next => rowMentions es next

def rowMentions : List Element → Next → List (Rule × Next)
  | [], _ => []
  | e :: es, next => e.mentions (next.before nullable first es) ++ rowMentions es next

end

end

/-- Applies `step` until nothing changes, at most `fuel` times. -/
def saturate {α : Type} [DecidableEq α] (step : α → α) : Nat → α → α
  | 0, a => a
  | fuel + 1, a => if step a = a then a else saturate step fuel (step a)

section

-- the rows of elements that a rule may be
variable (rows : Rule → List (List Element))

def nullableStep (nullable : RuleSet) : RuleSet :=
  Rule.all.foldl
    (fun s r => if (rows r).any (allNullable nullable.contains) then s.insert r else s) .empty

def leastNullable : RuleSet := saturate (nullableStep rows) Rule.count .empty

def firstStep (nullable : Rule → Bool) (first : KindFamily) : KindFamily :=
  Rule.all.foldl
    (fun m r => (rows r).foldl (fun m es => m.add r (rowFirstKinds nullable first.get es)) m) .empty

def leastFirst (nullable : Rule → Bool) : KindFamily :=
  saturate (firstStep rows nullable) (Rule.count * Kind.count) .empty

/-- A mention of a rule: the kinds that may come next there, and the rule whose own followers come
next too when the mention can be the last thing in it. -/
structure Use where
  rule : Rule
  kinds : KindSet
  lastIn : Option Rule

def uses (nullable : Rule → Bool) (first : Rule → KindSet) : List Use :=
  Rule.all.flatMap fun s =>
    (rows s).flatMap fun es =>
      (rowMentions nullable first es ⟨∅, true⟩).map fun m =>
        ⟨m.1, m.2.kinds, if m.2.throughEnd then some s else none⟩

/-- Any rule may be where a text starts, so the end of input may follow every rule. -/
def followStart : KindFamily := Rule.all.foldl (fun m r => m.add r (.single .eof)) .empty

def followStep (uses : List Use) (follow : KindFamily) : KindFamily :=
  uses.foldl
    (fun m u => m.add u.rule (u.kinds ∪ (match u.lastIn with | some s => follow.get s | none => ∅)))
    followStart

def leastFollow (nullable : Rule → Bool) (first : Rule → KindSet) : KindFamily :=
  saturate (followStep (uses rows nullable first)) (Rule.count * Kind.count) followStart

end

end KermlText
