import KermlText.Proofs.Acceptance

/-! Operators bind as their tiers say. The climb puts an operator around whatever was read so far and
compares no levels there. What keeps a looser operator from the inside of a tighter one is where the
right operand in front of it stopped: no operator of its own level or a tighter one was left there. -/

namespace KermlText

open Rules

/-! ### Nodes of operators -/

namespace Rule

/-- The nodes of operators between expressions. -/
def isOperation (r : Rule) : Bool := r == .operatorExpression || r == .classificationExpression

/-- The nodes of what may come behind a primary expression. -/
def isSuffix : Rule → Bool
  | .featureChainExpression | .indexExpression | .bracketExpression | .arrowInvocationExpression
  | .invocationExpression => true
  | _ => false

/-- The primary expressions with nothing behind them. -/
def isAtom : Rule → Bool
  | .nullExpression | .literalExpression | .sequenceExpression | .bodyExpression | .newExpression
  | .featureReferenceExpression => true
  | _ => false

def isPrimary (r : Rule) : Bool := r.isAtom || r.isSuffix

/-- What an operator can have in front of it before any other operator was read. -/
def isOperand : Rule → Bool
  | .conditionalExpression | .unaryExpression | .selfClassificationExpression
  | .primaryExpression => true
  | _ => false

theorem not_isOperation_of_isPrimary {r : Rule} (h : r.isPrimary = true) : r.isOperation = false := by
  cases r <;> simp_all [isPrimary, isAtom, isSuffix, isOperation]

theorem ne_error_of_isPrimary {r : Rule} (h : r.isPrimary = true) : r ≠ .error := by
  rintro rfl
  cases h

end Rule

namespace Node

/-- The tier of the operator that a node has. -/
def tier? (n : Node) : Option Tier :=
  match n.field? "operator" with
  | some (.token t) => (operatorTable.lookup t.kind).map (·.1)
  | _ => none

/-- The second node is the first, or the left operand of one that is reached from the first. -/
inductive ReachesLeft : Node → Node → Prop
  | refl {n} : ReachesLeft n n
  | left {n l m} (h : n.field? "left" = some (.node l)) (hl : ReachesLeft l m) : ReachesLeft n m

/-- All operators on the left edge of the node are of the level or of tighter ones. -/
def BindsFrom (level : Nat) (n : Node) : Prop :=
  ∀ m, n.ReachesLeft m → m.rule.isOperation = true → ∃ tier, m.tier? = some tier ∧ level ≤ tier.level

/-- The node may stand in front of an operator of the tier. -/
def Precedes (n : Node) (tier : Tier) : Prop :=
  n.rule = .operatorExpression → ∀ t, n.tier? = some t →
    tier.level ≤ t.level ∧ (t.rightAssoc = true → tier.level < t.level)

/-- The operands of the node bind at least as tightly as its own operator wants them to. -/
structure Ordered (n : Node) : Prop where
  /-- Between expressions an operator has both operands, and the right one is of the level that the tier
  gives to right operands. -/
  operation : n.rule = .operatorExpression → ∃ l o r tier,
    n.children = [.node l, .token o, .node r] ∧
    n.fields = [("left", .one 0), ("operator", .one 1), ("right", .one 2)] ∧
    n.tier? = some tier ∧ l.Precedes tier ∧ r.BindsFrom tier.operandLevel
  classification : n.rule = .classificationExpression → ∃ l tier,
    n.field? "left" = some (.node l) ∧ n.tier? = some tier ∧ l.Precedes tier
  suffix : n.rule.isSuffix = true → ∃ l, n.field? "left" = some (.node l) ∧ l.rule.isPrimary = true
  other : n.rule.isOperation = false → n.rule.isSuffix = false → n.field? "left" = none

variable {n l m : Node} {tier : Tier} {level : Nat}

theorem mem_descendants_self (n : Node) : n ∈ n.descendants := by
  cases n
  simp [descendants]

theorem mem_descendantsOf {cs : List Child} (h : .node m ∈ cs) {k : Node} (hk : k ∈ m.descendants) :
    k ∈ descendantsOf cs := by
  induction cs with
  | nil => cases h
  | cons c cs ih =>
    rcases List.mem_cons.1 h with rfl | hm
    · simp [descendantsOf, hk]
    · cases c <;> simp [descendantsOf, ih hm]

theorem mem_descendants_of_field? {name : String} (h : n.field? name = some (.node m)) {k : Node}
    (hk : k ∈ m.descendants) : k ∈ n.descendants := by
  have hm : .node m ∈ n.children := by
    unfold field? at h
    split at h
    · exact List.mem_of_getElem? h
    · exact List.mem_of_getElem? h
    · obtain ⟨i, -, hi⟩ := Option.bind_eq_some_iff.1 h
      exact List.mem_of_getElem? hi
    · cases h
  cases n
  exact List.mem_cons_of_mem _ (mem_descendantsOf hm hk)

/-- Where no operator is on top there is none on the left edge: only suffixes have a left operand then,
and it is a primary expression. -/
theorem bindsFrom_of_not_isOperation (h : ∀ m ∈ n.descendants, m.Ordered)
    (hn : n.rule.isOperation = false) (level : Nat) : n.BindsFrom level := by
  intro m hm ho
  induction hm with
  | refl => simp [hn] at ho
  | @left n l m hl _ ih =>
    have hself := h n n.mem_descendants_self
    rcases hs : n.rule.isSuffix with _ | _
    · simp [hself.other hn hs] at hl
    · obtain ⟨l', hl', hp⟩ := hself.suffix hs
      rw [hl] at hl'
      cases hl'
      exact ih (fun k hk => h k (mem_descendants_of_field? hl hk)) (Rule.not_isOperation_of_isPrimary hp) ho

/-- An operator's node is as loose as the operator, or as what binds loosest to the left of it. -/
theorem bindsFrom_of_left (ht : n.tier? = some tier) (hle : level ≤ tier.level)
    (hl : n.field? "left" = some (.node l)) (h : l.BindsFrom level) : n.BindsFrom level := by
  intro m hm ho
  cases hm with
  | refl => exact ⟨tier, ht, hle⟩
  | left hl' hm =>
    rw [hl] at hl'
    cases hl'
    exact h m hm ho

theorem precedes_of_ne (h : n.rule ≠ .operatorExpression) (tier : Tier) : n.Precedes tier :=
  fun hn => absurd hn h

/-- Behind a right operand comes no operator that could have been part of it. -/
theorem precedes_of_lt {t : Tier} (ht : n.tier? = some t) (hlt : tier.level < t.operandLevel) :
    n.Precedes tier := by
  intro _ t' ht'
  rw [ht] at ht'
  cases ht'
  unfold Tier.operandLevel at hlt
  split at hlt
  · exact ⟨Nat.le_of_lt hlt, fun _ => hlt⟩
  · rename_i hr
    exact ⟨Nat.le_of_lt_succ hlt, fun h => absurd h hr⟩

theorem tier?_eq {t : Token} {q : Rule} (ho : n.field? "operator" = some (.token t))
    (h : operatorTable.lookup t.kind = some (tier, q)) : n.tier? = some tier := by
  simp [tier?, ho, h]

end Node

/-! ### Nodes in order -/

namespace Node

variable {n l : Node} {tier : Tier}

theorem ordered_other (h1 : n.rule.isOperation = false) (h2 : n.rule.isSuffix = false)
    (h : n.field? "left" = none) : n.Ordered where
  operation hn := by simp [hn, Rule.isOperation] at h1
  classification hn := by simp [hn, Rule.isOperation] at h1
  suffix hn := by simp [hn] at h2
  other _ _ := h

theorem ordered_suffix (hs : n.rule.isSuffix = true) (hl : n.field? "left" = some (.node l))
    (hp : l.rule.isPrimary = true) : n.Ordered where
  operation hn := by simp [hn, Rule.isSuffix] at hs
  classification hn := by simp [hn, Rule.isSuffix] at hs
  suffix _ := ⟨l, hl, hp⟩
  other _ hn := by simp [hs] at hn

theorem ordered_classification (hn : n.rule = .classificationExpression)
    (hl : n.field? "left" = some (.node l)) (ht : n.tier? = some tier) (hp : l.Precedes tier) :
    n.Ordered where
  operation h := by simp [h] at hn
  classification _ := ⟨l, tier, hl, ht, hp⟩
  suffix h := by simp [hn, Rule.isSuffix] at h
  other h _ := by simp [hn, Rule.isOperation] at h

section

variable {o : Token} {r : Node}
  (hn : n = .mk .operatorExpression [.node l, .token o, .node r]
    [("left", .one 0), ("operator", .one 1), ("right", .one 2)] false)
include hn

theorem operation_fields : n.rule = .operatorExpression ∧ n.field? "left" = some (.node l) ∧
    n.field? "operator" = some (.token o) := by
  subst hn
  exact ⟨rfl, rfl, rfl⟩

theorem ordered_operation (hl : ∀ m ∈ l.descendants, m.Ordered) (hr : ∀ m ∈ r.descendants, m.Ordered)
    (ht : n.tier? = some tier) (hp : l.Precedes tier) (hb : r.BindsFrom tier.operandLevel) :
    ∀ m ∈ n.descendants, m.Ordered := by
  have hself : n.Ordered := by
    refine ⟨fun _ => ⟨l, o, r, tier, by rw [hn, children], by rw [hn, fields], ht, hp, hb⟩, ?_, ?_, ?_⟩ <;>
    · intro h
      simp [hn, rule, Rule.isSuffix, Rule.isOperation] at h
  intro m hm
  rw [hn, descendants, ← hn] at hm
  simp only [descendantsOf, List.append_nil, List.mem_cons, List.mem_append] at hm
  rcases hm with rfl | hm | hm
  · exact hself
  · exact hl m hm
  · exact hr m hm

end

end Node

/-! ### The grammar -/

/-- The element does not mention the node of an operator. -/
def Element.isRanked : Element → Bool
  | .rule r | .ruleAt r _ => !r.isOperation && !r.isSuffix
  | _ => true

/-- The rule that is all of the row. -/
def onlyRule? : List Element → Option Rule
  | [.rule r] => some r
  | _ => none

theorem eq_of_onlyRule? {es : List Element} {q : Rule} (h : onlyRule? es = some q) : es = [.rule q] := by
  unfold onlyRule? at h
  split at h
  · cases h
    rfl
  · cases h

namespace Grammar

/-- Whether the operators of the grammar are those of the two tables, around operands that are other
rules by themselves. -/
structure Ranked (g : Grammar) : Prop where
  tables : ∀ r t, g.table? r = some t →
    r = .ownedExpression ∧ t = operatorTable ∨ r = .primaryExpression ∧ t = suffixTable
  ownedExpression : g.table? .ownedExpression = some operatorTable ∧
    (g.definition .ownedExpression).inline = false
  primaryExpression : (g.table? .primaryExpression).isSome = true
  rows : ∀ r, ∀ a ∈ g.alternatives r, a.leftRecursive = false →
    rowAll Element.isRanked a.elements = true
  operands : ∀ a ∈ g.alternatives .ownedExpression, a.leftRecursive = false →
    ∃ q, a.elements = [.rule q] ∧ q.isOperand = true ∧ (g.definition q).inline = false
  atoms : ∀ a ∈ g.alternatives .primaryExpression, a.leftRecursive = false →
    ∃ q, a.elements = [.rule q] ∧ q.isAtom = true ∧ (g.definition q).inline = false

end Grammar

theorem ranked_kerml : kerml.Ranked := by
  have h : (∀ r ∈ Rule.all, (kerml.alternatives r).all fun a =>
        a.leftRecursive || rowAll Element.isRanked a.elements) ∧
      ((kerml.alternatives .ownedExpression).all fun a => a.leftRecursive ||
        (onlyRule? a.elements).any fun q => q.isOperand && !(kerml.definition q).inline) ∧
      ((kerml.alternatives .primaryExpression).all fun a => a.leftRecursive ||
        (onlyRule? a.elements).any fun q => q.isAtom && !(kerml.definition q).inline) := by
    decide +kernel
  obtain ⟨hrows, hoperands, hatoms⟩ := h
  simp only [List.all_eq_true, Bool.or_eq_true, Option.any_eq_true, Bool.and_eq_true,
    Bool.not_eq_true'] at hrows hoperands hatoms
  refine ⟨fun _ _ => table_kerml, ⟨rfl, rfl⟩, rfl, fun r a ha hl => ?_, fun a ha hl => ?_, fun a ha hl => ?_⟩
  · exact (hrows r (Rule.mem_all r) a ha).resolve_left (by simp [hl])
  · obtain ⟨q, hq, h1, h2⟩ := (hoperands a ha).resolve_left (by simp [hl])
    exact ⟨q, eq_of_onlyRule? hq, h1, h2⟩
  · obtain ⟨q, hq, h1, h2⟩ := (hatoms a ha).resolve_left (by simp [hl])
    exact ⟨q, eq_of_onlyRule? hq, h1, h2⟩

/-- An operator between expressions has an operand or a type behind it. -/
theorem operatorTable_lookup {k : Kind} {tier : Tier} {q : Rule}
    (h : operatorTable.lookup k = some (tier, q)) :
    (tier.form = .binary → q = .operatorExpression) ∧
      (tier.form ≠ .binary → q = .classificationExpression) := by
  obtain ⟨ht, ho⟩ := Table.mem_tiers_of_lookup h
  have hall : ∀ tier ∈ operatorTable.tiers, ∀ o ∈ tier.operators,
      (tier.form = .binary → o.2 = .operatorExpression) ∧
        (tier.form ≠ .binary → o.2 = .classificationExpression) := by decide
  exact hall tier ht _ ho

theorem suffixTable_lookup {k : Kind} {tier : Tier} {q : Rule}
    (h : suffixTable.lookup k = some (tier, q)) : tier.form ≠ .binary ∧ q.isSuffix = true := by
  obtain ⟨ht, ho⟩ := Table.mem_tiers_of_lookup h
  have hall : ∀ tier ∈ suffixTable.tiers, ∀ o ∈ tier.operators,
      tier.form ≠ .binary ∧ o.2.isSuffix = true := by decide
  exact hall tier ht _ ho

/-! ### Builders -/

/-- The new children of the node in the making, and all nodes inside them, are in order. -/
def Builder.Extends (b b' : Builder) : Prop :=
  ∃ cs, b'.children = b.children ++ cs ∧ ∀ n ∈ Node.descendantsOf cs, n.Ordered

namespace Builder.Extends

variable {b c d : Builder}

theorem refl : b.Extends b := ⟨[], by simp, by simp [Node.descendantsOf]⟩

theorem trans (h1 : b.Extends c) (h2 : c.Extends d) : b.Extends d := by
  obtain ⟨cs, hc, h1⟩ := h1
  obtain ⟨ds, hd, h2⟩ := h2
  refine ⟨cs ++ ds, by rw [hd, hc, List.append_assoc], fun n hn => ?_⟩
  rw [Node.descendantsOf_append, List.mem_append] at hn
  exact hn.elim (h1 n) (h2 n)

theorem pushToken (t : Token) : b.Extends (b.pushToken t) :=
  ⟨[.token t], rfl, by simp [Node.descendantsOf]⟩

theorem pushNode {m : Node} (h : ∀ n ∈ m.descendants, n.Ordered) : b.Extends (b.pushNode m) :=
  ⟨[.node m], rfl, by simpa [Node.descendantsOf] using h⟩

theorem label (h : b.Extends c) (name : String) (many : Bool) (start : Nat) (tokens : Bool)
    (relation : Option Relation) : b.Extends (c.label name many start tokens relation) := by
  simpa [Builder.Extends] using h

/-- The finished node is in order with all inside it, if it is itself and what it began with is. -/
theorem finish (h : b.Extends c) (hb : ∀ n ∈ Node.descendantsOf b.children, n.Ordered)
    (hc : c.finish.Ordered) : ∀ n ∈ c.finish.descendants, n.Ordered := by
  obtain ⟨cs, hcs, h⟩ := h
  intro n hn
  rcases List.mem_cons.1 hn with hn | hn
  · exact hn ▸ hc
  · rw [hcs, Node.descendantsOf_append, List.mem_append] at hn
    exact hn.elim (hb n) (h n)

end Builder.Extends

/-- The node of an operator with its right operand. -/
theorem Builder.binary_finish {l r : Node} (hl : l.rule ≠ .error) (hr : r.rule ≠ .error) (q : Rule)
    (t : Token) :
    (((operator q l t).pushNode r).label "right" false (operator q l t).size false none).finish =
      .mk q [.node l, .token t, .node r]
        [("left", .one 0), ("operator", .one 1), ("right", .one 2)] false := by
  have hb : operator q l t =
      ⟨q, [.node l, .token t], [("left", .one 0), ("operator", .one 1)], false⟩ := by
    have herror : (operator q l t).error = false := by
      simp [operator, pushLabeledNode, pushLabeledToken, start, pushNode, pushToken, push]
    have heta : ∀ b : Builder, b = ⟨b.rule, b.children, b.fields, b.error⟩ := fun _ => rfl
    rw [heta (operator q l t), operator_rule, operator_children, operator_fields q hl, herror]
  rw [hb]
  simp [label, caught, catches, fill, pushNode, push, size, finish, hr]

namespace Setup

variable {u : Setup}

/-! ### Runs -/

/-- What a rule put into a node as `m`. No operator that could have been part of it was left. -/
structure Fits (u : Setup) (r : Rule) (level : Nat) (m : Node) (x' : Session) : Prop where
  ordered : ∀ n ∈ m.descendants, n.Ordered
  operation : r = .ownedExpression → m.rule ≠ .error ∧ m.BindsFrom level ∧
    ∀ tier q, operatorTable.lookup (u.stream.kind x'.pos) = some (tier, q) → tier.level < level
  primary : r = .primaryExpression → m.rule.isPrimary = true
  other : r ≠ .ownedExpression → r ≠ .primaryExpression → m.rule = r

/-- A rule with a node of its own put just that into the node in the making. -/
def Gives (u : Setup) (r : Rule) (level : Nat) (b : Builder) (x' : Session) (b' : Builder) : Prop :=
  (u.grammar.definition r).inline = false → ∃ m, b' = b.pushNode m ∧ u.Fits r level m x'

/-- What the parser counts on. In front of an operator everything read so far is in order, and may stand
there. -/
def Ready (u : Setup) (x : Session) : Task → Prop
  | .element e _ | .items e _ _ _ => e.all Element.isRanked = true
  | .row es _ => rowAll Element.isRanked es = true
  | .body _ => True
  | .call r _ _ => r.isOperation = false ∧ r.isSuffix = false
  | .operators table level scope left => u.grammar.table? scope.rule = some table ∧
      (∀ n ∈ left.descendants, n.Ordered) ∧
      (scope.rule = .ownedExpression → left.rule ≠ .error ∧ left.BindsFrom level ∧
        ∀ tier q, operatorTable.lookup (u.stream.kind x.pos) = some (tier, q) → left.Precedes tier) ∧
      (scope.rule = .primaryExpression → left.rule.isPrimary = true)

/-- What a task puts into a node. -/
def TaskOrders (u : Setup) (b : Builder) (x' : Session) (b' : Builder) : Task → Prop
  | .element e _ => b.Extends b' ∧ ∀ q, e = .rule q → u.Gives q 0 b x' b'
  | .row es _ => b.Extends b' ∧ ∀ q, es = [.rule q] → u.Gives q 0 b x' b'
  | .items _ _ _ _ => b.Extends b'
  | .body scope => b.Extends b' ∧
      (scope.rule = .ownedExpression →
        ∃ q m, q.isOperand = true ∧ b' = b.pushNode m ∧ u.Fits q 0 m x') ∧
      (scope.rule = .primaryExpression → ∃ q m, q.isAtom = true ∧ b' = b.pushNode m ∧ u.Fits q 0 m x')
  | .call r level _ => b.Extends b' ∧ u.Gives r level b x' b'
  | .operators _ level scope _ => ∃ m, b' = b.pushNode m ∧ u.Fits scope.rule level m x'

/-- A wanted token was there, or the end was. -/
theorem expect_extends (hu : u.Regular) {scope : Scope} {set : KindSet} {b b' : Builder}
    {x x' : Session} (h : u.expect scope set b x = .ok b' x') (hx : u.Calm x) (he : x'.errors = []) :
    b.Extends b' := by
  rw [expect_eq hu] at h
  split at h
  · rw [expectEnd_eq] at h
    split at h
    · cases h
      exact .refl
    · cases h
      simp [hx.errors_ne_nil] at he
  · split at h
    · cases h
      exact .pushToken _
    · have hm : (u.missed scope set x).errors ≠ [] := by simp [missed, hx.errors_ne_nil]
      dsimp only at h
      split at h <;>
      · cases h
        exact absurd he hm

theorem expectComment_extends {scope : Scope} {b b' : Builder} {x x' : Session}
    (h : u.expectComment scope b x = .ok b' x') (hx : u.Calm x) (he : x'.errors = []) : b.Extends b' := by
  rw [expectComment_eq] at h
  split at h
  · cases h
    exact .pushToken _
  · cases h
    exact absurd he (hx.errors_ne_nil _ _ _)


theorem Fits.operand {q : Rule} {level : Nat} {m : Node} {x' : Session} (h : u.Fits q level m x')
    (hq : q.isOperand = true) : m.rule.isOperation = false ∧ m.rule ≠ .error := by
  by_cases hp : q = .primaryExpression
  · have hm := h.primary hp
    exact ⟨Rule.not_isOperation_of_isPrimary hm, Rule.ne_error_of_isPrimary hm⟩
  · have hne : q ≠ .ownedExpression := by
      rintro rfl
      cases hq
    rw [h.other hne hp]
    cases q <;> simp_all [Rule.isOperand, Rule.isOperation]

theorem Fits.atom {q : Rule} {level : Nat} {m : Node} {x' : Session} (h : u.Fits q level m x')
    (hq : q.isAtom = true) : m.rule.isPrimary = true := by
  have hm : m.rule = q := by
    refine h.other ?_ ?_ <;>
    · rintro rfl
      cases hq
  simp [hm, Rule.isPrimary, hq]

/-! ### In front of operators -/

section

variable {r q : Rule} {level : Nat} {scope : Scope} {left m : Node} {tier : Tier} {t : Token} {c : Builder}
  {x y : Session}

/-- An operand may stand in front of operators. -/
theorem Fits.ready_operand (hf : u.Fits q 0 m y) (hq : q.isOperand = true)
    (ht : u.grammar.table? scope.rule = some operatorTable) (hs : scope.rule = .ownedExpression) :
    u.Ready y (.operators operatorTable level scope m) := by
  obtain ⟨ho, hne⟩ := hf.operand hq
  refine ⟨ht, hf.ordered, fun _ => ⟨hne, ?_, fun tier _ _ => ?_⟩, fun h => by cases hs.symm.trans h⟩
  · exact Node.bindsFrom_of_not_isOperation hf.ordered ho level
  · refine Node.precedes_of_ne (fun hm => ?_) tier
    simp [hm, Rule.isOperation] at ho

/-- An atom may stand in front of suffixes. -/
theorem Fits.ready_atom (hf : u.Fits q 0 m y) (hq : q.isAtom = true)
    (ht : u.grammar.table? scope.rule = some suffixTable) (hs : scope.rule = .primaryExpression) :
    u.Ready y (.operators suffixTable level scope m) :=
  ⟨ht, hf.ordered, fun h => (by cases hs.symm.trans h), fun _ => hf.atom hq⟩

/-- With its right operand an operator may stand in front of further ones. -/
theorem Ready.binary (hp : u.Ready x (.operators operatorTable level scope left))
    (hs : scope.rule = .ownedExpression) (hl : operatorTable.lookup t.kind = some (tier, .operatorExpression))
    (hk : t.kind = u.stream.kind x.pos) (hle : level ≤ tier.level)
    (hm : u.Fits scope.rule tier.operandLevel m y) :
    u.Ready y (.operators operatorTable level scope (((Builder.operator .operatorExpression left t).pushNode m).label
      "right" false (Builder.operator .operatorExpression left t).size false none).finish) := by
  obtain ⟨ht, hordered, howned, -⟩ := hp
  obtain ⟨hne, hbinds, hprecedes⟩ := howned hs
  obtain ⟨hmne, hmbinds, hmnext⟩ := hm.operation hs
  obtain ⟨n, hn⟩ : ∃ n, n = Node.mk .operatorExpression [.node left, .token t, .node m]
    [("left", .one 0), ("operator", .one 1), ("right", .one 2)] false := ⟨_, rfl⟩
  rw [Builder.binary_finish hne hmne, ← hn]
  obtain ⟨hrule, hleft, hop⟩ := Node.operation_fields hn
  have htier := Node.tier?_eq hop hl
  have hall := Node.ordered_operation hn hordered hm.ordered htier (hprecedes tier _ (hk ▸ hl)) hmbinds
  refine ⟨ht, hall, fun _ => ⟨by simp [hrule], ?_, fun t q' ht' => ?_⟩, fun h => by simp [hs] at h⟩
  · exact Node.bindsFrom_of_left htier hle hleft hbinds
  · exact Node.precedes_of_lt htier (hmnext t q' ht')

/-- With its type a classification may stand in front of further operators. -/
theorem Ready.classification (hp : u.Ready x (.operators operatorTable level scope left))
    (hs : scope.rule = .ownedExpression)
    (hl : operatorTable.lookup t.kind = some (tier, .classificationExpression))
    (hk : t.kind = u.stream.kind x.pos) (hle : level ≤ tier.level) {p : List Token → Prop} {z : Session}
    (hread : u.Reads z (.operator .classificationExpression left t) y c p)
    (hext : (Builder.operator .classificationExpression left t).Extends c) :
    u.Ready y (.operators operatorTable level scope c.finish) := by
  obtain ⟨ht, hordered, howned, -⟩ := hp
  obtain ⟨hne, hbinds, hprecedes⟩ := howned hs
  obtain ⟨hrule, hleft, hop⟩ := hread.operands hne
  have htier := Node.tier?_eq hop hl
  have hn := Node.ordered_classification hrule hleft htier (hprecedes tier _ (hk ▸ hl))
  have hall := hext.finish (by simpa [Node.descendantsOf] using hordered) hn
  refine ⟨ht, hall, fun _ => ⟨by simp [hrule], ?_, fun t _ _ => ?_⟩, fun h => by simp [hs] at h⟩
  · exact Node.bindsFrom_of_left htier hle hleft hbinds
  · exact Node.precedes_of_ne (by simp [hrule]) t

/-- With what belongs to it a suffix may stand in front of further ones. -/
theorem Ready.suffix (hp : u.Ready x (.operators suffixTable level scope left))
    (hs : scope.rule = .primaryExpression) (hq : q.isSuffix = true) {p : List Token → Prop} {z : Session}
    (hread : u.Reads z (.operator q left t) y c p) (hext : (Builder.operator q left t).Extends c) :
    u.Ready y (.operators suffixTable level scope c.finish) := by
  obtain ⟨ht, hordered, -, hprimary⟩ := hp
  obtain ⟨hrule, hleft, -⟩ := hread.operands (Rule.ne_error_of_isPrimary (hprimary hs))
  have hn := Node.ordered_suffix (hrule ▸ hq) hleft (hprimary hs)
  have hall := hext.finish (by simpa [Node.descendantsOf] using hordered) hn
  exact ⟨ht, hall, fun h => by simp [hs] at h, fun _ => by simp [hrule, Rule.isPrimary, hq]⟩

end

/-! ### Runs that order -/

/-- A run that reports nothing puts only nodes in order into the tree. -/
theorem Runs.orders (hu : u.Regular) (hg : u.grammar.Readable) (hr : u.grammar.Ranked) {n : Nat}
    {task : Task} {x x' : Session} {b b' : Builder} (h : u.Runs n task x b x' b') (hx : u.Calm x)
    (he : x'.errors = []) (hp : u.Ready x task) : u.TaskOrders b x' b' task := by
  induction h with
  | token h | relation h | oneOf h =>
    exact ⟨expect_extends hu h hx he, fun q hq => by cases hq⟩
  | comment h => exact ⟨expectComment_extends h hx he, fun q hq => by cases hq⟩
  | rule _ ih =>
    simp only [Ready, Element.all, Element.isRanked, Bool.and_eq_true, Bool.not_eq_true'] at hp
    obtain ⟨h1, h2⟩ := ih hx he hp
    exact ⟨h1, fun q hq => by cases hq; exact h2⟩
  | ruleAt _ ih =>
    simp only [Ready, Element.all, Element.isRanked, Bool.and_eq_true, Bool.not_eq_true'] at hp
    exact ⟨(ih hx he hp).1, fun q hq => by cases hq⟩
  | present hd _ ih =>
    simp only [Ready, Element.all, Element.isRanked, Bool.true_and] at hp
    exact ⟨(ih (hx.enter hd) he hp).1, fun q hq => by cases hq⟩
  | absent _ => exact ⟨.refl, fun q hq => by cases hq⟩
  | repeated _ ih =>
    simp only [Ready, Element.all, Element.isRanked, Bool.true_and] at hp
    exact ⟨ih hx he hp, fun q hq => by cases hq⟩
  | seq _ ih =>
    simp only [Ready, Element.all, Element.isRanked, Bool.true_and] at hp
    exact ⟨(ih hx he hp).1, fun q hq => by cases hq⟩
  | labeled _ ih =>
    simp only [Ready, Element.all, Element.isRanked, Bool.true_and] at hp
    exact ⟨(ih hx he hp).1.label _ _ _ _ _, fun q hq => by cases hq⟩
  | nil => exact ⟨.refl, fun q hq => by cases hq⟩
  | cons h1 h2 ih1 ih2 =>
    simp only [Ready, rowAll, Bool.and_eq_true] at hp
    obtain ⟨hy, hye⟩ := hx.behind hu h1 (h2.advances hu) he
    obtain ⟨hext, hgives⟩ := ih1 hx hye hp.1
    refine ⟨hext.trans (ih2 hy he hp.2).1, fun q hq => ?_⟩
    cases hq
    cases h2
    exact hgives q rfl
  | moved hd h1 _ h2 ih1 ih2 =>
    obtain ⟨hz, hze⟩ := (hx.checked.enterItem hd).behind hu h1
      (fun hf => h2.advances_from hu (Advances.refl hf |>.noted _)) he
    exact (ih1 (hx.checked.enterItem hd) hze hp).1.trans (ih2 (hz.noted _) he hp)
  | stuck hd _ _ _ ih => exact (ih (hx.checked.enterItem hd) he hp).1
  | freed hd h1 _ _ hw h2 _ _ =>
    subst hw
    exact absurd he ((hx.checked.enterItem hd).freed_ne_nil hu h1 h2)
  | ended _ _ => exact .refl
  | resumed hd _ hw h2 _ =>
    subst hw
    exact absurd he ((hx.checked.enterItem hd).strayed_ne_nil hu h2)
  | @chosen _ scope _ _ i _ _ _ hd hi _ ih =>
    obtain ⟨a, ha, hleft⟩ := Grammar.mem_choices.1 hi
    have hm := List.mem_of_getElem? ha
    rw [Resolver.elements_of_getElem? ha] at ih
    obtain ⟨hext, hgives⟩ := ih ((hx.noted _).decide hu hd) he (hr.rows _ a hm hleft)
    refine ⟨hext, fun hs => ?_, fun hs => ?_⟩
    · obtain ⟨q, hq, hoperand, hinline⟩ := hr.operands a (hs ▸ hm) hleft
      obtain ⟨m, hb, hf⟩ := hgives q hq hinline
      exact ⟨q, m, hoperand, hb, hf⟩
    · obtain ⟨q, hq, hatom, hinline⟩ := hr.atoms a (hs ▸ hm) hleft
      obtain ⟨m, hb, hf⟩ := hgives q hq hinline
      exact ⟨q, m, hatom, hb, hf⟩
  | lost hd h => exact absurd he (((hx.noted _).decide hu hd).recover_ne_nil h)
  | refused h => exact absurd he ((hx.called _ _).recover_ne_nil h)
  | inlined _ hi _ ih =>
    exact ⟨(ih ((hx.called _ _).noted _) he trivial).1, fun h => by simp [hi] at h⟩
  | @wrapped _ r _ _ _ _ _ c ht _ h ih =>
    have hbody := (ih ((hx.called _ _).noted _) he trivial).1
    have hread : u.Reads _ _ _ _ _ := h.reads hu hg ((hx.called _ _).noted _) he trivial
    have hrule : c.finish.rule = r := hread.rule
    have hleft : c.finish.field? "left" = none := by
      simp [Node.field?, Node.slot?, Builder.finish, Node.fields, hread.operand rfl]
    have hordered := hbody.finish (by simp [Builder.start, Node.descendantsOf])
      (Node.ordered_other (hrule ▸ hp.1) (hrule ▸ hp.2) hleft)
    refine ⟨.pushNode hordered, fun _ => ⟨_, rfl, hordered, fun hr' => ?_, fun hr' => ?_, fun _ _ => hrule⟩⟩
    · rw [hr', hr.ownedExpression.1] at ht
      cases ht
    · have hsome := hr.primaryExpression
      rw [← hr', ht] at hsome
      cases hsome
  | @climbed _ r level _ _ b table y c z b' ht h1 h2 ih1 ih2 =>
    obtain ⟨hy, hye⟩ := ((hx.called _ _).noted _).behind hu h1 (h2.advances hu) he
    obtain ⟨-, howned, hprimary⟩ := ih1 ((hx.called _ _).noted _) hye trivial
    have hfits : ∃ m, b' = b.pushNode m ∧ u.Fits r level m z := by
      rcases hr.tables r table ht with ⟨rfl, rfl⟩ | ⟨rfl, rfl⟩
      · obtain ⟨q, m, hq, rfl, hf⟩ := howned rfl
        exact ih2 hy he (hf.ready_operand hq ht rfl)
      · obtain ⟨q, m, hq, rfl, hf⟩ := hprimary rfl
        exact ih2 hy he (hf.ready_atom hq ht rfl)
    obtain ⟨m, rfl, hf⟩ := hfits
    exact ⟨.pushNode hf.ordered, fun _ => ⟨m, rfl, hf⟩⟩
  | @done _ table level scope left x b hl =>
    obtain ⟨ht, hordered, howned, hprimary⟩ := hp
    refine ⟨left, rfl, hordered, fun hs => ?_, hprimary, fun h1 h2 => ?_⟩
    · obtain ⟨hne, hbinds, -⟩ := howned hs
      rw [hs, hr.ownedExpression.1] at ht
      cases ht
      exact ⟨hne, hbinds, hl⟩
    · rcases hr.tables _ _ ht with ⟨hs, -⟩ | ⟨hs, -⟩
      · exact absurd hs h1
      · exact absurd hs h2
  | @binary _ table level scope left x b tier q y c _ _ hl hle hf hend h1 h2 ih1 ih2 =>
    have hstart := hx.checked.operatedAt hend
    obtain ⟨hy, hye⟩ := hstart.behind hu h1 (h2.advances hu) he
    rcases hr.tables _ _ hp.1 with ⟨hs, rfl⟩ | ⟨hs, rfl⟩
    · obtain rfl := (operatorTable_lookup hl).1 hf
      have hright := (ih1 hstart hye (by rw [hs]; exact ⟨rfl, rfl⟩)).2
      obtain ⟨m, rfl, hm⟩ := hright (by rw [hs]; exact hr.ownedExpression.2)
      exact ih2 hy he (Ready.binary hp hs hl rfl hle hm)
    · exact absurd hf (suffixTable_lookup hl).1
  | @suffix _ table level scope left x b tier q y c _ _ hl hle hf hend h1 h2 ih1 ih2 =>
    have hstart := hx.checked.operatedAt hend
    obtain ⟨hy, hye⟩ := hstart.behind hu h1 (h2.advances hu) he
    have hread : u.Reads _ _ _ _ _ := h1.reads hu hg hstart hye trivial
    have hext := (ih1 hstart hye trivial).1
    rcases hr.tables _ _ hp.1 with ⟨hs, rfl⟩ | ⟨hs, rfl⟩
    · obtain rfl := (operatorTable_lookup hl).2 hf
      exact ih2 hy he (Ready.classification hp hs hl rfl hle hread hext)
    · exact ih2 hy he (Ready.suffix hp hs (suffixTable_lookup hl).2 hread hext)

/-- A whole parse that reports nothing gives a tree of nodes in order. -/
theorem Rooted.orders (hu : u.Regular) (hg : u.grammar.Readable) (hr : u.grammar.Ranked)
    (hm : u.settings.Reports) {r : Rule} {n : Node} {x : Session} (h : u.Rooted r n x)
    (he : x.errors = []) (h1 : r.isOperation = false) (h2 : r.isSuffix = false) :
    ∀ m ∈ n.descendants, m.Ordered := by
  obtain ⟨y, b, c, hrun, hend, rfl⟩ := h
  have hx : u.Calm (.start u.settings) := ⟨fit_start u, rfl, hm⟩
  obtain ⟨hy, hye⟩ := hx.behind hu hrun (fun hf => (Advances.refl hf).expectEnd hend) he
  have hread : u.Reads _ _ _ _ _ := hrun.reads hu hg hx hye trivial
  have hext := (hrun.orders hu hg hr hx hye ⟨h1, h2⟩).1
  rw [expectEnd_eq] at hend
  split at hend
  · cases hend
    unfold Builder.unwrapped
    split
    · rename_i m hs
      obtain ⟨cs, hcs, hordered⟩ := hext
      rw [(Builder.children_of_single? hs).1] at hcs
      simp only [Builder.start, List.nil_append] at hcs
      rw [Builder.finish_reopen]
      subst hcs
      simpa [Node.descendantsOf] using hordered
    · have hrule : b.finish.rule = r := hread.rule
      have hleft : b.finish.field? "left" = none := by
        simp [Node.field?, Node.slot?, Builder.finish, Node.fields, hread.operand rfl]
      exact hext.finish (by simp [Builder.start, Node.descendantsOf])
        (Node.ordered_other (hrule ▸ h1) (hrule ▸ h2) hleft)
  · cases hend
    exact absurd he (by simpa using hy.errors_ne_nil _ _ _)

end Setup

/-- In what is accepted without an error operators bind as their tiers say. The node of an operator is
not asked for by itself, since then there is nothing in front of it. -/
theorem parseTokens_ordered (r : Rule) (ts : List Token) (settings : Settings)
    (hm : settings.maxErrors ≠ some 0) (h1 : r.isOperation = false) (h2 : r.isSuffix = false)
    (p : Parse) (hp : (parseTokens r ts settings).1 = .ok p) (hok : p.ok = true) :
    ∀ n ∈ p.root.descendants, n.Ordered := by
  obtain ⟨x, hr, he⟩ := rooted_of_parseTokens hp
  have hnil : x.errors = [] := by
    rw [Parse.ok, he, List.isEmpty_iff] at hok
    exact hok
  exact hr.orders (regular_ofTokens ts settings) readable_kerml ranked_kerml hm hnil h1 h2

/-- Two parses in one computation: what takes long is to work out the sets of the grammar. The second may
report nothing, and opens only one rule. -/
theorem checked_chains :
    (parseTokens .ownedExpression (scan "a - 2 ^ b ^ 3 - c.d") .standard).1.toOption.any Parse.ok =
        true ∧
      (parseTokens .ownedExpression (scan "1 + 2")
        ((Settings.standard.withMaxErrors 0).withMaxDepth 1)).1.toOption.any (fun p => p.ok &&
          p.root.descendants.any fun n => n.rule == .operatorExpression &&
            n.fields.map (·.1) == ["left", "operator"]) = true := by
  decide +kernel

/-- Powers group to the right and differences to the left, and the suffix stays with its operand. -/
theorem parseTokens_ordered_chain :
    ∃ p, (parseTokens .ownedExpression (scan "a - 2 ^ b ^ 3 - c.d") .standard).1 = .ok p ∧ p.ok = true ∧
      ∀ n ∈ p.root.descendants, n.Ordered := by
  obtain ⟨p, hp⟩ := parseTokens_answers .ownedExpression (scan "a - 2 ^ b ^ 3 - c.d")
    (rfl : Settings.standard.cancel = none)
  have hok := checked_chains.1
  rw [hp] at hok
  exact ⟨p, hp, hok, parseTokens_ordered _ _ _ (by decide) rfl rfl p hp hok⟩

/-- A parse that may report nothing is never found wrong. Here the right operand is one rule too deep, and
its sum goes without it. -/
theorem parseTokens_unordered_mute :
    ∃ p, (parseTokens .ownedExpression (scan "1 + 2")
        ((Settings.standard.withMaxErrors 0).withMaxDepth 1)).1 = .ok p ∧ p.ok = true ∧
      ∃ n ∈ p.root.descendants, n.rule = .operatorExpression ∧
        n.fields.map (·.1) = ["left", "operator"] := by
  obtain ⟨p, hp⟩ := parseTokens_answers .ownedExpression (scan "1 + 2")
    (rfl : ((Settings.standard.withMaxErrors 0).withMaxDepth 1).cancel = none)
  have h := checked_chains.2
  rw [hp] at h
  simp only [Except.toOption, Option.any_some, Bool.and_eq_true, List.any_eq_true, beq_iff_eq] at h
  exact ⟨p, hp, h⟩

end KermlText
