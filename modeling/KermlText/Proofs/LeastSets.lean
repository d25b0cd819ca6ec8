import KermlText.Grammar
import KermlText.Proofs.Saturation

/-! The sets that lookahead works with are the least that the rules allow. A rule may be empty, or start with
a kind, if there is a derivation of that; and the kinds that may follow are those of the least family that has
the end of input everywhere and, at every place where a rule is mentioned, what may come next there. -/

namespace KermlText

namespace Grammar

/-! ### What the rules say -/

section

variable (g : Grammar)

/-- No token has to be there for the element. -/
inductive MayBeEmpty : Element → Prop
  | rule {r a} (ha : a ∈ g.alternatives r) (h : ∀ e ∈ a.elements, MayBeEmpty e) : MayBeEmpty (.rule r)
  | ruleAt {r level} (h : MayBeEmpty (.rule r)) : MayBeEmpty (.ruleAt r level)
  | optional {e} : MayBeEmpty (.optional e)
  | none {e resync} : MayBeEmpty (.repeated e 0 resync)
  | some {e least resync} (h : MayBeEmpty e) : MayBeEmpty (.repeated e least resync)
  | seq {es} (h : ∀ e ∈ es, MayBeEmpty e) : MayBeEmpty (.seq es)
  | labeled {name many e} (h : MayBeEmpty e) : MayBeEmpty (.labeled name many e)

/-- The first token of the element may be of the kind. In a row it is that of an element with only such in
front of it as may be empty. -/
inductive CanStart (k : Kind) : Element → Prop
  | token : CanStart k (.token k)
  | relation {relation} : CanStart k (.relation k relation)
  | oneOf {ks} (h : ks.contains k = true) : CanStart k (.oneOf ks)
  | comment (h : k = .blockComment) : CanStart k .comment
  | rule {r a pre e post} (ha : a ∈ g.alternatives r) (hrow : a.elements = pre ++ e :: post)
    (hpre : ∀ x ∈ pre, g.MayBeEmpty x) (h : CanStart k e) : CanStart k (.rule r)
  | ruleAt {r level} (h : CanStart k (.rule r)) : CanStart k (.ruleAt r level)
  | optional {e} (h : CanStart k e) : CanStart k (.optional e)
  | repeated {e least resync} (h : CanStart k e) : CanStart k (.repeated e least resync)
  | seq {pre e post} (hpre : ∀ x ∈ pre, g.MayBeEmpty x) (h : CanStart k e) : CanStart k (.seq (pre ++ e :: post))
  | labeled {name many e} (h : CanStart k e) : CanStart k (.labeled name many e)

/-- The rule is mentioned in the element, and behind the mention the elements `rest` may come next. Inside a
list that is, behind the rest of the item, the list once more. -/
inductive Occurs (r : Rule) : Element → List Element → Prop
  | rule : Occurs r (.rule r) []
  | ruleAt {level} : Occurs r (.ruleAt r level) []
  | optional {e rest} (h : Occurs r e rest) : Occurs r (.optional e) rest
  | repeated {e least resync rest} (h : Occurs r e rest) :
    Occurs r (.repeated e least resync) (rest ++ [.repeated e 0 resync])
  | seq {pre e post rest} (h : Occurs r e rest) : Occurs r (.seq (pre ++ e :: post)) (rest ++ post)
  | labeled {name many e rest} (h : Occurs r e rest) : Occurs r (.labeled name many e) rest

/-- The family allows each rule what may come next wherever the rule is mentioned. -/
structure Follows (follows : Rule → Kind → Prop) : Prop where
  eof : ∀ r, follows r .eof
  next : ∀ {s r a rest k}, a ∈ g.alternatives s → Occurs r (.seq a.elements) rest →
    g.CanStart k (.seq rest) → follows r k
  last : ∀ {s r a rest k}, a ∈ g.alternatives s → Occurs r (.seq a.elements) rest →
    (∀ e ∈ rest, g.MayBeEmpty e) → follows s k → follows r k

/-- The rows of elements that a rule may be. -/
def rows (r : Rule) : List (List Element) := (g.alternatives r).map (·.elements)

end

/-! ### Rules that may be empty -/

section

variable {g : Grammar} {nullable : Rule → Bool}

mutual

theorem mayBeEmpty_of_isNullable (h : ∀ r, nullable r = true → g.MayBeEmpty (.rule r)) :
    ∀ e : Element, e.isNullable nullable = true → g.MayBeEmpty e
  | .token _, he | .oneOf _, he | .relation _ _, he | .comment, he => by simp [Element.isNullable] at he
  | .rule r, he => h r (by simpa [Element.isNullable] using he)
  | .ruleAt r _, he => .ruleAt (h r (by simpa [Element.isNullable] using he))
  | .optional _, _ => .optional
  | .repeated e least _, he => by
    simp only [Element.isNullable, Bool.or_eq_true, beq_iff_eq] at he
    rcases he with rfl | he
    · exact .none
    · exact .some (mayBeEmpty_of_isNullable h e he)
  | .seq es, he => .seq (mayBeEmpty_of_allNullable h es (by simpa [Element.isNullable] using he))
  | .labeled _ _ e, he => .labeled (mayBeEmpty_of_isNullable h e (by simpa [Element.isNullable] using he))

theorem mayBeEmpty_of_allNullable (h : ∀ r, nullable r = true → g.MayBeEmpty (.rule r)) :
    ∀ es : List Element, allNullable nullable es = true → ∀ e ∈ es, g.MayBeEmpty e
  | [], _ => nofun
  | e :: es, he => by
    simp only [allNullable, Bool.and_eq_true] at he
    exact List.forall_mem_cons.2 ⟨mayBeEmpty_of_isNullable h e he.1, mayBeEmpty_of_allNullable h es he.2⟩

end

theorem allNullable_iff {es : List Element} :
    allNullable nullable es = true ↔ ∀ e ∈ es, e.isNullable nullable = true := by
  induction es with
  | nil => simp [allNullable]
  | cons e es ih => simp [allNullable, ih]

theorem isNullable_of_mayBeEmpty
    (h : ∀ r, ∀ a ∈ g.alternatives r, allNullable nullable a.elements = true → nullable r = true)
    {e : Element} (he : g.MayBeEmpty e) : e.isNullable nullable = true := by
  induction he with
  | rule ha _ ih =>
    simp only [Element.isNullable]
    exact h _ _ ha (allNullable_iff.2 ih)
  | ruleAt _ ih => simpa [Element.isNullable] using ih
  | optional | none => simp [Element.isNullable]
  | some _ ih =>
    simp only [Element.isNullable, Bool.or_eq_true]
    exact .inr ih
  | seq _ ih =>
    simp only [Element.isNullable]
    exact allNullable_iff.2 ih
  | labeled _ ih => simpa [Element.isNullable] using ih

end

/-! ### Kinds that may start a rule -/

section

variable {g : Grammar} {nullable : Rule → Bool} {first : Rule → KindSet} {k : Kind}

/-- The kinds of a row are those of an element with only such in front of it as may be empty. -/
theorem contains_rowFirstKinds {es : List Element} : (rowFirstKinds nullable first es).contains k = true ↔
    ∃ pre e post, es = pre ++ e :: post ∧ (∀ x ∈ pre, x.isNullable nullable = true) ∧
      (e.firstKinds nullable first).contains k = true := by
  induction es with
  | nil => simp [rowFirstKinds]
  | cons x es ih =>
    constructor
    · intro h
      unfold rowFirstKinds at h
      split at h
      · rename_i hx
        rw [KindSet.contains_union, Bool.or_eq_true, ih] at h
        rcases h with h | ⟨pre, e, post, rfl, hpre, he⟩
        · exact ⟨[], x, es, rfl, nofun, h⟩
        · exact ⟨x :: pre, e, post, rfl, List.forall_mem_cons.2 ⟨hx, hpre⟩, he⟩
      · exact ⟨[], x, es, rfl, nofun, h⟩
    · rintro ⟨pre, e, post, hes, hpre, he⟩
      unfold rowFirstKinds
      cases pre with
      | nil =>
        cases hes
        split
        · rw [KindSet.contains_union, he, Bool.true_or]
        · exact he
      | cons y pre =>
        cases hes
        rw [if_pos (hpre x List.mem_cons_self), KindSet.contains_union, Bool.or_eq_true, ih]
        exact .inr ⟨pre, e, post, rfl, fun z hz => hpre z (List.mem_cons_of_mem _ hz), he⟩

mutual

theorem canStart_of_firstKinds (hempty : ∀ r, nullable r = true → g.MayBeEmpty (.rule r))
    (hfirst : ∀ r k, (first r).contains k = true → g.CanStart k (.rule r)) :
    ∀ e : Element, (e.firstKinds nullable first).contains k = true → g.CanStart k e
  | .token a, h => by
    obtain rfl : a = k := by simpa [Element.firstKinds] using h
    exact .token
  | .relation a _, h => by
    obtain rfl : a = k := by simpa [Element.firstKinds] using h
    exact .relation
  | .oneOf ks, h => .oneOf (by simpa [Element.firstKinds] using h)
  | .comment, h => .comment (by simpa [Element.firstKinds, eq_comm] using h)
  | .rule r, h => hfirst r k (by simpa [Element.firstKinds] using h)
  | .ruleAt r _, h => .ruleAt (hfirst r k (by simpa [Element.firstKinds] using h))
  | .optional e, h => .optional (canStart_of_firstKinds hempty hfirst e (by simpa [Element.firstKinds] using h))
  | .repeated e _ _, h => .repeated (canStart_of_firstKinds hempty hfirst e (by simpa [Element.firstKinds] using h))
  | .labeled _ _ e, h => .labeled (canStart_of_firstKinds hempty hfirst e (by simpa [Element.firstKinds] using h))
  | .seq es, h => by
    obtain ⟨pre, e, post, rfl, hpre, he⟩ :=
      canStart_of_rowFirstKinds hempty hfirst es (by simpa [Element.firstKinds] using h)
    exact .seq hpre he

theorem canStart_of_rowFirstKinds (hempty : ∀ r, nullable r = true → g.MayBeEmpty (.rule r))
    (hfirst : ∀ r k, (first r).contains k = true → g.CanStart k (.rule r)) :
    ∀ es : List Element, (rowFirstKinds nullable first es).contains k = true →
    ∃ pre e post, es = pre ++ e :: post ∧ (∀ x ∈ pre, g.MayBeEmpty x) ∧ g.CanStart k e
  | [], h => by simp [rowFirstKinds] at h
  | x :: es, h => by
    unfold rowFirstKinds at h
    split at h
    · rename_i hx
      rw [KindSet.contains_union, Bool.or_eq_true] at h
      rcases h with h | h
      · exact ⟨[], x, es, rfl, nofun, canStart_of_firstKinds hempty hfirst x h⟩
      · obtain ⟨pre, e, post, rfl, hpre, he⟩ := canStart_of_rowFirstKinds hempty hfirst es h
        have hx := mayBeEmpty_of_isNullable hempty x hx
        exact ⟨x :: pre, e, post, rfl, List.forall_mem_cons.2 ⟨hx, hpre⟩, he⟩
    · exact ⟨[], x, es, rfl, nofun, canStart_of_firstKinds hempty hfirst x h⟩

end

end

section

variable {g : Grammar} {nullable : Rule → Bool} {first : Rule → KindSet} {k : Kind}

theorem firstKinds_of_canStart
    (hempty : ∀ {e : Element}, g.MayBeEmpty e → e.isNullable nullable = true)
    (hfirst : ∀ r k, ∀ a ∈ g.alternatives r, (rowFirstKinds nullable first a.elements).contains k = true →
      (first r).contains k = true)
    {e : Element} (he : g.CanStart k e) : (e.firstKinds nullable first).contains k = true := by
  induction he with
  | token | relation => simp [Element.firstKinds]
  | oneOf h => simpa [Element.firstKinds] using h
  | comment h => simp [Element.firstKinds, h]
  | rule ha hrow hpre _ ih =>
    simp only [Element.firstKinds]
    exact hfirst _ _ _ ha (contains_rowFirstKinds.2 ⟨_, _, _, hrow, fun x hx => hempty (hpre x hx), ih⟩)
  | ruleAt _ ih | optional _ ih | repeated _ ih | labeled _ ih => simpa [Element.firstKinds] using ih
  | seq hpre _ ih =>
    simp only [Element.firstKinds]
    exact contains_rowFirstKinds.2 ⟨_, _, _, rfl, fun x hx => hempty (hpre x hx), ih⟩

end

end Grammar

/-! ### Mentions -/

section

variable {nullable : Rule → Bool} {first : Rule → KindSet}

theorem Next.ext_contains {m n : Next} (hk : ∀ k, m.kinds.contains k = n.kinds.contains k)
    (ht : m.throughEnd = n.throughEnd) : m = n := by
  obtain ⟨kinds, throughEnd⟩ := m
  obtain ⟨kinds', throughEnd'⟩ := n
  exact congrArg₂ Next.mk (KindSet.ext_contains hk) ht

theorem contains_kinds_before (es : List Element) (next : Next) (k : Kind) :
    (next.before nullable first es).kinds.contains k =
      ((rowFirstKinds nullable first es).contains k || allNullable nullable es && next.kinds.contains k) := by
  unfold Next.before
  rw [KindSet.contains_union]
  cases allNullable nullable es <;> simp

theorem allNullable_append (es fs : List Element) :
    allNullable nullable (es ++ fs) = (allNullable nullable es && allNullable nullable fs) := by
  induction es with
  | nil => simp [allNullable]
  | cons e es ih => simp [allNullable, ih, Bool.and_assoc]

theorem contains_rowFirstKinds_append (es fs : List Element) (k : Kind) :
    (rowFirstKinds nullable first (es ++ fs)).contains k =
      ((rowFirstKinds nullable first es).contains k ||
        allNullable nullable es && (rowFirstKinds nullable first fs).contains k) := by
  induction es with
  | nil => simp [rowFirstKinds, allNullable]
  | cons e es ih =>
    rw [List.cons_append, rowFirstKinds, rowFirstKinds, allNullable]
    cases e.isNullable nullable with
    | true => simp [ih, Bool.or_assoc]
    | false => simp

@[simp] theorem Next.before_nil (next : Next) : next.before nullable first [] = next := by
  refine Next.ext_contains (fun k => ?_) ?_
  · rw [contains_kinds_before]
    simp [rowFirstKinds, allNullable]
  · simp [Next.before, allNullable]

theorem Next.before_append (es fs : List Element) (next : Next) :
    next.before nullable first (es ++ fs) = (next.before nullable first fs).before nullable first es := by
  refine Next.ext_contains (fun k => ?_) ?_
  · rw [contains_kinds_before, contains_kinds_before, contains_kinds_before, contains_rowFirstKinds_append,
      allNullable_append]
    cases allNullable nullable es <;> simp [Bool.or_assoc]
  · simp [Next.before, allNullable_append, Bool.and_assoc]

/-- Behind an item of a list the list may go on. -/
theorem Next.before_again (e : Element) (resync : Bool) (next : Next) :
    next.before nullable first [.repeated e 0 resync] =
      ⟨next.kinds ∪ e.firstKinds nullable first, next.throughEnd⟩ := by
  refine Next.ext_contains (fun k => ?_) ?_
  · rw [contains_kinds_before, KindSet.contains_union]
    simp [rowFirstKinds, allNullable, Element.isNullable, Element.firstKinds, Bool.or_comm]
  · simp [Next.before, allNullable, Element.isNullable]

variable {r : Rule} {m : Rule × Next}

theorem mem_rowMentions {es : List Element} {next : Next} : m ∈ rowMentions nullable first es next ↔
    ∃ pre e post, es = pre ++ e :: post ∧ m ∈ e.mentions nullable first (next.before nullable first post) := by
  induction es with
  | nil => simp [rowMentions]
  | cons x es ih =>
    rw [rowMentions, List.mem_append, ih]
    constructor
    · rintro (h | ⟨pre, e, post, rfl, h⟩)
      · exact ⟨[], x, es, rfl, h⟩
      · exact ⟨x :: pre, e, post, rfl, h⟩
    · rintro ⟨pre, e, post, hes, h⟩
      cases pre with
      | nil =>
        cases hes
        exact .inl h
      | cons y pre =>
        cases hes
        exact .inr ⟨pre, e, post, rfl, h⟩

/-- A mention in a row is one in a longer row. -/
theorem Grammar.Occurs.cons {es rest : List Element} (h : Grammar.Occurs r (.seq es) rest) (e : Element) :
    Grammar.Occurs r (.seq (e :: es)) rest := by
  generalize hes : Element.seq es = x at h
  cases h with
  | @seq pre e' post rest h =>
    cases hes
    have hocc : Grammar.Occurs r (.seq ((e :: pre) ++ e' :: post)) (rest ++ post) := .seq h
    exact hocc
  | rule | ruleAt | optional | repeated | labeled => cases hes

mutual

theorem occurs_of_mem_mentions : ∀ (e : Element) (next : Next), m ∈ e.mentions nullable first next →
    ∃ rest, Grammar.Occurs m.1 e rest ∧ m.2 = next.before nullable first rest
  | .token _, next, h | .oneOf _, next, h | .relation _ _, next, h | .comment, next, h => by
    simp [Element.mentions] at h
  | .rule r, next, h => by
    simp only [Element.mentions, List.mem_singleton] at h
    subst h
    exact ⟨[], .rule, (Next.before_nil _).symm⟩
  | .ruleAt r _, next, h => by
    simp only [Element.mentions, List.mem_singleton] at h
    subst h
    exact ⟨[], .ruleAt, (Next.before_nil _).symm⟩
  | .optional e, next, h => by
    simp only [Element.mentions] at h
    obtain ⟨rest, ho, hn⟩ := occurs_of_mem_mentions e next h
    exact ⟨rest, .optional ho, hn⟩
  | .labeled _ _ e, next, h => by
    simp only [Element.mentions] at h
    obtain ⟨rest, ho, hn⟩ := occurs_of_mem_mentions e next h
    exact ⟨rest, .labeled ho, hn⟩
  | .repeated e _ resync, next, h => by
    simp only [Element.mentions] at h
    rw [← Next.before_again e resync] at h
    obtain ⟨rest, ho, hn⟩ := occurs_of_mem_mentions e _ h
    exact ⟨rest ++ [.repeated e 0 resync], .repeated ho, by rw [Next.before_append, hn]⟩
  | .seq es, next, h => by
    simp only [Element.mentions] at h
    exact occurs_of_mem_rowMentions es next h

theorem occurs_of_mem_rowMentions : ∀ (es : List Element) (next : Next), m ∈ rowMentions nullable first es next →
    ∃ rest, Grammar.Occurs m.1 (.seq es) rest ∧ m.2 = next.before nullable first rest
  | [], next, h => by simp [rowMentions] at h
  | e :: es, next, h => by
    rw [rowMentions, List.mem_append] at h
    rcases h with h | h
    · obtain ⟨rest, ho, hn⟩ := occurs_of_mem_mentions e _ h
      have hocc : Grammar.Occurs m.1 (.seq ([] ++ e :: es)) (rest ++ es) := .seq ho
      exact ⟨rest ++ es, hocc, by rw [Next.before_append, hn]⟩
    · obtain ⟨rest, ho, hn⟩ := occurs_of_mem_rowMentions es next h
      exact ⟨rest, ho.cons e, hn⟩

end

theorem mem_mentions_of_occurs {e : Element} {rest : List Element} (h : Grammar.Occurs r e rest) (next : Next) :
    (r, next.before nullable first rest) ∈ e.mentions nullable first next := by
  induction h generalizing next with
  | rule | ruleAt => simp [Element.mentions]
  | optional _ ih | labeled _ ih => simpa [Element.mentions] using ih next
  | @repeated e _ resync _ _ ih =>
    simp only [Element.mentions]
    rw [Next.before_append, Next.before_again]
    exact ih _
  | seq _ ih =>
    simp only [Element.mentions]
    rw [Next.before_append]
    exact mem_rowMentions.2 ⟨_, _, _, rfl, ih _⟩

/-- Where a rule is used: at every mention in an alternative. -/
theorem mem_uses {rows : Rule → List (List Element)} {u : Use} : u ∈ uses rows nullable first ↔
    ∃ s, ∃ es ∈ rows s, ∃ r rest, Grammar.Occurs r (.seq es) rest ∧
      u = ⟨r, rowFirstKinds nullable first rest, if allNullable nullable rest then some s else none⟩ := by
  have hkinds (rest : List Element) : (Next.before nullable first rest ⟨∅, true⟩).kinds =
      rowFirstKinds nullable first rest := KindSet.ext_contains fun k => by
    rw [contains_kinds_before]
    simp
  have hend (rest : List Element) : (Next.before nullable first rest ⟨∅, true⟩).throughEnd =
      allNullable nullable rest := by simp [Next.before]
  simp only [uses, List.mem_flatMap, List.mem_map, Rule.mem_all, true_and]
  constructor
  · rintro ⟨s, es, hes, m, hm, rfl⟩
    obtain ⟨rest, ho, hn⟩ := occurs_of_mem_rowMentions es _ hm
    exact ⟨s, es, hes, m.1, rest, ho, by rw [hn, hkinds, hend]⟩
  · rintro ⟨s, es, hes, r, rest, ho, rfl⟩
    have hm : (r, Next.before nullable first rest ⟨∅, true⟩) ∈
        (Element.seq es).mentions nullable first ⟨∅, true⟩ := mem_mentions_of_occurs ho _
    simp only [Element.mentions] at hm
    exact ⟨s, es, hes, _, hm, by rw [hkinds, hend]⟩

end

/-! ### The sets of a grammar that was built -/

namespace Grammar

section

variable {g : Grammar}

theorem any_rows (p : List Element → Bool) (r : Rule) :
    (g.rows r).any p = (g.alternatives r).any fun a => p a.elements := by
  rw [rows, List.any_map]
  rfl

/-- Every rule that the rounds find may be empty. -/
theorem mayBeEmpty_of_leastNullable {r : Rule} (h : (leastNullable g.rows).contains r = true) :
    g.MayBeEmpty (.rule r) := by
  refine saturate_induction (p := fun s : RuleSet => ∀ r, s.contains r = true → g.MayBeEmpty (.rule r)) ?_ ?_ _ r h
  · intro r hr
    simp at hr
  · intro s hs r hr
    rw [contains_nullableStep, any_rows, List.any_eq_true] at hr
    obtain ⟨a, ha, hrow⟩ := hr
    exact .rule ha (mayBeEmpty_of_allNullable hs a.elements hrow)

/-- Every kind that the rounds find may start the rule. -/
theorem canStart_of_leastFirst {nullable : Rule → Bool}
    (hempty : ∀ r, nullable r = true → g.MayBeEmpty (.rule r)) {r : Rule} {k : Kind}
    (h : ((leastFirst g.rows nullable).get r).contains k = true) : g.CanStart k (.rule r) := by
  refine saturate_induction
    (p := fun m : KindFamily => ∀ r k, (m.get r).contains k = true → g.CanStart k (.rule r)) ?_ ?_ _ r k h
  · intro r k hk
    simp at hk
  · intro m hm r k hk
    rw [contains_firstStep, any_rows, List.any_eq_true] at hk
    obtain ⟨a, ha, hrow⟩ := hk
    obtain ⟨pre, e, post, hes, hpre, he⟩ := canStart_of_rowFirstKinds hempty hm a.elements hrow
    exact .rule ha hes hpre he

end

section

variable (defs : List Definition) (tables : List Table)

/-- The rows that the sets are worked out from are those of the rules. -/
theorem rows_build : RuleMap.get (.tabulate fun r =>
    ((build defs tables).definitions.get r).alternatives.map (·.elements)) = (build defs tables).rows := by
  funext r
  rw [RuleMap.get_tabulate]
  rfl

theorem nullableRules_build :
    (build defs tables).nullableRules = leastNullable (build defs tables).rows := by
  rw [← rows_build]
  rfl

theorem nullable_build :
    (build defs tables).nullable = (leastNullable (build defs tables).rows).contains := by
  funext r
  rw [nullable, nullableRules_build]

theorem first_build :
    (build defs tables).first = (leastFirst (build defs tables).rows (build defs tables).nullable).get := by
  have hsets : (build defs tables).firstSets = .tabulate (leastFirst (RuleMap.get (.tabulate fun r =>
      ((build defs tables).definitions.get r).alternatives.map (·.elements)))
      (build defs tables).nullable).get := rfl
  funext r
  rw [first, hsets, RuleMap.get_tabulate, rows_build]

theorem follow_build : (build defs tables).follow =
    (leastFollow (build defs tables).rows (build defs tables).nullable (build defs tables).first).get := by
  have hsets : (build defs tables).followSets = .tabulate (leastFollow (RuleMap.get (.tabulate fun r =>
      ((build defs tables).definitions.get r).alternatives.map (·.elements))) (build defs tables).nullable
      (leastFirst (RuleMap.get (.tabulate fun r => ((build defs tables).definitions.get r).alternatives.map
        (·.elements))) (build defs tables).nullable).get).get := rfl
  funext r
  rw [follow, hsets, RuleMap.get_tabulate, rows_build, ← first_build]

/-- A rule with an alternative that may be empty is among those that may be. -/
theorem nullable_of_rowNullable {r : Rule} {a : Alternative} (ha : a ∈ (build defs tables).alternatives r)
    (h : (build defs tables).rowNullable a.elements = true) : (build defs tables).nullable r = true := by
  rw [rowNullable, nullable_build] at h
  rw [nullable_build, ← nullableStep_leastNullable, contains_nullableStep, any_rows, List.any_eq_true]
  exact ⟨a, ha, h⟩

/-- A kind that may start an alternative may start the rule. -/
theorem first_of_firstOfRow {r : Rule} {a : Alternative} {k : Kind}
    (ha : a ∈ (build defs tables).alternatives r)
    (h : ((build defs tables).firstOfRow a.elements).contains k = true) :
    ((build defs tables).first r).contains k = true := by
  rw [firstOfRow, first_build] at h
  rw [first_build, ← firstStep_leastFirst, contains_firstStep, any_rows, List.any_eq_true]
  exact ⟨a, ha, h⟩

theorem mayBeEmpty_of_nullable {r : Rule} (h : (build defs tables).nullable r = true) :
    (build defs tables).MayBeEmpty (.rule r) :=
  mayBeEmpty_of_leastNullable (by rwa [nullable_build] at h)

theorem canStart_of_first {r : Rule} {k : Kind} (h : ((build defs tables).first r).contains k = true) :
    (build defs tables).CanStart k (.rule r) :=
  canStart_of_leastFirst (fun _ => mayBeEmpty_of_nullable defs tables) (by rwa [first_build] at h)

/-- The elements that may be empty are those that are found so. -/
theorem isNullable_iff {e : Element} :
    (build defs tables).isNullable e = true ↔ (build defs tables).MayBeEmpty e :=
  ⟨mayBeEmpty_of_isNullable (fun _ => mayBeEmpty_of_nullable defs tables) e,
    isNullable_of_mayBeEmpty fun _ _ => nullable_of_rowNullable defs tables⟩

/-- The kinds that may start an element are those that are found so. -/
theorem contains_firstOf_iff {e : Element} {k : Kind} :
    ((build defs tables).firstOf e).contains k = true ↔ (build defs tables).CanStart k e :=
  ⟨canStart_of_firstKinds (fun _ => mayBeEmpty_of_nullable defs tables)
      (fun _ _ => canStart_of_first defs tables) e,
    firstKinds_of_canStart (isNullable_iff defs tables).2 fun _ _ _ => first_of_firstOfRow defs tables⟩

theorem rowNullable_iff {es : List Element} :
    (build defs tables).rowNullable es = true ↔ ∀ e ∈ es, (build defs tables).MayBeEmpty e := by
  rw [rowNullable, allNullable_iff]
  exact forall₂_congr fun _ _ => isNullable_iff defs tables

theorem contains_firstOfRow_iff {es : List Element} {k : Kind} :
    ((build defs tables).firstOfRow es).contains k = true ↔ (build defs tables).CanStart k (.seq es) := by
  rw [← contains_firstOf_iff, firstOf, Element.firstKinds]
  rfl

/-- What a use lets follow: what the rest of the alternative may start with, and what follows the rule whose
alternative it is if the rest may be empty. -/
theorem follows_iff {F : Rule → Kind → Prop} : (build defs tables).Follows F ↔ (∀ r, F r .eof) ∧
    ∀ u ∈ uses (build defs tables).rows (build defs tables).nullable (build defs tables).first, ∀ k,
      u.kinds.contains k = true ∨ (∃ s, u.lastIn = some s ∧ F s k) → F u.rule k := by
  constructor
  · intro h
    refine ⟨h.eof, fun u hu k huse => ?_⟩
    obtain ⟨s, es, hes, r, rest, ho, rfl⟩ := mem_uses.1 hu
    obtain ⟨a, ha, rfl⟩ := List.mem_map.1 hes
    rcases huse with hk | ⟨s', hs, hk⟩
    · exact h.next ha ho ((contains_firstOfRow_iff defs tables).1 hk)
    · simp only [Option.ite_none_right_eq_some, Option.some.injEq] at hs
      obtain ⟨hrest, rfl⟩ := hs
      exact h.last ha ho ((rowNullable_iff defs tables).1 hrest) hk
  · intro ⟨heof, huse⟩
    refine ⟨heof, ?_, ?_⟩
    · intro s r a rest k ha ho hk
      refine huse _ (mem_uses.2 ⟨s, a.elements, List.mem_map_of_mem ha, r, rest, ho, rfl⟩) k (.inl ?_)
      exact (contains_firstOfRow_iff defs tables).2 hk
    · intro s r a rest k ha ho hrest hk
      refine huse _ (mem_uses.2 ⟨s, a.elements, List.mem_map_of_mem ha, r, rest, ho, rfl⟩) k (.inr ⟨s, ?_, hk⟩)
      exact if_pos ((rowNullable_iff defs tables).2 hrest)

/-- One round on the kinds that may follow, told by its members. -/
theorem contains_follow {r : Rule} {k : Kind} : ((build defs tables).follow r).contains k = true ↔ k = .eof ∨
    ∃ u ∈ uses (build defs tables).rows (build defs tables).nullable (build defs tables).first, u.rule = r ∧
      (u.kinds.contains k = true ∨ ∃ s, u.lastIn = some s ∧
        ((build defs tables).follow s).contains k = true) := by
  rw [follow_build]
  conv_lhs => rw [← followStep_leastFollow, contains_followStep]
  simp [Option.any_eq_true]

theorem follows_follow : (build defs tables).Follows fun r k =>
    ((build defs tables).follow r).contains k = true := by
  refine (follows_iff defs tables).2 ⟨fun r => (contains_follow defs tables).2 (.inl rfl), ?_⟩
  intro u hu k huse
  exact (contains_follow defs tables).2 (.inr ⟨u, hu, rfl, huse⟩)

end

end Grammar

end KermlText
