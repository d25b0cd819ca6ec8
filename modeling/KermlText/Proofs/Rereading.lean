import KermlText.Proofs.Apart
import KermlText.Proofs.Greedy

/-! From derivations to greedy readings. A derivation may leave to others what a greedy reading takes, but
only operators: where a text may end with an operand, the operators behind it go to that operand instead.
So a derivation is read again together with what is read behind it, and each choice that it makes is the
greedy one because the choices keep apart. -/

namespace KermlText

/-- A text of the rule may end with an operand of this rule, and takes the operators behind it along. -/
def Rule.tail? : Rule → Option Rule
  | .ownedExpression | .conditionalExpression => some .ownedExpression
  | .primaryExpression | .arrowInvocationExpression => some .primaryExpression
  | _ => none

namespace Grammar

/-- An element is spelled out, given what it means to spell out a rule. The end of input is not spelled. -/
inductive Spells (P : Rule → List Kind → List Kind → Prop) : Element → List Kind → List Kind → Prop
  | token {k w} (hk : k ≠ .eof) : Spells P (.token k) (k :: w) w
  | relation {k r w} (hk : k ≠ .eof) : Spells P (.relation k r) (k :: w) w
  | oneOf {ks k w} (h : ks.contains k = true) : Spells P (.oneOf ks) (k :: w) w
  | rule {r w v} (h : P r w v) : Spells P (.rule r) w v
  | ruleAt {r level w v} (h : P r w v) : Spells P (.ruleAt r level) w v
  | absent {e w} : Spells P (.optional e) w w
  | present {e w v} (h : Spells P e w v) : Spells P (.optional e) w v
  | nil {w} : Spells P (.seq []) w w
  | cons {e es w v u} (h1 : Spells P e w v) (h2 : Spells P (.seq es) v u) : Spells P (.seq (e :: es)) w u
  | none {e resync w} : Spells P (.repeated e 0 resync) w w
  | again {e least resync w v u} (h1 : Spells P e w v)
      (h2 : Spells P (.repeated e (least - 1) resync) v u) : Spells P (.repeated e least resync) w u
  | labeled {name many e w v} (h : Spells P e w v) : Spells P (.labeled name many e) w v

variable (g : Grammar)

/-- Parts are read one after the other by greedy choices. -/
def GreedyAll : List Part → List Kind → List Kind → Prop
  | [], w, v => w = v
  | p :: ps, w, v => ∃ u, g.Greedy p w u ∧ GreedyAll ps u v

/-- An operator of `a` that stands next is left to parts that take it. -/
def Yields (a : Option Rule) (v : List Kind) (ps : List Part) : Prop :=
  ∀ q t tier n, a = some q → g.table? q = some t → t.lookup (nextKind v) = some (tier, n) →
    ∃ ps', ps = .operators q :: ps'

/-- Whatever is read behind a text of the rule, the text and that can be read by greedy choices. -/
def Rereads (r : Rule) (w v : List Kind) : Prop :=
  g.Spans (.call r) w v ∧ ∀ ps z, Behind (g.follow r) v → g.Yields r.tail? v ps →
    g.GreedyAll ps v z → g.GreedyAll (.element (.rule r) :: ps) w z

/-! ### The check -/

/-- The kinds of the operators of a rule. -/
def operatorKinds (r : Rule) : KindSet :=
  match g.table? r with
  | some t => t.operators
  | none => ∅

/-- What stands behind a mention of `r` may follow it, is no name that goes on, and is no operator that
`r` takes along, except where the rule around takes it along too. -/
def mentionSettled (ks : KindSet) (a : Option Rule) (r : Rule) (ss : Stack) : Bool :=
  decide (g.frontKinds ks ss ∪ g.follow r = g.follow r) &&
    (!(g.frontKinds ks ss).contains .colonColon ||
      g.apart ks [.one (.single .colonColon), .one (.single .ident)] ss) &&
    match r.tail? with
    | none => true
    | some q => !(g.frontKinds ks ss).intersects (g.operatorKinds q) || (ss.isEmpty && a == some q)

mutual

/-- Each choice in the element is settled by the text, where `ss` and then one of `ks` stand behind it
and the rule around takes the operators of `a` along. -/
def settled (ks : KindSet) (a : Option Rule) : Element → Stack → Bool
  | .token _, _ | .relation _ _, _ | .comment, _ => true
  | .oneOf s, _ => !s.contains .eof && !s.contains .blockComment
  | .rule r, ss => g.mentionSettled ks a r ss
  | .ruleAt _ _, _ => false
  | .optional e, ss => g.apart ks [e.pattern] ss && settled ks a e ss
  | .repeated e _ _, ss => g.apart ks [e.pattern] ss && settled ks a e (.many e.pattern :: ss)
  | .seq es, ss => rowSettled ks a es ss
  | .labeled _ _ e, ss => settled ks a e ss

def rowSettled (ks : KindSet) (a : Option Rule) : List Element → Stack → Bool
  | [], _ => true
  | [e], ss => settled ks a e ss
  | e :: es, ss => settled ks a e (rowPattern es :: ss) && rowSettled ks a es ss

end

variable {g} {e : Element} {es : List Element} {w v z : List Kind} {ps : List Part} {ks : KindSet}
  {a : Option Rule} {ss : Stack}

/-! ### Elements -/

section

variable {P : Rule → List Kind → List Kind → Prop}

theorem Spells.spans (h : Spells P e w v) (hP : ∀ r w v, P r w v → g.Spans (.call r) w v) :
    g.Spans e.pattern w v := by
  induction h with
  | token hk => simpa [Element.pattern, hk] using spans_one (by simp) _
  | relation hk => simpa [Element.pattern, hk] using spans_one (by simp) _
  | oneOf h => exact spans_one h _
  | rule h | ruleAt h => exact hP _ _ _ h
  | absent => exact .left (spans_empty _)
  | present _ ih => exact .right ih
  | nil => exact spans_empty _
  | cons _ _ ih1 ih2 => exact ih1.both ih2
  | none => exact spans_many _
  | again _ _ ih1 ih2 => exact ih1.times ih2
  | labeled _ ih => exact ih

end

theorem GreedyAll.imp {p q : Part} (hpq : ∀ v, g.Greedy p w v → g.Greedy q w v)
    (h : g.GreedyAll (p :: ps) w z) : g.GreedyAll (q :: ps) w z := by
  obtain ⟨v, hp, hps⟩ := h
  exact ⟨v, hpq v hp, hps⟩

theorem GreedyAll.cons (h : g.GreedyAll (.element e :: .element (.seq es) :: ps) w z) :
    g.GreedyAll (.element (.seq (e :: es)) :: ps) w z := by
  obtain ⟨v, h1, u, h2, hps⟩ := h
  exact ⟨u, .cons h1 h2, hps⟩

variable (hg : g.Closed)
include hg

theorem behind_of_mentionSettled {r : Rule} (hs : g.mentionSettled ks a r ss = true)
    (hm : g.Matches (Behind ks) ss v) : Behind (g.follow r) v := by
  simp only [mentionSettled, Bool.and_eq_true, Bool.or_eq_true, Bool.not_eq_true',
    decide_eq_true_eq] at hs
  have hfront := hm.front hg
  refine ⟨KindSet.contains_of_union_eq hs.1.1 hfront, fun u hu => ?_⟩
  subst hu
  rcases hs.1.2 with hno | hap
  · rw [nextKind_cons, hno] at hfront
    cases hfront
  · exact apart_of_apart hg hap (.one (by simp) (.one (by simp) (.nil trivial))) hm

theorem yields_of_mentionSettled {r : Rule} (hs : g.mentionSettled ks a r ss = true)
    (hm : g.Matches (Behind ks) ss v) (hy : ss = [] → g.Yields a v ps) : g.Yields r.tail? v ps := by
  intro q t tier n hq ht hl
  simp only [mentionSettled, hq, Bool.and_eq_true, Bool.or_eq_true, Bool.not_eq_true',
    List.isEmpty_iff, beq_iff_eq] at hs
  rcases hs.2 with hno | ⟨hss, ha⟩
  · have hk := KindSet.not_contains_of_not_intersects hno (hm.front hg)
    rw [operatorKinds, ht] at hk
    rw [Table.contains_operators hl] at hk
    cases hk
  · exact hy hss q t tier n ha ht hl

/-- An element that is spelled out by texts that can be read again can be read again. -/
theorem Spells.greedy (h : Spells g.Rereads e w v) (hs : g.settled ks a e ss = true)
    (hm : g.Matches (Behind ks) ss v) (hy : ss = [] → g.Yields a v ps) (hz : g.GreedyAll ps v z) :
    g.GreedyAll (.element e :: ps) w z := by
  induction h generalizing ss ps z with
  | token hk => exact ⟨_, .token hk, hz⟩
  | relation hk => exact ⟨_, .relation hk, hz⟩
  | @oneOf s k _ h =>
    simp only [settled, Bool.and_eq_true, Bool.not_eq_true'] at hs
    refine ⟨_, .oneOf h ?_ ?_, hz⟩
    · rintro rfl
      simp [hs.1] at h
    · rintro rfl
      simp [hs.2] at h
  | rule h =>
    exact h.2 ps z (behind_of_mentionSettled hg hs hm) (yields_of_mentionSettled hg hs hm hy) hz
  | ruleAt _ => cases hs
  | absent =>
    simp only [settled, Bool.and_eq_true] at hs
    refine ⟨_, .absent fun ho => ?_, hz⟩
    exact apart_of_apart hg hs.1 ho.matches hm
  | present h ih =>
    simp only [settled, Bool.and_eq_true] at hs
    exact (ih hs.2 hm hy hz).imp fun _ => .present
  | nil => exact ⟨_, .nil, hz⟩
  | @cons e es w v u h1 h2 ih1 ih2 =>
    cases es with
    | nil =>
      cases h2
      exact (ih1 hs hm hy hz).imp fun _ h => .cons h .nil
    | cons e' es =>
      simp only [settled, rowSettled, Bool.and_eq_true] at hs
      have htail := ih2 hs.2 hm hy hz
      refine .cons (ih1 hs.1 ?_ (fun h => by cases h) htail)
      exact (h2.spans fun _ _ _ h => h.1).cons hm
  | none =>
    simp only [settled, Bool.and_eq_true] at hs
    refine ⟨_, .none fun ho => ?_, hz⟩
    exact apart_of_apart hg hs.1 ho.matches hm
  | again h1 h2 ih1 ih2 =>
    have htail := ih2 hs hm hy hz
    simp only [settled, Bool.and_eq_true] at hs
    have hmany : g.Matches (Behind ks) (.many _ :: ss) _ :=
      (h2.spans fun _ _ _ h => h.1).of_times.cons hm
    obtain ⟨v, hv, u, hu, hps⟩ := ih1 hs.2 hmany (fun h => by cases h) htail
    exact ⟨u, .again hv hu, hps⟩
  | labeled h ih => exact (ih hs hm hy hz).imp fun _ => .labeled

/-! ### Alternatives -/

omit hg in
/-- No alternative in front of the `i`-th can be read where `c` is meant with one of `ks` behind it. -/
def choiceSettled (g : Grammar) (ks : KindSet) (r : Rule) (i : Nat) (c : Alternative) : Bool :=
  ((g.alternatives r).take i).all fun b =>
    b.leftRecursive || g.apart ks [rowPattern b.elements] [rowPattern c.elements]

omit hg in
def choicesSettled (g : Grammar) (r : Rule) : Bool :=
  (g.alternatives r).zipIdx.all fun c =>
    c.1.leftRecursive || g.choiceSettled (g.follow r) r c.2 c.1

omit hg in
/-- Each choice inside an alternative is settled by the text. -/
def rowsSettled (g : Grammar) (r : Rule) : Bool :=
  (g.alternatives r).all fun c =>
    c.leftRecursive || g.rowSettled (g.follow r) r.tail? c.elements []

variable {r : Rule} {i : Nat} {c : Alternative}

theorem foremost_of_choiceSettled (hs : g.choiceSettled ks r i c = true)
    (hw : g.Matches (Behind ks) [rowPattern c.elements] w) : g.Foremost r i w := by
  intro j hj b hb hl ho
  simp only [choiceSettled, List.all_eq_true, Bool.or_eq_true] at hs
  have hmem : b ∈ (g.alternatives r).take i :=
    List.mem_of_getElem? (by rw [List.getElem?_take_of_lt hj]; exact hb)
  rcases hs b hmem with hb | hb
  · rw [hl] at hb
    cases hb
  · exact apart_of_apart hg hb ho.matches hw

theorem Spells.foremost (hs : g.choicesSettled r = true) (hc : (g.alternatives r)[i]? = some c)
    (hl : c.leftRecursive = false) (h : Spells g.Rereads (.seq c.elements) w v)
    (hv : Behind (g.follow r) v) : g.Foremost r i w := by
  simp only [choicesSettled, List.all_eq_true, Bool.or_eq_true] at hs
  rcases hs (c, i) (List.mem_zipIdx_iff_getElem?.2 hc) with hb | hb
  · rw [hl] at hb
    cases hb
  · exact foremost_of_choiceSettled hg hb ((h.spans fun _ _ _ h => h.1).cons (.nil hv))

/-- The alternative is read again as it is, if it is the first that can be read. -/
theorem Spells.operand (hs : g.rowsSettled r = true) (hc : (g.alternatives r)[i]? = some c)
    (hl : c.leftRecursive = false) (hi : g.Foremost r i w)
    (h : Spells g.Rereads (.seq c.elements) w v) (hv : Behind (g.follow r) v)
    (hy : g.Yields r.tail? v ps) (hz : g.GreedyAll ps v z) : g.GreedyAll (.operand r :: ps) w z := by
  simp only [rowsSettled, List.all_eq_true, Bool.or_eq_true] at hs
  rcases hs c (List.mem_of_getElem? hc) with hb | hb
  · rw [hl] at hb
    cases hb
  · exact (h.greedy hg (a := r.tail?) hb (.nil hv) (fun _ => hy) hz).imp fun _ => .operand hc hl hi

/-! ### Operators -/

omit hg

/-- The table, its rule and the sets of the grammar fit one another. -/
structure Coherent (g : Grammar) (r : Rule) (t : Table) : Prop where
  rule : t.rule = r
  tail : r.tail? = some r
  lookup : ∀ tier ∈ t.tiers, ∀ o ∈ tier.operators,
    (t.lookup o.1).map (fun m => (m.1.form, m.2)) = some (tier.form, o.2)
  follow : ∀ tier ∈ t.tiers, ∀ o ∈ tier.operators,
    (g.follow r).contains o.1 = true ∧ o.1 ≠ .colonColon
  nodes : ∀ tier ∈ t.tiers, tier.form ≠ .binary → ∀ o ∈ tier.operators,
    g.follow r ∪ g.follow o.2 = g.follow o.2 ∧ (o.2.tail? = none ∨ o.2.tail? = some r)

variable {t : Table}

/-- No operator stands behind operators that are read by greedy choices. -/
theorem Greedy.no_operator_behind {p : Part} (h : g.Greedy p w v)
    (hp : p = .operators r ∨ p = .element (.rule r)) (ht : g.table? r = some t) :
    t.lookup (nextKind v) = Option.none := by
  induction h with
  | eof | token _ | relation _ | oneOf _ _ _ | operand _ _ _ _ | present _ | absent _ | again _ _
  | none _ | nil | cons _ _ | labeled _ => simp at hp
  | rule _ _ _ ih => exact ih (by simpa using hp)
  | plain ht' =>
    obtain rfl : _ = r := by simpa using hp
    cases ht.symm.trans ht'
  | done ht' hl =>
    obtain rfl : _ = r := by simpa using hp
    cases ht.symm.trans ht'
    exact hl
  | binary _ _ _ _ ih => exact ih (.inr (by simpa using hp))
  | suffix _ _ _ _ _ _ ih => exact ih hp

/-- What is read behind the operators is read behind the rule: no operator is left there. -/
theorem GreedyAll.skip_operators (ht : g.table? r = some t)
    (h : g.GreedyAll (.element (.rule r) :: .operators r :: ps) w z) :
    ∃ v, g.Greedy (.element (.rule r)) w v ∧ g.GreedyAll ps v z ∧ g.Greedy (.operators r) v v := by
  obtain ⟨v, hv, u, hu, hps⟩ := h
  have hno := hv.no_operator_behind (.inr rfl) ht
  obtain rfl := hu.of_no_operator ht hno
  exact ⟨_, hv, hps, hu⟩

/-- It is enough to read a rule with a table together with the operators behind it. -/
theorem rereads_of_operators (hc : g.Coherent r t) (ht : g.table? r = some t)
    (hs : g.Spans (.call r) w v)
    (h : Behind (g.follow r) v → ∀ ps z, g.GreedyAll (.operators r :: ps) v z →
      g.GreedyAll (.element (.rule r) :: .operators r :: ps) w z) : g.Rereads r w v := by
  refine ⟨hs, fun ps z hb hy hz => ?_⟩
  rcases hl : t.lookup (nextKind v) with _ | ⟨tier, q⟩
  · obtain ⟨u, hu, hps, -⟩ := (h hb ps z ⟨v, .done ht hl, hz⟩).skip_operators ht
    exact ⟨u, hu, hps⟩
  · obtain ⟨ps', rfl⟩ := hy r t tier q hc.tail ht hl
    exact h hb ps' z hz

/-- More operators behind a text of the rule make a text of the rule. -/
theorem Spans.operators (ht : g.table? r = some t) (h1 : g.Spans (.call r) w v)
    (h2 : g.Spans (g.operatorsPattern r) v z) : g.Spans (.call r) w z := by
  cases h1 with
  | call h =>
    cases h with
    | both h =>
      have h' := Matches.append h h2
      simp only [operatorsPattern, ht] at h'
      refine Matches.call (Matches.both ?_)
      simp only [operatorsPattern, ht]
      exact Matches.many_many (l := [_]) h'

theorem yields_operators {q : Rule} (hq : q.tail? = Option.none ∨ q.tail? = some r) (v : List Kind)
    (ps : List Part) : g.Yields q.tail? v (.operators r :: ps) := by
  intro q' _ _ _ hq' _ _
  rcases hq with hq | hq
  · cases hq.symm.trans hq'
  · cases hq.symm.trans hq'
    exact ⟨ps, rfl⟩

section

variable {tier : Tier} {o : Kind × Rule} {u : List Kind} (hc : g.Coherent r t) (ht : g.table? r = some t)
  (htier : tier ∈ t.tiers) (ho : o ∈ tier.operators)
include hc ht htier ho

omit ht in
theorem Coherent.lookup_eq : ∃ m, t.lookup o.1 = some (m, o.2) ∧ m.form = tier.form := by
  obtain ⟨⟨m, q⟩, hl, hm⟩ := Option.map_eq_some_iff.1 (hc.lookup tier htier o ho)
  obtain ⟨hform, rfl⟩ := Prod.mk.inj hm
  exact ⟨m, hl, hform⟩

/-- An operator with what belongs behind it goes on with a text of the rule. -/
theorem Rereads.operate (h1 : g.Rereads r w (o.1 :: u))
    (hs : g.Spans (.call (if tier.form = .binary then r else o.2)) u v)
    (h2 : Behind (g.follow r) v → ∀ ps z, g.GreedyAll (.operators r :: ps) v z →
      g.GreedyAll (.operators r :: ps) (o.1 :: u) z) : g.Rereads r w v := by
  obtain ⟨m, hl, hform⟩ := hc.lookup_eq htier ho
  have hops : g.Spans (g.operatorsPattern r) (o.1 :: u) v := by
    refine matches_operator ht hl ?_
    by_cases hb : tier.form = .binary
    · rw [if_pos (hform.trans hb)]
      rw [if_pos hb] at hs
      cases hs with
      | call h => cases h with
        | both h => exact h
    · rw [if_neg (hform.symm ▸ hb)]
      rw [if_neg hb] at hs
      refine hs.cons ?_
      simp only [operatorsPattern, ht]
      exact spans_many _
  refine rereads_of_operators hc ht (h1.1.operators ht hops) fun hb ps z hz => ?_
  obtain ⟨hf, hname⟩ := hc.follow tier htier o ho
  exact h1.2 _ z ⟨hf, fun x hx => hname (List.cons.inj hx).1⟩ (yields_operators (.inr hc.tail) _ ps)
    (h2 hb ps z hz)

theorem Rereads.binary (hf : tier.form = .binary) (h1 : g.Rereads r w (o.1 :: u))
    (h2 : g.Rereads r u v) : g.Rereads r w v := by
  obtain ⟨m, hl, hform⟩ := hc.lookup_eq htier ho
  refine h1.operate hc ht htier ho (by rw [if_pos hf]; exact h2.1) fun hb ps z hz => ?_
  -- the right operand takes the operators behind it along, and none is left
  obtain ⟨x, hx, hps, -⟩ :=
    (h2.2 _ z hb (yields_operators (.inr hc.tail) _ ps) hz).skip_operators ht
  exact ⟨x, .binary ht hl (hform.trans hf) hx, hps⟩

theorem Rereads.suffix (hf : tier.form ≠ .binary) (h1 : g.Rereads r w (o.1 :: u))
    (h2 : g.Rereads o.2 u v) : g.Rereads r w v := by
  obtain ⟨m, hl, hform⟩ := hc.lookup_eq htier ho
  obtain ⟨hsub, htail⟩ := hc.nodes tier htier hf o ho
  refine h1.operate hc ht htier ho (by rw [if_neg hf]; exact h2.1) fun hb ps z hz => ?_
  have hb' : Behind (g.follow o.2) v := ⟨KindSet.contains_of_union_eq hsub hb.next, hb.name⟩
  obtain ⟨x, hx, y, hy, hps⟩ := h2.2 _ z hb' (yields_operators htail _ ps) hz
  exact ⟨y, .suffix ht hl (hform.symm ▸ hf) hx hy, hps⟩

end

/-- A left-recursive alternative is read again as operators. -/
theorem Spells.leftRecursive (hc : g.Coherent r t) (ht : g.table? r = some t) {tier : Tier}
    (htier : tier ∈ t.tiers) (hes : es ∈ t.tierRows tier) (h : Spells g.Rereads (.seq es) w v) :
    g.Rereads r w v := by
  rcases Table.mem_tierRows.1 hes with ⟨hf, rfl⟩ | ⟨hf, o, ho, rfl⟩
  · rw [hc.rule] at h
    cases h with
    | cons h1 h => cases h with
      | cons h2 h => cases h with
        | cons h3 h =>
          cases h
          cases h1 with | rule h1 => cases h2 with | oneOf hk => cases h3 with | ruleAt h3 =>
            obtain ⟨o, ho, rfl⟩ := List.mem_map.1 (KindSet.contains_ofList.1 hk)
            exact h1.binary hc ht htier ho hf h3
  · rw [hc.rule] at h
    cases h with
    | cons h1 h => cases h with
      | cons h2 h => cases h with
        | cons h3 h =>
          cases h
          cases h1 with | rule h1 => cases h3 with | rule h3 =>
            cases h2 with | token _ => exact h1.suffix hc ht htier ho hf h3

/-- A text of the rule can be read again if each operand can be, whatever is read behind it. -/
theorem rereads_of_operand (hc : ∀ t, g.table? r = some t → g.Coherent r t)
    (hs : g.Spans (g.operandPattern r) w v)
    (h : Behind (g.follow r) v → ∀ ps z, g.Yields r.tail? v ps → g.GreedyAll ps v z →
      g.GreedyAll (.operand r :: ps) w z) : g.Rereads r w v := by
  rcases ht : g.table? r with _ | t
  · refine ⟨.call (hs.both ?_), fun ps z hb hy hz => ?_⟩
    · simpa only [operatorsPattern, ht] using spans_empty v
    · exact (h hb ps z hy hz).imp fun _ ho => .rule ho (.plain ht)
  · refine rereads_of_operators (hc t ht) ht (.call (hs.both ?_)) fun hb ps z hz => ?_
    · simpa only [operatorsPattern, ht] using spans_many v
    · obtain ⟨x, hx, y, hy, hps⟩ :=
        h hb (.operators r :: ps) z (yields_operators (.inr (hc t ht).tail) v ps) hz
      exact ⟨y, .rule hx hy, y, .done ht (hy.no_operator_behind (.inl rfl) ht), hps⟩

end Grammar

end KermlText
