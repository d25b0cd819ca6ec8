import KermlText.Language
import KermlText.Proofs.Rereading

/-! Where choices of the grammar overlap. Two rules leave a choice that the text does not settle. The tail
of a feature has two places for a multiplicity and for words on order, and what stands in the second is
read in the first when nothing separates them. The arguments behind an arrow belong to the arrow, though
they might be an operator of their own. A body behind an arrow is the one text that is lost this way. -/

namespace KermlText

open Grammar Rules Rules.Phrase

theorem behind_of_contains {ks : KindSet} {w : List Kind} (h : ks.contains (nextKind w) = true)
    (hc : ks.contains .colonColon = false) : Behind ks w := by
  refine ⟨h, fun v hv => ?_⟩
  subst hv
  rw [nextKind_cons, hc] at h
  cases h

theorem Grammar.Greedy.append {g : Grammar} {es fs : List Element} {w v u : List Kind}
    (h1 : g.Greedy (.element (.seq es)) w v) (h2 : g.Greedy (.element (.seq fs)) v u) :
    g.Greedy (.element (.seq (es ++ fs))) w u := by
  induction es generalizing w with
  | nil =>
    cases h1
    exact h2
  | cons e es ih =>
    cases h1 with
    | cons h h1 => exact .cons h (ih h1)

theorem Grammar.Spells.append {P : Rule → List Kind → List Kind → Prop} {e : Element} {resync : Bool}
    {w v u : List Kind} {least : Nat} (h1 : Spells P (.repeated e least resync) w v)
    (h2 : Spells P (.repeated e 0 resync) v u) : Spells P (.repeated e least resync) w u := by
  generalize hq : Element.repeated e least resync = q at h1
  induction h1 generalizing least with
  | none =>
    cases hq
    exact h2
  | again h _ _ ih =>
    cases hq
    exact .again h (ih h2 rfl)
  | token | relation | oneOf | rule | ruleAt | absent | present | nil | cons | labeled => cases hq

/-! ### The tail of a feature -/

namespace FeatureTail

def multiplicity : Element := field "multiplicity" (opt (ref .multiplicity))

def ordering : Element := fields "ordering" (many (oneOf orderings))

def front : List Element := [multiplicity, ordering]

def back : List Element :=
  [featureRelationships, multiplicity, ordering, field "value" (opt (ref .featureValue))]

theorem alternatives_eq : kerml.alternatives .featureTail = [⟨front ++ back, false⟩] := rfl

/-- What may stand behind the first places when the second ones are not meant. -/
def behindFront : KindSet :=
  kerml.first .featureRelationship ∪ kerml.first .featureValue ∪ kerml.follow .featureTail

/-- What the check of the tail rests on. -/
structure Facts : Prop where
  front : kerml.rowSettled behindFront none front [] = true
  back : kerml.rowSettled (kerml.follow .featureTail) none back [] = true
  counted : kerml.rowSettled (.single .lBracket) none [ref .multiplicity, ordering] [] = true
  ordered : kerml.rowSettled (.single .lBracket) none [oneOf orderings, ordering] [] = true
  name : behindFront.contains .colonColon = false
  bracket : kerml.first .multiplicity = .single .lBracket
  nullable : kerml.nullable .multiplicity = false ∧ kerml.nullable .featureRelationship = false ∧
    kerml.nullable .featureValue = false

variable {P : Rule → List Kind → List Kind → Prop} {w v : List Kind}

/-- A rule that takes tokens starts with a kind of its own. -/
theorem starts_of_call (hP : ∀ r w v, P r w v → kerml.Spans (.call r) w v) {r : Rule}
    (hn : kerml.nullable r = false) (h : Spells P (ref r) w v) :
    (kerml.first r).contains (nextKind w) = true := by
  cases h with
  | rule h =>
    rcases Spans.starts closed_kerml (hP _ _ _ h) with hk | ⟨hn', -⟩
    · exact hk
    · simp [Pattern.isNullable, hn] at hn'

/-- A tail is spelled so that its front is followed by something else than its front, or so that its
front is not empty and its second multiplicity is there. -/
theorem split (hf : Facts) (hP : ∀ r w v, P r w v → kerml.Spans (.call r) w v)
    (h : Spells P (.seq (front ++ back)) w v)
    (hv : (kerml.follow .featureTail).contains (nextKind v) = true) :
    ∃ u, Spells P (.seq back) u v ∧
      (Spells P (.seq front) w u ∧ behindFront.contains (nextKind u) = true ∨
        (Spells P (.seq [ref .multiplicity, ordering]) w u ∨
          Spells P (.seq [oneOf orderings, ordering]) w u) ∧ nextKind u = .lBracket) := by
  cases h with | cons hm1 h => cases h with | cons ho1 h => cases h with | cons hr h =>
  cases h with | cons hm2 h => cases h with | cons ho2 h => cases h with | cons hval h =>
  cases h
  rename_i w1 w2 w3 w4 w5
  -- what is in front of the value is no part of the front
  have hlast : behindFront.contains (nextKind w5) = true := by
    cases hval with | labeled hval => cases hval with
    | absent => simp [behindFront, hv]
    | present hval => simp [behindFront, starts_of_call hP hf.nullable.2.2 hval]
  cases hr with | labeled hr => cases hr with
  | again hr1 hr2 =>
    refine ⟨w2, .cons (.labeled (.again hr1 hr2)) (.cons hm2 (.cons ho2 (.cons hval .nil))), .inl ⟨?_, ?_⟩⟩
    · exact .cons hm1 (.cons ho1 .nil)
    · simp [behindFront, starts_of_call hP hf.nullable.2.1 hr1]
  | none =>
    have hrest : Spells P (.seq back) w5 v :=
      .cons (.labeled .none) (.cons (.labeled .absent) (.cons (.labeled .none) (.cons hval .nil)))
    cases ho1 with | labeled ho1 => cases ho2 with | labeled ho2 =>
    cases hm2 with | labeled hm2 => cases hm2 with
    | absent => exact ⟨w5, hrest, .inl ⟨.cons hm1 (.cons (.labeled (ho1.append ho2)) .nil), hlast⟩⟩
    | present hm2 =>
      have hb : nextKind w2 = .lBracket := by
        have hk := starts_of_call hP hf.nullable.1 hm2
        rw [hf.bracket, KindSet.contains_single, decide_eq_true_eq] at hk
        exact hk.symm
      have htail : Spells P (.seq back) w2 v :=
        .cons (.labeled .none) (.cons (.labeled (.present hm2)) (.cons (.labeled ho2) (.cons hval .nil)))
      cases hm1 with | labeled hm1 => cases hm1 with
      | present hm1 => exact ⟨w2, htail, .inr ⟨.inl (.cons hm1 (.cons (.labeled ho1) .nil)), hb⟩⟩
      | absent => cases ho1 with
        | again h1 h2 => exact ⟨w2, htail, .inr ⟨.inr (.cons h1 (.cons (.labeled h2) .nil)), hb⟩⟩
        | none => exact ⟨w5, hrest, .inl ⟨.cons (.labeled (.present hm2)) (.cons (.labeled ho2) .nil), hlast⟩⟩

/-- A word on order is no multiplicity. -/
theorem not_opens_multiplicity (hf : Facts) (h : (KindSet.ofList orderings).contains (nextKind w) = true) :
    ¬ kerml.Opens (.call .multiplicity) w := by
  intro ho
  rcases Spans.starts closed_kerml ho.choose_spec with hk | ⟨hn, -⟩
  · simp only [Pattern.firstKinds, hf.bracket, KindSet.contains_single, decide_eq_true_eq] at hk
    rw [← hk] at h
    exact absurd h (by decide)
  · simp [Pattern.isNullable, hf.nullable.1] at hn

/-- The front is read by greedy choices as it is spelled, if one of its two parts is there. -/
theorem greedy_front (hf : Facts) {u : List Kind}
    (h : kerml.Greedy (.element (.seq [ref .multiplicity, ordering])) w u ∨
      kerml.Greedy (.element (.seq [oneOf orderings, ordering])) w u) :
    kerml.Greedy (.element (.seq front)) w u := by
  rcases h with h | h
  · cases h with | cons h1 h2 => exact .cons (.labeled (.present h1)) h2
  · cases h with | cons h1 h => cases h with | cons h2 h => cases h with | nil =>
    cases h2 with | labeled h2 =>
    refine .cons (.labeled (.absent (not_opens_multiplicity hf ?_))) (.cons (.labeled (.again h1 h2)) .nil)
    cases h1 with | oneOf h _ _ => exact h

/-- The tail of a feature can be read again as an operand. -/
theorem operand (hf : Facts) {i : Nat} {c : Alternative} {ps : List Part} {z : List Kind}
    (hc : (kerml.alternatives .featureTail)[i]? = some c)
    (h : Spells kerml.Rereads (.seq c.elements) w v) (hv : Behind (kerml.follow .featureTail) v)
    (hz : kerml.GreedyAll ps v z) : kerml.GreedyAll (.operand .featureTail :: ps) w z := by
  rw [alternatives_eq, List.getElem?_singleton] at hc
  split at hc
  · rename_i hi
    subst hi
    cases hc
    obtain ⟨u, hback, hfront⟩ := split hf (fun _ _ _ h => h.1) h hv.next
    have hy : ∀ u ps, [] = ([] : Stack) → kerml.Yields none u ps := fun _ _ _ _ _ _ _ hq => by cases hq
    have hrest : kerml.GreedyAll (.element (.seq back) :: ps) u z :=
      hback.greedy closed_kerml hf.back (.nil hv) (hy _ _) hz
    obtain ⟨y, hfront, x, hx, hps⟩ :
        kerml.GreedyAll (.element (.seq front) :: .element (.seq back) :: ps) w z := by
      rcases hfront with ⟨hfront, hu⟩ | ⟨hfront, hu⟩
      · exact hfront.greedy closed_kerml hf.front (.nil (behind_of_contains hu hf.name)) (hy _ _) hrest
      · have hb : Behind (.single .lBracket) u := behind_of_contains (by simp [hu]) (by simp)
        rcases hfront with h | h
        · exact (h.greedy closed_kerml hf.counted (.nil hb) (hy _ _) hrest).imp fun _ h =>
            greedy_front hf (.inl h)
        · exact (h.greedy closed_kerml hf.ordered (.nil hb) (hy _ _) hrest).imp fun _ h =>
            greedy_front hf (.inr h)
    refine ⟨x, .operand (i := 0) rfl rfl (fun j hj => absurd hj (Nat.not_lt_zero j)) ?_, hps⟩
    exact hfront.append hx
  · cases hc

end FeatureTail

/-! ### Arrows -/

namespace Arrow

def function : Element := field "function" (ref .qualifiedName)

theorem alternatives_eq : kerml.alternatives .arrowInvocationExpression =
    [⟨[function, field "arguments" (ref .argumentList)], false⟩,
      ⟨[function, field "body" (ref .bodyExpression)], false⟩, ⟨[function], false⟩] := rfl

/-- What may stand behind an arrow with neither arguments nor a body. -/
def behindBare : KindSet :=
  ((kerml.follow .arrowInvocationExpression).without .lParen).without .lBrace

/-- What the check of the arrow rests on. -/
structure Facts : Prop where
  rows : kerml.rowsSettled .arrowInvocationExpression = true
  body : ∀ c ∈ (kerml.alternatives .arrowInvocationExpression)[1]?,
    kerml.choiceSettled (kerml.follow .arrowInvocationExpression) .arrowInvocationExpression 1 c = true
  bare : ∀ c ∈ (kerml.alternatives .arrowInvocationExpression)[2]?,
    kerml.choiceSettled behindBare .arrowInvocationExpression 2 c = true
  function : kerml.settled (.single .lParen) none function [] = true

variable {w v : List Kind}

/-- What stands behind the operator of an invocation is a list of arguments with its first bracket. -/
theorem greedy_argumentList (h : kerml.Greedy (.element (.rule .invocationExpression)) w v) :
    kerml.Greedy (.element (.rule .argumentList)) (.lParen :: w) v := by
  have h1 : kerml.alternatives .invocationExpression =
      [⟨[opt (ref .arguments), tok .rParen], false⟩] := rfl
  cases h with | rule ho hp =>
  obtain rfl := hp.of_plain rfl
  cases ho with | operand ha _ _ h =>
  rw [h1, List.getElem?_singleton] at ha
  split at ha
  · cases ha
    refine .rule (.operand (i := 0) rfl rfl (fun j hj => absurd hj (Nat.not_lt_zero j)) ?_) (.plain rfl)
    exact .cons (.token (by decide)) h
  · cases ha

/-- Arguments behind a bare arrow are read as its own. -/
theorem operand_of_paren (hf : Facts) {ps : List Part} {z : List Kind}
    (h : Spells kerml.Rereads (.seq [function]) w v) (hv : nextKind v = .lParen)
    (hy : kerml.Yields (Rule.tail? .arrowInvocationExpression) v ps) (hz : kerml.GreedyAll ps v z) :
    kerml.GreedyAll (.operand .arrowInvocationExpression :: ps) w z := by
  have ht : kerml.table? .primaryExpression = some suffixTable := rfl
  obtain ⟨tier, hl, hform⟩ :
      ∃ tier, suffixTable.lookup .lParen = some (tier, .invocationExpression) ∧ tier.form ≠ .binary :=
    ⟨_, rfl, by decide⟩
  obtain ⟨ps, rfl⟩ := hy _ _ _ _ rfl ht (hv ▸ hl)
  obtain ⟨x, hx, hps⟩ := hz
  cases v with
  | nil => cases hv
  | cons k v =>
    obtain rfl : k = .lParen := hv
    obtain ⟨y, hargs, hops⟩ := hx.of_operator ht hl
    rw [if_neg hform] at hargs
    have hrest : kerml.GreedyAll (.element (.seq [field "arguments" (ref .argumentList)]) ::
        .operators .primaryExpression :: ps) (.lParen :: v) z :=
      ⟨y, .cons (.labeled (greedy_argumentList hargs)) .nil, x, hops, hps⟩
    cases h with | cons h h' => cases h' with | nil =>
    have hname := h.greedy closed_kerml hf.function (.nil (behind_of_contains (by simp) (by simp)))
      (fun _ _ _ _ _ hq => by cases hq) hrest
    exact hname.cons.imp fun _ =>
      .operand (i := 0) rfl rfl fun j hj => absurd hj (Nat.not_lt_zero j)

/-- An arrow is the first that can be read, a bare one where neither a brace nor arguments stand behind it. -/
theorem foremost (hf : Facts) {i : Nat} {c : Alternative}
    (hc : (kerml.alternatives .arrowInvocationExpression)[i]? = some c)
    (hbare : i = 2 → nextKind v ≠ .lBrace ∧ nextKind v ≠ .lParen) (h : kerml.Spans (rowPattern c.elements) w v)
    (hv : Behind (kerml.follow .arrowInvocationExpression) v) :
    kerml.Foremost .arrowInvocationExpression i w := by
  match i, hc with
  | 0, _ => exact fun j hj => absurd hj (Nat.not_lt_zero j)
  | 1, hc => exact foremost_of_choiceSettled closed_kerml (hf.body c hc) (h.cons (.nil hv))
  | 2, hc =>
    obtain ⟨hbrace, hparen⟩ := hbare rfl
    have hb : Behind behindBare v :=
      ⟨KindSet.contains_without hbrace (KindSet.contains_without hparen hv.next), hv.name⟩
    exact foremost_of_choiceSettled closed_kerml (hf.bare c hc) (h.cons (.nil hb))
  | i + 3, hc =>
    rw [alternatives_eq] at hc
    cases hc

/-- An arrow can be read again as an operand, except a bare one in front of a brace. -/
theorem operand (hf : Facts) {i : Nat} {c : Alternative} {ps : List Part} {z : List Kind}
    (hc : (kerml.alternatives .arrowInvocationExpression)[i]? = some c)
    (hbrace : i = 2 → nextKind v ≠ .lBrace) (h : Spells kerml.Rereads (.seq c.elements) w v)
    (hv : Behind (kerml.follow .arrowInvocationExpression) v)
    (hy : kerml.Yields (Rule.tail? .arrowInvocationExpression) v ps) (hz : kerml.GreedyAll ps v z) :
    kerml.GreedyAll (.operand .arrowInvocationExpression :: ps) w z := by
  by_cases hp : i = 2 ∧ nextKind v = .lParen
  · obtain ⟨rfl, hp⟩ := hp
    rw [alternatives_eq] at hc
    cases hc
    exact operand_of_paren hf h hp hy hz
  · have hl : c.leftRecursive = false := by
      have hm := List.mem_of_getElem? hc
      simp only [alternatives_eq, List.mem_cons, List.not_mem_nil, or_false] at hm
      rcases hm with rfl | rfl | rfl <;> rfl
    have hfirst := foremost hf hc (fun hi => ⟨hbrace hi, fun hv => hp ⟨hi, hv⟩⟩) (h.spans fun _ _ _ h => h.1) hv
    exact h.operand closed_kerml hf.rows hc hl hfirst hv hy hz

end Arrow

end KermlText
