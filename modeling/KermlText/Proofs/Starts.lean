import KermlText.Proofs.Patterns

/-! What a pattern may start with. The sets of a grammar are closed under its rules, so a piece of grammar
that can be read starts with a kind that lookahead expects of it. -/

namespace KermlText

namespace KindSet

theorem contains_of_union_eq {s t : KindSet} (h : s ∪ t = t) {k : Kind} (hk : s.contains k = true) :
    t.contains k = true := by
  rw [← h, contains_union, hk, Bool.true_or]

theorem not_contains_of_not_intersects {s t : KindSet} (h : s.intersects t = false) {k : Kind}
    (hs : s.contains k = true) : t.contains k = false := by
  simp only [intersects, bne_eq_false_iff_eq] at h
  have hb : (s.bits &&& t.bits).getLsbD k.index = false := by rw [h]; simp
  rw [BitVec.getLsbD_and, Bool.and_eq_false_iff] at hb
  rcases hb with hb | hb
  · simp [contains, hb] at hs
  · exact hb

end KindSet

namespace Pattern

variable (nullable : Rule → Bool) (first : Rule → KindSet)

def isNullable : Pattern → Bool
  | .never | .finish | .one _ => false
  | .empty | .many _ => true
  | .either a b => a.isNullable || b.isNullable
  | .both a b => a.isNullable && b.isNullable
  | .call r => nullable r

def firstKinds : Pattern → KindSet
  | .never | .empty => ∅
  | .finish => .single .eof
  | .one ks => ks
  | .either a b => a.firstKinds ∪ b.firstKinds
  | .both a b => if a.isNullable nullable then a.firstKinds ∪ b.firstKinds else a.firstKinds
  | .many a => a.firstKinds
  | .call r => first r

/-- The kinds that a stack may start with. -/
def stackKinds : List Pattern → KindSet
  | [] => ∅
  | s :: ss =>
    if s.isNullable nullable then s.firstKinds nullable first ∪ stackKinds ss
    else s.firstKinds nullable first

end Pattern

section

variable {nullable : Rule → Bool} {first : Rule → KindSet}

theorem Pattern.contains_firstKinds_both {a b : Pattern} {k : Kind} :
    ((Pattern.both a b).firstKinds nullable first).contains k =
      ((a.firstKinds nullable first).contains k ||
        (a.isNullable nullable && (b.firstKinds nullable first).contains k)) := by
  simp only [firstKinds]
  split
  · rename_i h; rw [KindSet.contains_union, h, Bool.true_and]
  · rename_i h; simp [h]

theorem Pattern.contains_stackKinds_cons {s : Pattern} {ss : List Pattern} {k : Kind} :
    (stackKinds nullable first (s :: ss)).contains k =
      ((s.firstKinds nullable first).contains k ||
        (s.isNullable nullable && (stackKinds nullable first ss).contains k)) := by
  simp only [stackKinds]
  split
  · rename_i h; rw [KindSet.contains_union, h, Bool.true_and]
  · rename_i h; simp [h]

theorem Pattern.isNullable_times {s : Pattern} {least : Nat} :
    (s.times least).isNullable nullable = (least == 0 || s.isNullable nullable) := by
  unfold Pattern.times
  split
  · rename_i h; simp [Pattern.isNullable, h]
  · rename_i h; simp [Pattern.isNullable, h]

theorem Pattern.firstKinds_times {s : Pattern} {least : Nat} {k : Kind} :
    ((s.times least).firstKinds nullable first).contains k =
      (s.firstKinds nullable first).contains k := by
  unfold Pattern.times
  split
  · rfl
  · simp only [Pattern.firstKinds]
    split <;> simp

mutual

theorem Element.isNullable_of_pattern :
    ∀ e : Element, e.pattern.isNullable nullable = true → e.isNullable nullable = true
  | .token _, h | .relation _ _, h => by
    unfold Element.pattern at h
    split at h <;> simp [Pattern.isNullable] at h
  | .oneOf _, h | .comment, h => by simp [Element.pattern, Pattern.isNullable] at h
  | .rule _, h | .ruleAt _ _, h => by
    simpa [Element.pattern, Pattern.isNullable, Element.isNullable] using h
  | .optional _, _ => rfl
  | .repeated e least _, h => by
    simp only [Element.pattern, Pattern.isNullable_times, Bool.or_eq_true] at h
    simp only [Element.isNullable, Bool.or_eq_true]
    exact h.imp_right (Element.isNullable_of_pattern e)
  | .seq es, h => by
    simp only [Element.pattern] at h
    simpa [Element.isNullable] using allNullable_of_pattern es h
  | .labeled _ _ e, h => by
    simp only [Element.pattern] at h
    simpa [Element.isNullable] using Element.isNullable_of_pattern e h

theorem allNullable_of_pattern :
    ∀ es : List Element, (rowPattern es).isNullable nullable = true → allNullable nullable es = true
  | [], _ => rfl
  | e :: es, h => by
    simp only [rowPattern, Pattern.isNullable, Bool.and_eq_true] at h
    simp only [allNullable, Bool.and_eq_true]
    exact ⟨Element.isNullable_of_pattern e h.1, allNullable_of_pattern es h.2⟩

end

mutual

theorem Element.firstKinds_of_pattern {k : Kind} :
    ∀ e : Element, (e.pattern.firstKinds nullable first).contains k = true →
      (e.firstKinds nullable first).contains k = true
  | .token _, h | .relation _ _, h => by
    unfold Element.pattern at h
    split at h
    · rename_i hk
      simpa [Pattern.firstKinds, Element.firstKinds, hk] using h
    · simpa [Pattern.firstKinds, Element.firstKinds] using h
  | .oneOf _, h => by simpa [Element.pattern, Pattern.firstKinds, Element.firstKinds] using h
  | .comment, h => by simp [Element.pattern, Pattern.firstKinds] at h
  | .rule _, h | .ruleAt _ _, h => by
    simpa [Element.pattern, Pattern.firstKinds, Element.firstKinds] using h
  | .optional e, h => by
    simp only [Element.pattern, Pattern.firstKinds, KindSet.contains_union, KindSet.contains_empty,
      Bool.false_or] at h
    simpa [Element.firstKinds] using Element.firstKinds_of_pattern e h
  | .repeated e _ _, h => by
    simp only [Element.pattern, Pattern.firstKinds_times] at h
    simpa [Element.firstKinds] using Element.firstKinds_of_pattern e h
  | .seq es, h => by
    simp only [Element.pattern] at h
    simpa [Element.firstKinds] using rowFirstKinds_of_pattern es h
  | .labeled _ _ e, h => by
    simp only [Element.pattern] at h
    simpa [Element.firstKinds] using Element.firstKinds_of_pattern e h

theorem rowFirstKinds_of_pattern {k : Kind} :
    ∀ es : List Element, ((rowPattern es).firstKinds nullable first).contains k = true →
      (rowFirstKinds nullable first es).contains k = true
  | [], h => by simp [rowPattern, Pattern.firstKinds] at h
  | e :: es, h => by
    simp only [rowPattern, Pattern.firstKinds] at h
    unfold rowFirstKinds
    split at h
    · rename_i hn
      rw [if_pos (Element.isNullable_of_pattern e hn)]
      rw [KindSet.contains_union, Bool.or_eq_true] at h ⊢
      exact h.imp (Element.firstKinds_of_pattern e) (rowFirstKinds_of_pattern es)
    · have h' := Element.firstKinds_of_pattern e h
      split
      · rw [KindSet.contains_union, h', Bool.true_or]
      · exact h'

end

end

namespace Grammar

/-- The sets of the grammar hold what the patterns of its rules say. -/
structure Closed (g : Grammar) : Prop where
  nullable : ∀ r, (g.pattern r).isNullable g.nullable = true → g.nullable r = true
  first : ∀ r k, ((g.pattern r).firstKinds g.nullable g.first).contains k = true →
    (g.first r).contains k = true

def isClosed (g : Grammar) : Bool :=
  Rule.all.all fun r =>
    (!(g.pattern r).isNullable g.nullable || g.nullable r) &&
      decide ((g.pattern r).firstKinds g.nullable g.first ∪ g.first r = g.first r)

theorem closed_of_isClosed {g : Grammar} (h : g.isClosed = true) : g.Closed := by
  simp only [isClosed, List.all_eq_true, Bool.and_eq_true, Bool.or_eq_true, Bool.not_eq_true',
    decide_eq_true_eq] at h
  refine ⟨fun r hr => ?_, fun r k hk => KindSet.contains_of_union_eq (h r (Rule.mem_all r)).2 hk⟩
  simpa [hr] using (h r (Rule.mem_all r)).1

variable {g : Grammar} (hg : g.Closed)
include hg

/-- What can be read starts with a kind that is expected, or may be empty. -/
theorem Matches.starts {p : List Kind → Prop} {ss : List Pattern} {w : List Kind}
    (h : g.Matches p ss w) :
    (Pattern.stackKinds g.nullable g.first ss).contains (nextKind w) = true ∨
      (ss.all (Pattern.isNullable g.nullable) = true ∧ p w) := by
  induction h with
  | nil h => exact .inr ⟨rfl, h⟩
  | empty _ ih =>
    simpa [Pattern.contains_stackKinds_cons, Pattern.isNullable, Pattern.firstKinds] using ih
  | finish => exact .inl (by simp [Pattern.contains_stackKinds_cons, Pattern.firstKinds])
  | one hk => exact .inl (by simp [Pattern.contains_stackKinds_cons, Pattern.firstKinds, hk])
  | left _ ih =>
    simp only [Pattern.contains_stackKinds_cons, Pattern.isNullable, Pattern.firstKinds, List.all_cons,
      KindSet.contains_union, Bool.or_eq_true, Bool.and_eq_true] at ih ⊢
    grind
  | right _ ih =>
    simp only [Pattern.contains_stackKinds_cons, Pattern.isNullable, Pattern.firstKinds, List.all_cons,
      KindSet.contains_union, Bool.or_eq_true, Bool.and_eq_true] at ih ⊢
    grind
  | both _ ih =>
    simp only [Pattern.contains_stackKinds_cons, Pattern.isNullable, Pattern.contains_firstKinds_both,
      List.all_cons, Bool.or_eq_true, Bool.and_eq_true] at ih ⊢
    grind
  | stop _ ih =>
    simp only [Pattern.contains_stackKinds_cons, Pattern.isNullable, List.all_cons, Bool.or_eq_true,
      Bool.true_and] at ih ⊢
    grind
  | again _ ih =>
    simp only [Pattern.contains_stackKinds_cons, Pattern.isNullable, Pattern.firstKinds, List.all_cons,
      Bool.or_eq_true, Bool.and_eq_true] at ih ⊢
    grind
  | @call r _ w _ ih =>
    have hf := hg.first r (nextKind w)
    have hn := hg.nullable r
    simp only [Pattern.contains_stackKinds_cons, Pattern.isNullable, Pattern.firstKinds, List.all_cons,
      Bool.or_eq_true, Bool.and_eq_true] at ih ⊢
    grind

theorem Spans.starts {s : Pattern} {w v : List Kind} (h : g.Spans s w v) :
    (s.firstKinds g.nullable g.first).contains (nextKind w) = true ∨
      (s.isNullable g.nullable = true ∧ w = v) := by
  have hs := Matches.starts hg h
  rw [Pattern.contains_stackKinds_cons] at hs
  simpa [Pattern.stackKinds] using hs

/-- A row that can be read starts with a kind that lookahead expects of it, or takes nothing. -/
theorem Spans.row_starts {es : List Element} {w v : List Kind} (h : g.Spans (rowPattern es) w v) :
    (g.firstOfRow es).contains (nextKind w) = true ∨ (g.rowNullable es = true ∧ w = v) :=
  (Spans.starts hg h).imp (rowFirstKinds_of_pattern es) (And.imp_left (allNullable_of_pattern es))

theorem Spans.element_starts {e : Element} {w v : List Kind} (h : g.Spans e.pattern w v) :
    (g.firstOf e).contains (nextKind w) = true ∨ (g.isNullable e = true ∧ w = v) :=
  (Spans.starts hg h).imp (Element.firstKinds_of_pattern e)
    (And.imp_left (Element.isNullable_of_pattern e))

end Grammar

theorem closed_kerml : kerml.Closed :=
  Grammar.closed_of_isClosed (by decide +kernel)

end KermlText
