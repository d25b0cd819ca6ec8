import KermlText.Proofs.Starts
import KermlText.Proofs.Trials

/-! Greedy readings: of all that a text allows, what lookahead goes for. Optional elements and lists
take what they can, the first alternative that can be read is the one that is read, and operators go on
as long as there are any. -/

namespace KermlText

/-- What is read as one: an element, an alternative of a rule, or the operators behind one. -/
inductive Part where
  | element (e : Element)
  | operand (r : Rule)
  | operators (r : Rule)

namespace Part

def pattern (g : Grammar) : Part → Pattern
  | .element e => e.pattern
  | .operand r => g.operandPattern r
  | .operators r => g.operatorsPattern r

/-- Whether a match of the part surely takes a token. -/
def takes (g : Grammar) : Part → Bool
  | .element e => e.takes g.solid
  | .operand r => g.solid r
  | .operators _ => false

end Part

namespace Grammar

/-- No alternative in front of the `i`-th can be read. -/
def Foremost (g : Grammar) (r : Rule) (i : Nat) (w : List Kind) : Prop :=
  ∀ j < i, ∀ a, (g.alternatives r)[j]? = some a → a.leftRecursive = false →
    ¬ g.Opens (rowPattern a.elements) w

/-- The part is read from `w` by greedy choices, and `v` is left. -/
inductive Greedy (g : Grammar) : Part → List Kind → List Kind → Prop
  | eof : Greedy g (.element (.token .eof)) [] []
  | token {k w} (hk : k ≠ .eof) : Greedy g (.element (.token k)) (k :: w) w
  | relation {k r w} (hk : k ≠ .eof) : Greedy g (.element (.relation k r)) (k :: w) w
  | oneOf {ks k w} (h : ks.contains k = true) (hk : k ≠ .eof) (hc : k ≠ .blockComment) :
      Greedy g (.element (.oneOf ks)) (k :: w) w
  | rule {r w v u} (h1 : Greedy g (.operand r) w v) (h2 : Greedy g (.operators r) v u) :
      Greedy g (.element (.rule r)) w u
  | operand {r i a w v} (ha : (g.alternatives r)[i]? = some a) (hl : a.leftRecursive = false)
      (hi : g.Foremost r i w) (h : Greedy g (.element (.seq a.elements)) w v) :
      Greedy g (.operand r) w v
  | present {e w v} (h : Greedy g (.element e) w v) : Greedy g (.element (.optional e)) w v
  | absent {e w} (h : ¬ g.Opens e.pattern w) : Greedy g (.element (.optional e)) w w
  | again {e least resync w v u} (h1 : Greedy g (.element e) w v)
      (h2 : Greedy g (.element (.repeated e (least - 1) resync)) v u) :
      Greedy g (.element (.repeated e least resync)) w u
  | none {e resync w} (h : ¬ g.Opens e.pattern w) : Greedy g (.element (.repeated e 0 resync)) w w
  | nil {w} : Greedy g (.element (.seq [])) w w
  | cons {e es w v u} (h1 : Greedy g (.element e) w v) (h2 : Greedy g (.element (.seq es)) v u) :
      Greedy g (.element (.seq (e :: es))) w u
  | labeled {name many e w v} (h : Greedy g (.element e) w v) :
      Greedy g (.element (.labeled name many e)) w v
  | plain {r w} (ht : g.table? r = Option.none) : Greedy g (.operators r) w w
  | done {r t w} (ht : g.table? r = some t) (hl : t.lookup (nextKind w) = Option.none) :
      Greedy g (.operators r) w w
  | binary {r t tier q k w v} (ht : g.table? r = some t) (hl : t.lookup k = some (tier, q))
      (hf : tier.form = .binary) (h : Greedy g (.element (.rule r)) w v) :
      Greedy g (.operators r) (k :: w) v
  | suffix {r t tier q k w v u} (ht : g.table? r = some t) (hl : t.lookup k = some (tier, q))
      (hf : tier.form ≠ .binary) (h1 : Greedy g (.element (.rule q)) w v)
      (h2 : Greedy g (.operators r) v u) : Greedy g (.operators r) (k :: w) u

/-- The first of the alternatives that can be read is read by greedy choices. -/
def FirstOf (g : Grammar) : List Alternative → List Kind → List Kind → Prop
  | [], _, _ => False
  | a :: as, w, v =>
    g.Greedy (.element (.seq a.elements)) w v ∨ (¬ g.Opens (rowPattern a.elements) w ∧ g.FirstOf as w v)

variable {g : Grammar} {p : Part} {e : Element} {w v : List Kind}

theorem Greedy.spans (h : g.Greedy p w v) : g.Spans (p.pattern g) w v := by
  induction h with
  | eof => simpa [Part.pattern, Element.pattern] using spans_finish
  | token hk => simpa [Part.pattern, Element.pattern, hk] using spans_one (by simp) _
  | relation hk => simpa [Part.pattern, Element.pattern, hk] using spans_one (by simp) _
  | oneOf h _ _ => simpa [Part.pattern, Element.pattern] using spans_one h _
  | rule _ _ ih1 ih2 => exact .call (ih1.both ih2)
  | operand ha hl _ _ ih => exact spans_operand (List.mem_of_getElem? ha) hl ih
  | present _ ih => exact .right ih
  | absent _ => exact .left (spans_empty _)
  | again _ _ ih1 ih2 => exact ih1.times ih2
  | none _ => exact spans_many _
  | nil => exact spans_empty _
  | cons _ _ ih1 ih2 => exact ih1.both ih2
  | labeled _ ih => exact ih
  | plain ht => simpa [Part.pattern, operatorsPattern, ht] using spans_empty _
  | done ht _ => simpa [Part.pattern, operatorsPattern, ht] using spans_many _
  | @binary r _ _ _ _ w v ht hl hf _ ih =>
    refine matches_operator ht hl ?_
    -- what stands behind the operator is an operand with the operators that go on behind it
    rw [if_pos hf]
    have hr : g.Spans (.call r) w v := ih
    cases hr with
    | call h => cases h with
      | both h => exact h
  | suffix ht hl hf _ _ ih1 ih2 =>
    refine matches_operator ht hl ?_
    rw [if_neg hf]
    exact ih1.cons ih2

theorem Greedy.opens (h : g.Greedy (.element e) w v) : g.Opens e.pattern w := ⟨v, h.spans⟩

theorem Greedy.length_le (h : g.Greedy p w v) : v.length ≤ w.length := by
  induction h with
  | eof | absent | none | nil | plain | done => exact Nat.le_refl _
  | token | relation | oneOf => exact Nat.le_succ _
  | rule _ _ ih1 ih2 | again _ _ ih1 ih2 | cons _ _ ih1 ih2 => exact Nat.le_trans ih2 ih1
  | operand _ _ _ _ ih | present _ ih | labeled _ ih => exact ih
  | binary _ _ _ _ ih => exact Nat.le_succ_of_le ih
  | suffix _ _ _ _ _ ih1 ih2 => exact Nat.le_succ_of_le (Nat.le_trans ih2 ih1)

/-- What takes a token leaves less. -/
theorem Greedy.length_lt (hg : g.Founded) (h : g.Greedy p w v) (hp : p.takes g = true) :
    v.length < w.length := by
  induction h with
  | eof | absent | none | plain | done | binary | suffix =>
    simp [Part.takes, Element.takes] at hp
  | nil => simp [Part.takes, Element.takes, anyTakes] at hp
  | token | relation | oneOf => exact Nat.lt_succ_self _
  | rule _ h2 ih1 _ => exact Nat.lt_of_le_of_lt h2.length_le (ih1 hp)
  | @operand r i a _ _ ha hl _ _ ih => exact ih (hg.takes r hp a (List.mem_of_getElem? ha) hl)
  | present _ _ => simp [Part.takes, Element.takes] at hp
  | again _ h2 ih1 _ =>
    simp only [Part.takes, Element.takes, Bool.and_eq_true] at hp
    exact Nat.lt_of_le_of_lt h2.length_le (ih1 hp.2)
  | cons h1 h2 ih1 ih2 =>
    simp only [Part.takes, Element.takes, anyTakes, Bool.or_eq_true] at hp
    rcases hp with hp | hp
    · exact Nat.lt_of_le_of_lt h2.length_le (ih1 hp)
    · exact Nat.lt_of_lt_of_le (ih2 hp) h1.length_le
  | labeled _ ih => exact ih hp

/-- In front of the items that are still to be read stands one of them, or what is behind the list. -/
theorem Greedy.next_item (hc : g.Closed) (hg : g.Founded) {least : Nat} {resync : Bool} {s : KindSet}
    (h : g.Greedy (.element (.repeated e least resync)) w v) (he : e.takes g.solid = true)
    (hv : s.contains (nextKind v) = true) : (s ∪ g.firstOf e).contains (nextKind w) = true := by
  rw [KindSet.contains_union, Bool.or_eq_true]
  cases h with
  | again h1 _ =>
    rcases Spans.element_starts hc h1.spans with hk | ⟨-, rfl⟩
    · exact .inr hk
    · exact absurd (h1.length_lt hg he) (Nat.lt_irrefl _)
  | none _ => exact .inl hv

/-! ### Operators -/

section

variable {r q : Rule} {t : Table} {tier : Tier} {k : Kind} {u : List Kind}

theorem Greedy.of_plain (ht : g.table? r = Option.none) (h : g.Greedy (.operators r) w v) : w = v := by
  cases h with
  | plain _ => rfl
  | done ht' _ | binary ht' _ _ _ | suffix ht' _ _ _ _ => cases ht.symm.trans ht'

/-- Operators are read where one stands, or not at all. -/
theorem Greedy.eq_or_operator (ht : g.table? r = some t) (h : g.Greedy (.operators r) w v) :
    w = v ∨ ∃ tier q, t.lookup (nextKind w) = some (tier, q) := by
  cases h with
  | plain _ => exact .inl rfl
  | done _ _ => exact .inl rfl
  | binary ht' hl _ _ | suffix ht' hl _ _ _ =>
    rw [ht] at ht'
    cases ht'
    exact .inr ⟨_, _, hl⟩

/-- In front of operators that are still to be read stands one of them, or what is behind. -/
theorem Greedy.next_operator (ht : g.table? r = some t) (h : g.Greedy (.operators r) w v) {s : KindSet}
    (hs : ∀ k, t.operators.contains k = true → s.contains k = true) (hv : s.contains (nextKind v) = true) :
    s.contains (nextKind w) = true := by
  rcases h.eq_or_operator ht with rfl | ⟨tier, q, hl⟩
  · exact hv
  · exact hs _ (Table.contains_operators hl)

/-- Where no operator stands, none is read. -/
theorem Greedy.of_no_operator (ht : g.table? r = some t) (hl : t.lookup (nextKind w) = Option.none)
    (h : g.Greedy (.operators r) w v) : v = w := by
  rcases h.eq_or_operator ht with rfl | ⟨tier, q, h⟩
  · rfl
  · rw [hl] at h
    cases h

/-- No operator binds more loosely than level 0, so where none that binds as tightly stands none is read. -/
theorem Greedy.eq_of_level (h : g.Greedy (.operators r) w v)
    (hl : ∀ t tier q, g.table? r = some t → t.lookup (nextKind w) = some (tier, q) → tier.level < 0) : w = v := by
  rcases ht : g.table? r with _ | t
  · exact h.of_plain ht
  · refine (h.of_no_operator ht ?_).symm
    rcases hlook : t.lookup (nextKind w) with _ | ⟨tier, q⟩
    · rfl
    · exact absurd (hl t tier q ht hlook) (Nat.not_lt_zero _)

/-- Where an operator stands, it is read, then what belongs behind it, and then the operators that go
on. -/
theorem Greedy.of_operator (ht : g.table? r = some t) (hl : t.lookup k = some (tier, q))
    (h : g.Greedy (.operators r) (k :: w) u) :
    ∃ v, (if tier.form = .binary then g.Greedy (.operand r) else g.Greedy (.element (.rule q))) w v ∧
      g.Greedy (.operators r) v u := by
  cases h with
  | plain ht' =>
    rw [ht] at ht'
    cases ht'
  | done ht' hl' =>
    rw [ht] at ht'
    cases ht'
    rw [nextKind_cons, hl] at hl'
    cases hl'
  | binary ht' hl' hf h =>
    rw [ht] at ht'
    cases ht'
    rw [hl] at hl'
    cases hl'
    cases h with
    | rule h1 h2 => exact ⟨_, by rwa [if_pos hf], h2⟩
  | suffix ht' hl' hf h1 h2 =>
    rw [ht] at ht'
    cases ht'
    rw [hl] at hl'
    cases hl'
    exact ⟨_, by rwa [if_neg hf], h2⟩

end

/-- Alternatives that are left out do not matter, as long as the one that is read stays in. -/
theorem firstOf_filter {as : List Alternative} {f : Alternative → Bool} {i : Nat} {a : Alternative}
    (ha : as[i]? = some a) (hf : f a = true) (hl : ∀ b, f b = true → b.leftRecursive = false)
    (hi : ∀ j < i, ∀ b, as[j]? = some b → b.leftRecursive = false → ¬ g.Opens (rowPattern b.elements) w)
    (h : g.Greedy (.element (.seq a.elements)) w v) : g.FirstOf (as.filter f) w v := by
  induction as generalizing i with
  | nil => simp at ha
  | cons b as ih =>
    cases i with
    | zero =>
      simp only [List.getElem?_cons_zero, Option.some.injEq] at ha
      subst ha
      rw [List.filter_cons_of_pos hf]
      exact .inl h
    | succ i =>
      have hrest := ih (by simpa using ha) fun j hj c hc =>
        hi (j + 1) (by omega) c (by simpa using hc)
      by_cases hb : f b = true
      · rw [List.filter_cons_of_pos hb]
        exact .inr ⟨hi 0 (by omega) b rfl (hl b hb), hrest⟩
      · rw [List.filter_cons_of_neg hb]
        exact hrest

end Grammar

end KermlText
