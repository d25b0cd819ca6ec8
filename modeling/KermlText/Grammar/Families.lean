import KermlText.KindSet
import KermlText.Rule

/-!
Sets of rules, and families of sets of kinds, one set for each rule. Both are bit vectors: a bit for
each rule, and a bit for each pair of a rule and a kind. So equality is decided at once, and a family
that only grows has at most as many values as it has bits.
-/

namespace KermlText

structure RuleSet where
  bits : BitVec Rule.count
  deriving DecidableEq

namespace RuleSet

def empty : RuleSet := ⟨0⟩

def contains (s : RuleSet) (r : Rule) : Bool := s.bits.getLsbD r.index

def insert (s : RuleSet) (r : Rule) : RuleSet := ⟨s.bits ||| BitVec.twoPow Rule.count r.index⟩

@[simp] theorem contains_empty (r : Rule) : empty.contains r = false := by
  simp [empty, contains]

@[simp] theorem contains_insert (s : RuleSet) (a r : Rule) :
    (s.insert a).contains r = (s.contains r || decide (a = r)) := by
  have := Rule.index_lt a
  by_cases h : a = r
  · subst h; simp [insert, contains, this]
  · have : a.index ≠ r.index := fun e => h (Rule.index_inj e)
    simp [insert, contains, BitVec.getLsbD_twoPow, h, this]

end RuleSet

structure KindFamily where
  bits : BitVec (Rule.count * Kind.count)
  deriving DecidableEq

namespace KindFamily

def empty : KindFamily := ⟨0⟩

def get (m : KindFamily) (r : Rule) : KindSet :=
  ⟨m.bits.extractLsb' (r.index * Kind.count) Kind.count⟩

def add (m : KindFamily) (r : Rule) (s : KindSet) : KindFamily :=
  ⟨m.bits ||| s.bits.setWidth _ <<< (r.index * Kind.count)⟩

theorem contains_get (m : KindFamily) (r : Rule) (k : Kind) :
    (m.get r).contains k = m.bits.getLsbD (r.index * Kind.count + k.index) := by
  simp [get, KindSet.contains, Kind.index_lt]

@[simp] theorem get_empty (r : Rule) (k : Kind) : (empty.get r).contains k = false := by
  simp [contains_get, empty]

@[simp] theorem contains_get_add (m : KindFamily) (a r : Rule) (s : KindSet) (k : Kind) :
    ((m.add a s).get r).contains k = ((m.get r).contains k || decide (a = r) && s.contains k) := by
  have hr := Rule.index_lt r
  have hk := Kind.index_lt k
  have hbit : r.index * Kind.count + k.index < Rule.count * Kind.count := by
    simp only [Rule.count, Kind.count] at *; omega
  rw [contains_get, contains_get]
  simp only [add, BitVec.getLsbD_or, BitVec.getLsbD_shiftLeft, hbit, decide_true,
    Bool.true_and, BitVec.getLsbD_setWidth, KindSet.contains]
  by_cases h : a = r
  · subst h
    have : k.index < Rule.count * Kind.count := by omega
    have : ¬ a.index * Kind.count + k.index < a.index * Kind.count := by omega
    simp [*]
  · congr 1
    simp only [h, decide_false, Bool.false_and]
    by_cases hlt : r.index * Kind.count + k.index < a.index * Kind.count
    · simp [hlt]
    · have hne : r.index ≠ a.index := fun e => h (Rule.index_inj e).symm
      have hge : Kind.count ≤ r.index * Kind.count + k.index - a.index * Kind.count := by
        simp only [Kind.count] at *; omega
      simp [BitVec.getLsbD_of_ge _ _ hge]

end KindFamily

end KermlText
