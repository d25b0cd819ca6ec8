import KermlText.Proofs.Overlaps
import Mathlib.Tactic.MkIffOfInductiveProp

/-! The choices of the grammar are settled by the text, but for those that are known to overlap. This is
a computation over the table of rules. -/

namespace KermlText

open Grammar Rules Rules.Phrase

/-- Whether the element stays inside a text: it asks neither for the end of input nor for a whole text. -/
def Element.isInner : Element → Bool
  | .token k | .relation k _ => k != .eof && k != .error
  | .oneOf ks => !ks.contains .eof && !ks.contains .error
  | .rule r | .ruleAt r _ => r != .rootNamespace
  | _ => true

namespace Rules

/-- All members of a text. -/
def textMembers : Element := fields "members" (members (ref .namespaceMember))

theorem alternatives_rootNamespace :
    kerml.alternatives .rootNamespace = [⟨[textMembers, tok .eof], false⟩] := rfl

end Rules

/-- Whether the choices of a rule are settled by the text, but for those that overlap. -/
def Rule.isSettled (r : Rule) : Bool :=
  r == .rootNamespace ||
    ((kerml.alternatives r).all fun a => rowAll Element.isInner a.elements) &&
    (r == .featureTail || kerml.rowsSettled r) &&
    (r == .arrowInvocationExpression || kerml.choicesSettled r)

attribute [mk_iff] FeatureTail.Facts Arrow.Facts Coherent

instance : Decidable FeatureTail.Facts := decidable_of_iff' _ (FeatureTail.facts_iff)

instance : Decidable Arrow.Facts := decidable_of_iff' _ (Arrow.facts_iff)

instance (r : Rule) (t : Table) : Decidable (kerml.Coherent r t) :=
  decidable_of_iff' _ (Grammar.coherent_iff kerml r t)

/-- All that is computed from the table of rules, in one go: what takes long is to work out its sets. -/
theorem checked_kerml :
    (∀ r ∈ Rule.all, r.isSettled = true) ∧ FeatureTail.Facts ∧ Arrow.Facts ∧
      kerml.Coherent .ownedExpression operatorTable ∧ kerml.Coherent .primaryExpression suffixTable ∧
      kerml.settled (.single .eof) none textMembers [rowPattern [tok .eof]] = true := by
  decide +kernel

theorem rowAll_isInner {r : Rule} (hr : r ≠ .rootNamespace) {a : Alternative}
    (ha : a ∈ kerml.alternatives r) : rowAll Element.isInner a.elements = true := by
  have h := checked_kerml.1 r (Rule.mem_all r)
  simp only [Rule.isSettled, Bool.or_eq_true, Bool.and_eq_true, beq_iff_eq, hr, false_or,
    List.all_eq_true] at h
  exact h.1.1 a ha

theorem rowsSettled_kerml {r : Rule} (hr : r ≠ .rootNamespace) (ht : r ≠ .featureTail) :
    kerml.rowsSettled r = true := by
  have h := checked_kerml.1 r (Rule.mem_all r)
  simp only [Rule.isSettled, Bool.or_eq_true, Bool.and_eq_true, beq_iff_eq, hr, ht, false_or] at h
  exact h.1.2

theorem choicesSettled_kerml {r : Rule} (hr : r ≠ .rootNamespace)
    (ha : r ≠ .arrowInvocationExpression) : kerml.choicesSettled r = true := by
  have h := checked_kerml.1 r (Rule.mem_all r)
  simp only [Rule.isSettled, Bool.or_eq_true, Bool.and_eq_true, beq_iff_eq, hr, ha, false_or] at h
  exact h.2

theorem coherent_kerml {r : Rule} {t : Table} (h : kerml.table? r = some t) : kerml.Coherent r t := by
  rcases table_kerml h with ⟨rfl, rfl⟩ | ⟨rfl, rfl⟩
  · exact checked_kerml.2.2.2.1
  · exact checked_kerml.2.2.2.2.1

end KermlText
