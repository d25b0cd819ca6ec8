import KermlText.Rule

/-!
Families indexed by rules: a function on rules whose values have been worked out once.
-/

namespace KermlText

structure RuleMap (α : Type) where
  entries : Vector α Rule.count
  deriving DecidableEq

namespace RuleMap

variable {α : Type}

def tabulate (f : Rule → α) : RuleMap α :=
  ⟨⟨(Rule.all.map f).toArray, by simp [Rule.length_all]⟩⟩

def get (m : RuleMap α) (r : Rule) : α :=
  have := r.index_lt
  m.entries[r.index]

@[simp] theorem get_tabulate (f : Rule → α) (r : Rule) : (tabulate f).get r = f r := by
  have h := Rule.all_getElem?_index r
  obtain ⟨hlt, he⟩ := List.getElem?_eq_some_iff.1 h
  simp [tabulate, get, he]

theorem ext_get {m n : RuleMap α} (h : ∀ r, m.get r = n.get r) : m = n := by
  obtain ⟨m⟩ := m
  obtain ⟨n⟩ := n
  congr 1
  refine Vector.ext fun i hi => ?_
  have hall : i < Rule.all.length := by rw [Rule.length_all]; exact hi
  have hr := h Rule.all[i]
  have hix : Rule.all[i].index = i := by
    have hlt := Rule.index_lt Rule.all[i]
    have hget := Rule.all_getElem?_index Rule.all[i]
    have hself : Rule.all[i]? = some Rule.all[i] := List.getElem?_eq_getElem hall
    rw [← Rule.length_all] at hlt
    exact (List.getElem?_inj hlt Rule.nodup_all).1 (hget.trans hself.symm)
  simpa [get, hix] using hr

end RuleMap

end KermlText
