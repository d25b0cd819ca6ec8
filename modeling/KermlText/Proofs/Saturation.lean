import KermlText.Grammar.Sets
import Mathlib.Data.Finset.Card
import Mathlib.Data.Finset.Prod

/-! Iterations that saturate. A step that only ever adds, on sets over finitely many members, comes to a set
that it leaves as it is, and the rounds that `saturate` is given are enough for that. Hence the three
computations on a grammar are over before their rounds are, and it suffices to know what one step adds. -/

namespace KermlText

/-! ### Sets are told by their members -/

/-- Where each member stands at its index in a list without repetitions, each place is an index. -/
theorem exists_index_of_nodup {α : Type} {all : List α} {index : α → Nat} (hn : all.Nodup)
    (hself : ∀ a, all[index a]? = some a) {i : Nat} (h : i < all.length) : ∃ a, index a = i := by
  refine ⟨all[i], ?_⟩
  have hlt : index all[i] < all.length := (List.getElem?_eq_some_iff.1 (hself all[i])).1
  have hsame : all[index all[i]]? = all[i]? := by rw [hself, List.getElem?_eq_getElem h]
  exact (List.getElem?_inj hlt hn).1 hsame

theorem Rule.exists_index {i : Nat} (h : i < count) : ∃ r : Rule, r.index = i :=
  exists_index_of_nodup nodup_all all_getElem?_index (by rwa [length_all])

theorem Kind.nodup_all : Kind.all.Nodup := by decide +kernel

theorem Kind.exists_index {i : Nat} (h : i < count) : ∃ k : Kind, k.index = i :=
  exists_index_of_nodup nodup_all all_getElem?_index (by rwa [length_all])

theorem KindSet.ext_contains {s t : KindSet} (h : ∀ k, s.contains k = t.contains k) : s = t := by
  obtain ⟨s⟩ := s
  obtain ⟨t⟩ := t
  congr 1
  refine BitVec.eq_of_getLsbD_eq fun i hi => ?_
  obtain ⟨k, rfl⟩ := Kind.exists_index hi
  exact h k

theorem RuleSet.ext_contains {s t : RuleSet} (h : ∀ r, s.contains r = t.contains r) : s = t := by
  obtain ⟨s⟩ := s
  obtain ⟨t⟩ := t
  congr 1
  refine BitVec.eq_of_getLsbD_eq fun i hi => ?_
  obtain ⟨r, rfl⟩ := Rule.exists_index hi
  exact h r

namespace KindFamily

def holds (m : KindFamily) (p : Rule × Kind) : Bool := (m.get p.1).contains p.2

theorem ext_holds {m n : KindFamily} (h : ∀ p, m.holds p = n.holds p) : m = n := by
  obtain ⟨m⟩ := m
  obtain ⟨n⟩ := n
  congr 1
  refine BitVec.eq_of_getLsbD_eq fun i hi => ?_
  have hpos : 0 < Kind.count := by decide
  obtain ⟨r, hr⟩ := Rule.exists_index (Nat.div_lt_of_lt_mul (Nat.mul_comm _ _ ▸ hi))
  obtain ⟨k, hk⟩ := Kind.exists_index (Nat.mod_lt i hpos)
  have hi : r.index * Kind.count + k.index = i := by rw [hr, hk]; exact Nat.div_add_mod' i Kind.count
  have := h (r, k)
  rwa [holds, holds, contains_get, contains_get, hi] at this

end KindFamily

/-! ### Saturation -/

section

variable {α β : Type} [DecidableEq α] {step : α → α}

/-- What a step keeps holds of all that is come to. -/
theorem saturate_induction {p : α → Prop} {a : α} (ha : p a) (hstep : ∀ a, p a → p (step a)) (n : Nat) :
    p (saturate step n a) := by
  induction n generalizing a with
  | zero => exact ha
  | succ n ih =>
    unfold saturate
    split
    · exact ha
    · exact ih (hstep a ha)

/-- A step that adds where it does not stay stops within as many rounds as there can be members. -/
theorem saturate_fixed [DecidableEq β] (mem : α → β → Bool) {all : List β} (hall : ∀ x, x ∈ all)
    (hext : ∀ a b, (∀ x, mem a x = mem b x) → a = b)
    (hmono : ∀ a b, (∀ x, mem a x = true → mem b x = true) →
      ∀ x, mem (step a) x = true → mem (step b) x = true)
    {a : α} (ha : ∀ x, mem a x = true → mem (step a) x = true) {n : Nat} (hn : all.length ≤ n) :
    step (saturate step n a) = saturate step n a := by
  let size (a : α) : Nat := (all.toFinset.filter (mem a ·)).card
  have hbound (a : α) : size a ≤ all.length :=
    Nat.le_trans (Finset.card_filter_le _ _) (List.toFinset_card_le all)
  have hgrow (a : α) (ha : ∀ x, mem a x = true → mem (step a) x = true) (hne : step a ≠ a) :
      size a < size (step a) := by
    have hnew : ∃ x, mem (step a) x = true ∧ mem a x = false := by
      by_contra hno
      refine hne (hext _ _ fun x => ?_)
      rcases hx : mem a x with _ | _
      · rw [← Bool.not_eq_true]
        exact fun h => hno ⟨x, h, hx⟩
      · exact ha x hx
    obtain ⟨x, hx, hx'⟩ := hnew
    refine Finset.card_lt_card (Finset.ssubset_iff_subset_ne.2 ⟨?_, fun he => ?_⟩)
    · intro y hy
      rw [Finset.mem_filter] at hy ⊢
      exact ⟨hy.1, ha y hy.2⟩
    · have hmem : x ∈ all.toFinset.filter (mem (step a) ·) :=
        Finset.mem_filter.2 ⟨List.mem_toFinset.2 (hall x), hx⟩
      rw [← he, Finset.mem_filter, hx'] at hmem
      cases hmem.2
  -- each round that is not the last adds a member, so with `n` rounds left `n` are missing at most
  suffices hfix : ∀ n a, (∀ x, mem a x = true → mem (step a) x = true) → all.length ≤ size a + n →
      step (saturate step n a) = saturate step n a from hfix n a ha (by omega)
  intro n
  induction n with
  | zero =>
    intro a ha hsize
    by_contra hne
    have := hgrow a ha hne
    have := hbound (step a)
    omega
  | succ n ih =>
    intro a ha hsize
    unfold saturate
    split
    · assumption
    · rename_i hne
      have := hgrow a ha hne
      exact ih (step a) (hmono a (step a) ha) (by omega)

end

/-! ### What a step adds -/

theorem contains_foldl_insert (p : Rule → Bool) (rs : List Rule) (s : RuleSet) (r : Rule) :
    (rs.foldl (fun s r => if p r then s.insert r else s) s).contains r =
      (s.contains r || decide (r ∈ rs) && p r) := by
  induction rs generalizing s with
  | nil => simp
  | cons a rs ih =>
    rw [List.foldl_cons, ih]
    by_cases hp : p a = true <;> by_cases ha : a = r
    · subst ha; simp [hp]
    · simp [hp, ha, Ne.symm ha]
    · subst ha; simp [hp]
    · simp [hp, Ne.symm ha]

theorem contains_foldl_add {ι : Type} (at' : ι → Rule) (kinds : ι → KindSet) (xs : List ι) (m : KindFamily)
    (r : Rule) (k : Kind) :
    ((xs.foldl (fun m x => m.add (at' x) (kinds x)) m).get r).contains k =
      ((m.get r).contains k || xs.any fun x => decide (at' x = r) && (kinds x).contains k) := by
  induction xs generalizing m with
  | nil => simp
  | cons x xs ih => rw [List.foldl_cons, ih, KindFamily.contains_get_add, List.any_cons, Bool.or_assoc]

section

variable {rows : Rule → List (List Element)} {nullable : Rule → Bool}

theorem contains_nullableStep (s : RuleSet) (r : Rule) :
    (nullableStep rows s).contains r = (rows r).any (allNullable s.contains) := by
  unfold nullableStep
  rw [contains_foldl_insert (fun r => (rows r).any (allNullable s.contains))]
  simp [Rule.mem_all]

theorem contains_firstStep (m : KindFamily) (r : Rule) (k : Kind) :
    ((firstStep rows nullable m).get r).contains k =
      (rows r).any fun es => (rowFirstKinds nullable m.get es).contains k := by
  have hrule (a : Rule) (init : KindFamily) :
      (((rows a).foldl (fun m' es => m'.add a (rowFirstKinds nullable m.get es)) init).get r).contains k =
        ((init.get r).contains k || decide (a = r) &&
          (rows r).any fun es => (rowFirstKinds nullable m.get es).contains k) := by
    rw [contains_foldl_add (fun _ => a) (rowFirstKinds nullable m.get)]
    by_cases ha : a = r
    · subst ha; simp
    · simp [ha]
  have hall (rs : List Rule) (init : KindFamily) :
      ((rs.foldl (fun m' a => (rows a).foldl
        (fun m' es => m'.add a (rowFirstKinds nullable m.get es)) m') init).get r).contains k =
        ((init.get r).contains k || decide (r ∈ rs) &&
          (rows r).any fun es => (rowFirstKinds nullable m.get es).contains k) := by
    induction rs generalizing init with
    | nil => simp
    | cons a rs ih =>
      rw [List.foldl_cons, ih, hrule]
      by_cases ha : a = r
      · subst ha
        cases (rows a).any fun es => (rowFirstKinds nullable m.get es).contains k <;> simp
      · simp [ha, Ne.symm ha]
  unfold firstStep
  rw [hall]
  simp [Rule.mem_all]

theorem contains_followStart (r : Rule) (k : Kind) :
    (followStart.get r).contains k = decide (k = .eof) := by
  unfold followStart
  rw [contains_foldl_add (fun r => r) (fun _ => .single .eof)]
  by_cases hk : k = .eof
  · subst hk
    simp [Rule.mem_all]
  · simp [hk, Ne.symm hk]

theorem contains_followStep (us : List Use) (m : KindFamily) (r : Rule) (k : Kind) :
    ((followStep us m).get r).contains k = (decide (k = .eof) || us.any fun u => decide (u.rule = r) &&
      (u.kinds.contains k || u.lastIn.any fun s => (m.get s).contains k)) := by
  unfold followStep
  rw [contains_foldl_add Use.rule, contains_followStart]
  congr 2
  funext u
  rw [KindSet.contains_union]
  cases u.lastIn <;> simp

/-! ### Steps add no less where there is more -/

mutual

theorem Element.isNullable_mono {n n' : Rule → Bool} (h : ∀ r, n r = true → n' r = true) :
    ∀ e : Element, e.isNullable n = true → e.isNullable n' = true
  | .token _, he | .oneOf _, he | .relation _ _, he | .comment, he => by simp [Element.isNullable] at he
  | .rule r, he | .ruleAt r _, he => by
    simp only [Element.isNullable] at he ⊢
    exact h r he
  | .optional _, _ => by simp [Element.isNullable]
  | .repeated e _ _, he => by
    simp only [Element.isNullable, Bool.or_eq_true] at he ⊢
    exact he.imp_right (Element.isNullable_mono h e)
  | .seq es, he => by
    simp only [Element.isNullable] at he ⊢
    exact allNullable_mono h es he
  | .labeled _ _ e, he => by
    simp only [Element.isNullable] at he ⊢
    exact Element.isNullable_mono h e he

theorem allNullable_mono {n n' : Rule → Bool} (h : ∀ r, n r = true → n' r = true) :
    ∀ es : List Element, allNullable n es = true → allNullable n' es = true
  | [], _ => by simp [allNullable]
  | e :: es, he => by
    simp only [allNullable, Bool.and_eq_true] at he ⊢
    exact ⟨Element.isNullable_mono h e he.1, allNullable_mono h es he.2⟩

end

mutual

theorem Element.firstKinds_mono {f f' : Rule → KindSet}
    (h : ∀ r k, (f r).contains k = true → (f' r).contains k = true) (k : Kind) :
    ∀ e : Element, (e.firstKinds nullable f).contains k = true → (e.firstKinds nullable f').contains k = true
  | .token _, he | .oneOf _, he | .relation _ _, he | .comment, he => by
    simpa [Element.firstKinds] using he
  | .rule r, he | .ruleAt r _, he => by
    simp only [Element.firstKinds] at he ⊢
    exact h r k he
  | .optional e, he | .repeated e _ _, he | .labeled _ _ e, he => by
    simp only [Element.firstKinds] at he ⊢
    exact Element.firstKinds_mono h k e he
  | .seq es, he => by
    simp only [Element.firstKinds] at he ⊢
    exact rowFirstKinds_mono h k es he

theorem rowFirstKinds_mono {f f' : Rule → KindSet}
    (h : ∀ r k, (f r).contains k = true → (f' r).contains k = true) (k : Kind) :
    ∀ es : List Element, (rowFirstKinds nullable f es).contains k = true →
      (rowFirstKinds nullable f' es).contains k = true
  | [], he => by simp [rowFirstKinds] at he
  | e :: es, he => by
    unfold rowFirstKinds at he ⊢
    split at he
    · rename_i hn
      rw [if_pos hn]
      rw [KindSet.contains_union, Bool.or_eq_true] at he ⊢
      exact he.imp (Element.firstKinds_mono h k e) (rowFirstKinds_mono h k es)
    · rename_i hn
      rw [if_neg hn]
      exact Element.firstKinds_mono h k e he

end

end

/-! ### The computations come to an end -/

section

variable (rows : Rule → List (List Element))

/-- One more round adds no rule that may be empty. -/
theorem nullableStep_leastNullable : nullableStep rows (leastNullable rows) = leastNullable rows := by
  refine saturate_fixed RuleSet.contains Rule.mem_all (fun _ _ => RuleSet.ext_contains) ?_ ?_
    (Nat.le_of_eq Rule.length_all)
  · intro s t hst r hr
    rw [contains_nullableStep, List.any_eq_true] at hr ⊢
    exact hr.imp fun es => And.imp_right (allNullable_mono hst es)
  · intro r hr
    simp at hr

theorem mem_pairs (p : Rule × Kind) : p ∈ Rule.all ×ˢ Kind.all :=
  List.mem_product.2 ⟨Rule.mem_all p.1, Kind.mem_all p.2⟩

theorem length_pairs : (Rule.all ×ˢ Kind.all).length = Rule.count * Kind.count := by
  rw [List.length_product, Rule.length_all, Kind.length_all]

/-- One more round adds no kind that a rule may start with. -/
theorem firstStep_leastFirst (nullable : Rule → Bool) :
    firstStep rows nullable (leastFirst rows nullable) = leastFirst rows nullable := by
  refine saturate_fixed KindFamily.holds mem_pairs (fun _ _ => KindFamily.ext_holds) ?_ ?_
    (Nat.le_of_eq length_pairs)
  · rintro m n hmn ⟨r, k⟩ hp
    simp only [KindFamily.holds] at hp ⊢
    rw [contains_firstStep, List.any_eq_true] at hp ⊢
    exact hp.imp fun es => And.imp_right (rowFirstKinds_mono (fun r k => hmn (r, k)) k es)
  · rintro ⟨r, k⟩ hp
    simp [KindFamily.holds] at hp

/-- One more round adds no kind that may follow a rule. -/
theorem followStep_leastFollow (nullable : Rule → Bool) (first : Rule → KindSet) :
    followStep (uses rows nullable first) (leastFollow rows nullable first) =
      leastFollow rows nullable first := by
  refine saturate_fixed KindFamily.holds mem_pairs (fun _ _ => KindFamily.ext_holds) ?_ ?_
    (Nat.le_of_eq length_pairs)
  · rintro m n hmn ⟨r, k⟩ hp
    simp only [KindFamily.holds] at hp ⊢
    rw [contains_followStep, Bool.or_eq_true, List.any_eq_true] at hp ⊢
    refine hp.imp_right fun ⟨u, hu, huse⟩ => ⟨u, hu, ?_⟩
    rw [Bool.and_eq_true, Bool.or_eq_true] at huse ⊢
    refine ⟨huse.1, huse.2.imp_right fun hlast => ?_⟩
    cases hs : u.lastIn with
    | none => simp [hs] at hlast
    | some s =>
      rw [hs] at hlast
      exact hmn (s, k) hlast
  · rintro ⟨r, k⟩ hp
    simp only [KindFamily.holds] at hp ⊢
    rw [contains_followStart] at hp
    rw [contains_followStep, hp, Bool.true_or]

end

end KermlText
