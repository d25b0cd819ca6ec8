import KermlText.Proofs.Saturation
import Mathlib.Data.List.Dedup

/-! Sets of kinds in four machine words. The bit of a kind lies in the word that its index divided by 64
names, at the place that is the remainder, and a kind is read back from its index. Everything about the words
goes through one bit of them: what `mark` and `or` do to it, that it tells the words apart, and that the ones
among the 256 bits are as many as the words count. On the words of a set each operation then does what it
does on the set. -/

namespace KermlText

def Kind.ofIndex? (i : Nat) : Option Kind := all[i]?

theorem Kind.map_index_all : all.map index = List.range count := by decide +kernel

theorem Kind.index_lt_bits (k : Kind) : k.index < 256 := k.index_lt.trans (by decide)

abbrev KindWords := Fin 4 → BitVec 64

namespace KindWords

def word (i : Nat) : Fin 4 := Fin.ofNat 4 (i / 64)

def mask (i : Nat) : BitVec 64 := 1#64 <<< (i % 64)

def test (w : KindWords) (i : Nat) : Bool := w (word i) &&& mask i != 0

def mark (w : KindWords) (i : Nat) : KindWords := fun j => if j = word i then w j ||| mask i else w j

def ofKinds (ks : List Kind) : KindWords := ks.foldl (fun w k => w.mark k.index) fun _ => 0

def or (w v : KindWords) : KindWords := fun j => w j ||| v j

/-- Whether some word has a bit in common. -/
def meets (w v : KindWords) : Bool := (List.finRange 4).any fun j => w j &&& v j != 0

def isZero (w : KindWords) : Bool := (List.finRange 4).all fun j => w j == 0

def differs (w v : KindWords) : Bool := (List.finRange 4).any fun j => w j != v j

def count (w : KindWords) : Nat := ((List.finRange 4).map fun j => (w j).cpop.toNat).foldl (· + ·) 0

/-- The kinds found by going through all indices. -/
def members (w : KindWords) : List Kind := ((List.range Kind.count).filter w.test).filterMap Kind.ofIndex?

variable {w v : KindWords} {i j : Nat}

theorem getLsbD_mask (i m : Nat) : (mask i).getLsbD m = decide (i % 64 = m) := by
  have hi : i % 64 < 64 := Nat.mod_lt _ (by decide)
  have h : (mask i).getLsbD m = (decide (i % 64 < 64) && decide (i % 64 = m)) := BitVec.getLsbD_twoPow ..
  simpa [hi] using h

theorem test_eq (w : KindWords) (i : Nat) : w.test i = (w (word i)).getLsbD (i % 64) := by
  have hand : w (word i) &&& mask i =
      if (w (word i)).getLsbD (i % 64) then mask i else 0 := BitVec.and_twoPow ..
  have hmask : mask i ≠ 0 := fun h => by simpa [h] using getLsbD_mask i (i % 64)
  rw [test, hand]
  split <;> simp_all

theorem test_add (w : KindWords) (j : Fin 4) {m : Nat} (hm : m < 64) :
    w.test (64 * j.val + m) = (w j).getLsbD m := by
  have hword : word (64 * j.val + m) = j := by
    simp only [word, Fin.ofNat, Fin.ext_iff]
    omega
  have hbit : (64 * j.val + m) % 64 = m := by omega
  rw [test_eq, hword, hbit]

theorem test_mark (hi : i < 256) (hj : j < 256) : (w.mark i).test j = (w.test j || decide (i = j)) := by
  have hij : i = j ↔ word j = word i ∧ i % 64 = j % 64 := by
    simp only [word, Fin.ofNat, Fin.mk.injEq]
    omega
  simp only [test_eq, mark]
  split
  · rename_i hw
    simp [getLsbD_mask, hij, hw]
  · rename_i hw
    simp [hij, hw]

@[simp] theorem test_or (w v : KindWords) (i : Nat) : (w.or v).test i = (w.test i || v.test i) := by
  simp [test_eq, or]

theorem ext_test (h : ∀ i < 256, w.test i = v.test i) : w = v := by
  funext j
  refine BitVec.eq_of_getLsbD_eq fun m hm => ?_
  have hi := h (64 * j.val + m) (by omega)
  rwa [test_add w j hm, test_add v j hm] at hi

theorem isZero_iff : w.isZero = true ↔ ∀ i < 256, w.test i = false := by
  have hzero : w.isZero = true ↔ w = fun _ => 0 := by
    simp [isZero, funext_iff]
  have htest : ∀ i, test (fun _ => 0) i = false := fun i => by simp [test]
  rw [hzero]
  refine ⟨?_, fun h => ext_test fun i hi => ?_⟩
  · rintro rfl i -
    exact htest i
  · rw [h i hi, htest]

theorem differs_iff : w.differs v = true ↔ w ≠ v := by
  simp [differs, funext_iff]

theorem meets_iff : w.meets v = true ↔ ∃ i < 256, w.test i = true ∧ v.test i = true := by
  have hzero : w.meets v = !isZero fun j => w j &&& v j := by
    simp [meets, isZero, List.not_all_eq_any_not, bne]
  have hboth : ∀ i, test (fun j => w j &&& v j) i = (w.test i && v.test i) := fun i => by simp [test_eq]
  rw [hzero, Bool.not_eq_true', ← Bool.not_eq_true, isZero_iff]
  simp [hboth]

theorem cpopNatRec_eq_countP (x : BitVec 64) (n : Nat) :
    x.cpopNatRec n 0 = (List.range n).countP x.getLsbD := by
  induction n with
  | zero => rfl
  | succ n ih =>
    rw [BitVec.cpopNatRec_succ, BitVec.cpopNatRec_add, ih, List.range_succ, List.countP_append,
      List.countP_singleton]
    cases x.getLsbD n <;> rfl

theorem count_eq_countP (w : KindWords) : w.count = (List.range 256).countP w.test := by
  have hrange : List.range 256 =
      (List.finRange 4).flatMap fun j => (List.range 64).map (64 * j.val + ·) := by decide +kernel
  rw [hrange, List.countP_flatMap, count, ← List.sum_eq_foldl_nat]
  congr 1
  refine List.map_congr_left fun j _ => ?_
  rw [BitVec.toNat_cpop, cpopNatRec_eq_countP, Function.comp_apply, List.countP_map]
  refine List.countP_congr fun m hm => ?_
  rw [Function.comp_apply, test_add w j (List.mem_range.1 hm)]

end KindWords

namespace KindSet

def words (s : KindSet) : KindWords := fun j => s.bits.extractLsb' (64 * j.val) 64

variable {s t : KindSet}

theorem test_words (s : KindSet) {i : Nat} (hi : i < 256) : s.words.test i = s.bits.getLsbD i := by
  rw [KindWords.test_eq, words, BitVec.getLsbD_extractLsb']
  have hword : 64 * (KindWords.word i).val + i % 64 = i := by
    simp only [KindWords.word, Fin.ofNat]
    omega
  rw [hword]
  simp [Nat.mod_lt]

theorem test_words_index (s : KindSet) (k : Kind) : s.words.test k.index = s.contains k := by
  exact s.test_words k.index_lt_bits

theorem words_inj : s.words = t.words ↔ s = t := by
  refine ⟨fun h => ext_contains fun k => ?_, congrArg words⟩
  rw [← test_words_index, ← test_words_index, h]

theorem words_insert (s : KindSet) (k : Kind) : (s.insert k).words = s.words.mark k.index := by
  refine KindWords.ext_test fun i hi => ?_
  rw [KindWords.test_mark k.index_lt_bits hi, test_words _ hi, test_words _ hi]
  simp [insert, Union.union, union, single, BitVec.getLsbD_twoPow, k.index_lt]

theorem words_ofList (ks : List Kind) : (ofList ks).words = .ofKinds ks := by
  suffices h : ∀ s : KindSet, (ks.foldl insert s).words = ks.foldl (fun w k => w.mark k.index) s.words by
    have hempty : (∅ : KindSet).words = fun _ => 0 := by
      funext j
      simp [words, EmptyCollection.emptyCollection, empty]
    rw [ofList, h, hempty, KindWords.ofKinds]
  induction ks with
  | nil => exact fun _ => rfl
  | cons k ks ih =>
    intro s
    rw [List.foldl_cons, ih, words_insert, List.foldl_cons]

theorem words_union (s t : KindSet) : (s ∪ t).words = s.words.or t.words := by
  refine KindWords.ext_test fun i hi => ?_
  rw [KindWords.test_or, test_words _ hi, test_words _ hi, test_words _ hi]
  simp [Union.union, union]

theorem words_members (s : KindSet) : s.words.members = s.toList := by
  have hfilter : (List.range Kind.count).filter s.words.test = (Kind.all.filter s.contains).map Kind.index := by
    rw [← Kind.map_index_all, List.filter_map]
    congr 2
    exact funext s.test_words_index
  have hback : Kind.ofIndex? ∘ Kind.index = some := funext Kind.all_getElem?_index
  rw [KindWords.members, hfilter, List.filterMap_map, hback, List.filterMap_some, toList]

theorem words_count (s : KindSet) : s.words.count = s.size := by
  have hrange : List.range 256 = List.range Kind.count ++ (List.range 106).map (Kind.count + ·) := by
    decide +kernel
  -- the bits past the last kind are in no set
  have hover : ((List.range 106).map (Kind.count + ·)).countP s.words.test = 0 := by
    simp only [List.countP_eq_zero, List.mem_map, List.mem_range]
    rintro _ ⟨i, hi, rfl⟩
    rw [s.test_words (by unfold Kind.count; omega), BitVec.getLsbD_of_ge _ _ (Nat.le_add_right _ _)]
    exact Bool.false_ne_true
  rw [KindWords.count_eq_countP, hrange, List.countP_append, hover, ← Kind.map_index_all, List.countP_map,
    Nat.add_zero, size, toList, List.countP_eq_length_filter]
  congr 2
  exact funext s.test_words_index

theorem exists_kind_of_test {i : Nat} (hi : i < 256) (h : s.words.test i = true) : ∃ k : Kind, k.index = i := by
  rw [s.test_words hi] at h
  exact Kind.exists_index (BitVec.lt_of_getLsbD h)

theorem isEmpty_iff : s.isEmpty = true ↔ ∀ k, s.contains k = false := by
  have hempty : s.isEmpty = true ↔ s = ∅ := by
    rw [isEmpty, beq_iff_eq]
    exact ⟨fun h => congrArg KindSet.mk h, fun h => congrArg KindSet.bits h⟩
  rw [hempty]
  refine ⟨?_, fun h => ext_contains fun k => ?_⟩
  · rintro rfl k
    exact contains_empty k
  · rw [h k, contains_empty]

theorem words_isZero (s : KindSet) : s.words.isZero = s.isEmpty := by
  rw [Bool.eq_iff_iff, KindWords.isZero_iff, isEmpty_iff]
  constructor
  · intro h k
    rw [← test_words_index]
    exact h _ k.index_lt_bits
  · intro h i hi
    rw [← Bool.not_eq_true]
    intro ht
    obtain ⟨k, rfl⟩ := exists_kind_of_test hi ht
    rw [test_words_index, h k] at ht
    cases ht

theorem intersects_iff : s.intersects t = true ↔ ∃ k, s.contains k = true ∧ t.contains k = true := by
  have hboth : s.intersects t = !isEmpty ⟨s.bits &&& t.bits⟩ := rfl
  have hcontains : ∀ k, contains ⟨s.bits &&& t.bits⟩ k = (s.contains k && t.contains k) := fun k => by
    simp [contains]
  rw [hboth, Bool.not_eq_true', ← Bool.not_eq_true, isEmpty_iff]
  simp [hcontains]

theorem words_meets (s t : KindSet) : s.words.meets t.words = s.intersects t := by
  rw [Bool.eq_iff_iff, KindWords.meets_iff, intersects_iff]
  constructor
  · rintro ⟨i, hi, hs, ht⟩
    obtain ⟨k, rfl⟩ := exists_kind_of_test hi hs
    exact ⟨k, by rwa [← test_words_index], by rwa [← test_words_index]⟩
  · rintro ⟨k, hs, ht⟩
    exact ⟨k.index, k.index_lt_bits, by rwa [test_words_index], by rwa [test_words_index]⟩

theorem extend_changed_iff : (s.extend t).2 = true ↔ ∃ k, t.contains k = true ∧ s.contains k = false := by
  have hsame : (s.extend t).2 = true ↔ ¬ s ∪ t = s := by simp [extend]
  have hsub : s ∪ t = s ↔ ∀ k, t.contains k = true → s.contains k = true := by
    constructor
    · intro h k hk
      rw [← h, contains_union, hk, Bool.or_true]
    · intro h
      refine ext_contains fun k => ?_
      rw [contains_union]
      rcases hk : t.contains k with _ | _
      · exact Bool.or_false _
      · rw [h k hk, Bool.or_true]
  rw [hsame, hsub]
  simp

theorem words_extend (s t : KindSet) : (s.words.or t.words).differs s.words = (s.extend t).2 := by
  rw [Bool.eq_iff_iff, ← words_union, KindWords.differs_iff, Ne, words_inj]
  exact bne_iff_ne.symm

theorem ascending_toList (s : KindSet) : s.toList.Pairwise (·.index < ·.index) := by
  have hall : Kind.all.Pairwise (·.index < ·.index) := by
    rw [← List.pairwise_map (f := Kind.index) (R := (· < ·)), Kind.map_index_all]
    exact List.pairwise_lt_range
  exact hall.filter _

theorem size_ofList (ks : List Kind) : (ofList ks).size = ks.dedup.length := by
  have hnodup : (ofList ks).toList.Nodup := Kind.nodup_all.filter _
  refine ((List.perm_ext_iff_of_nodup hnodup ks.nodup_dedup).2 fun k => ?_).length_eq
  rw [mem_toList, contains_ofList, List.mem_dedup]

theorem isEmpty_ofList (ks : List Kind) : (ofList ks).isEmpty = true ↔ ks = [] := by
  rw [isEmpty_iff, List.eq_nil_iff_forall_not_mem]
  exact forall_congr' fun k => by rw [← contains_ofList, Bool.not_eq_true]

/-- A set has the members of the list that it was made of, each once and in declaration order; the operations
are those of sets, and two sets with the same members are one. The four words agree with all of it. -/
theorem faithful (ks : List Kind) (s t : KindSet) (a : Kind) :
    ((ofList ks).words = .ofKinds ks ∧
      (∀ k, (ofList ks).contains k = true ↔ k ∈ ks) ∧
      (∀ k, k ∈ (ofList ks).toList ↔ k ∈ ks) ∧
      (ofList ks).toList.Pairwise (·.index < ·.index) ∧
      (ofList ks).size = ks.dedup.length ∧
      ((ofList ks).isEmpty = true ↔ ks = [])) ∧
    ((∀ k, (s ∪ t).contains k = true ↔ s.contains k = true ∨ t.contains k = true) ∧
      (∀ k, (s.insert a).contains k = true ↔ s.contains k = true ∨ k = a) ∧
      (s.intersects t = true ↔ ∃ k, s.contains k = true ∧ t.contains k = true) ∧
      (s.extend t).1 = s ∪ t ∧
      ((s.extend t).2 = true ↔ ∃ k, t.contains k = true ∧ s.contains k = false) ∧
      (s = t ↔ ∀ k, s.contains k = true ↔ t.contains k = true)) ∧
    ((∀ k : Kind, s.words.test k.index = s.contains k) ∧
      s.words.members = s.toList ∧
      s.words.count = s.size ∧
      s.words.isZero = s.isEmpty ∧
      s.words.meets t.words = s.intersects t ∧
      (s.insert a).words = s.words.mark a.index ∧
      (s ∪ t).words = s.words.or t.words ∧
      (s.words.or t.words).differs s.words = (s.extend t).2 ∧
      (s.words = t.words ↔ s = t)) := by
  refine ⟨⟨words_ofList ks, fun k => contains_ofList, fun k => ?_, ascending_toList _, size_ofList ks,
    isEmpty_ofList ks⟩, ⟨fun k => ?_, fun k => ?_, intersects_iff, rfl, extend_changed_iff, ?_⟩,
    test_words_index s, words_members s, words_count s, words_isZero s, words_meets s t, words_insert s a,
    words_union s t, words_extend s t, words_inj⟩
  · rw [mem_toList, contains_ofList]
  · rw [contains_union, Bool.or_eq_true]
  · rw [contains_insert, Bool.or_eq_true, decide_eq_true_eq, @eq_comm _ a k]
  · refine ⟨fun h k => by rw [h], fun h => ext_contains fun k => ?_⟩
    rw [Bool.eq_iff_iff]
    exact h k

end KindSet
end KermlText
