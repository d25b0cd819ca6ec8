import KermlText.Proofs.Abreast
import Mathlib.Data.Finset.Card
import Mathlib.Data.Finset.Prod
import Mathlib.Tactic.Choose

/-! Rounds are enough. What a round of a list does depends on the place and on what is known, and there are
only so many of both. A list that goes on through all its rounds was in one state twice, so it would go on
with any number of rounds. Hence the number of rounds, which depends on the size of the stream, has no say in
what a trial does. -/

namespace KermlText

/-! ### What is known grows -/

namespace Memo

/-- How many of the first `n` keys are known. -/
def count (n : Nat) (m : Memo) : Nat := ((Finset.range n).filter (· ∈ m.entries)).card

/-- Nothing new is known, or more is. -/
def Grows (n : Nat) (m m' : Memo) : Prop := m' = m ∨ m.count n < m'.count n

variable {n : Nat} {m m' m'' : Memo}

theorem count_le (n : Nat) (m : Memo) : m.count n ≤ n :=
  Nat.le_trans (Finset.card_filter_le _ _) (Nat.le_of_eq (Finset.card_range n))

theorem Grows.trans (h1 : m.Grows n m') (h2 : m'.Grows n m'') : m.Grows n m'' := by
  rcases h1 with rfl | h1
  · exact h2
  · rcases h2 with rfl | h2
    · exact .inr h1
    · exact .inr (Nat.lt_trans h1 h2)

theorem mem_insert {r : Rule} {i : Nat} {c : Bool} {e : Outcome × Nat} {k : Nat} :
    k ∈ (m.insert r i c e).entries ↔ key r i c = k ∨ k ∈ m.entries := by
  simp [insert, Std.TreeMap.mem_insert]

theorem mem_of_find? {r : Rule} {i : Nat} {c : Bool} : key r i c ∈ m.entries ↔ m.find? r i c ≠ none := by
  rw [find?, Std.TreeMap.mem_iff_isSome_getElem?, Option.isSome_iff_ne_none]

theorem filter_subset_insert (n : Nat) (m : Memo) (r : Rule) (i : Nat) (c : Bool) (e : Outcome × Nat) :
    (Finset.range n).filter (· ∈ m.entries) ⊆ (Finset.range n).filter (· ∈ (m.insert r i c e).entries) := by
  intro k hk
  rw [Finset.mem_filter] at hk ⊢
  exact ⟨hk.1, mem_insert.2 (.inr hk.2)⟩

theorem count_lt_insert {r : Rule} {i : Nat} {c : Bool} (hf : m.find? r i c = none) (hk : key r i c < n)
    (e : Outcome × Nat) : m.count n < (m.insert r i c e).count n := by
  refine Finset.card_lt_card ((Finset.ssubset_iff_of_subset (filter_subset_insert n m r i c e)).2
    ⟨key r i c, ?_, fun hm => ?_⟩)
  · rw [Finset.mem_filter]
    exact ⟨Finset.mem_range.2 hk, mem_insert.2 (.inl rfl)⟩
  · exact mem_of_find?.1 (Finset.mem_filter.1 hm).2 hf

/-- What was not known is known at the end, whatever else was learned on the way. -/
theorem Grows.insert (h : m.Grows n m') {r : Rule} {i : Nat} {c : Bool} (hf : m.find? r i c = none)
    (hk : key r i c < n) (e : Outcome × Nat) : m.Grows n (m'.insert r i c e) := by
  rcases h with rfl | h
  · exact .inr (count_lt_insert hf hk e)
  · exact .inr (Nat.lt_of_lt_of_le h (Finset.card_le_card (filter_subset_insert n m' r i c e)))

end Memo

namespace Recognizer

variable {z : Recognizer}

/-- How many keys there are. -/
def keys (z : Recognizer) : Nat := Rule.count * 2 * (z.stream.size + 1)

theorem key_lt_keys (r : Rule) (pos : Nat) (c : Bool) : Memo.key r (z.stream.settle pos) c < z.keys := by
  have hs := z.stream.settle_le_size pos
  have hr := Rule.index_lt r
  have hc := c.toNat_lt
  unfold Memo.key keys Rule.count at *
  omega

/-- A step that only adds to what is known. -/
def Gathers (z : Recognizer) (step : Step) : Prop := ∀ t : Trial, t.memo.Grows z.keys (step t).2.memo

section

variable {step first second : Step}

theorem gathers_of_eq (h : ∀ t, (step t).2.memo = t.memo) : z.Gathers step := fun t => .inl (h t)

theorem gathers_optional (h : z.Gathers step) : z.Gathers (optional step) := by
  intro t
  have hs := h t
  unfold optional
  split
  · rename_i he
    rwa [he] at hs
  · exact hs

theorem gathers_andThen (h1 : z.Gathers first) (h2 : z.Gathers second) : z.Gathers (andThen first second) := by
  intro t
  have hs := h1 t
  unfold andThen
  split
  · rename_i t' he
    rw [he] at hs
    exact hs.trans (h2 t')
  · exact hs

theorem gathers_repeated (h : z.Gathers step) (n need : Nat) : z.Gathers (repeated step n need) := by
  induction n generalizing need with
  | zero => exact fun t => .inl rfl
  | succ n ih =>
    intro t
    have hs := h t
    unfold repeated
    split
    · rename_i t' he
      rw [he] at hs
      split
      · exact hs
      · exact hs.trans (ih _ t')
    · rename_i i t' he
      rw [he] at hs
      split
      · exact hs
      · exact hs
    · exact hs

theorem gathers_guarded (h : z.Gathers step) : z.Gathers (z.guarded step) := by
  intro t
  unfold guarded
  split
  · exact .inl rfl
  · exact h t

theorem gathers_token (c : Bool) (k : Kind) : z.Gathers (z.token c k) :=
  gathers_of_eq fun t => by unfold token; split <;> split <;> rfl

theorem gathers_oneOf (c : Bool) (ks : KindSet) : z.Gathers (z.oneOf c ks) :=
  gathers_of_eq fun t => by unfold oneOf; dsimp only; split <;> rfl

theorem gathers_comment : z.Gathers z.comment :=
  gathers_of_eq fun t => by unfold comment; split <;> rfl

end

section

variable {call : Bool → Rule → Step}

mutual

theorem gathers_element (hcall : ∀ c r, z.Gathers (call c r)) (c : Bool) :
    ∀ e : Element, z.Gathers (z.element call c e)
  | .token k | .relation k _ => by unfold element; exact gathers_guarded (gathers_token c k)
  | .oneOf ks => by unfold element; exact gathers_guarded (gathers_oneOf c ks)
  | .comment => by unfold element; exact gathers_guarded gathers_comment
  | .rule r | .ruleAt r _ => by unfold element; exact gathers_guarded (hcall c r)
  | .optional e => by
    unfold element; exact gathers_guarded (gathers_optional (gathers_element hcall c e))
  | .repeated e least _ => by
    unfold element; exact gathers_guarded (gathers_repeated (gathers_element hcall c e) _ least)
  | .seq es => by unfold element; exact gathers_guarded (gathers_row hcall c es)
  | .labeled _ _ e => by unfold element; exact gathers_guarded (gathers_element hcall c e)

theorem gathers_row (hcall : ∀ c r, z.Gathers (call c r)) (c : Bool) :
    ∀ es : List Element, z.Gathers (z.row call c es)
  | [] => by unfold row; exact gathers_of_eq fun t => rfl
  | e :: es => by unfold row; exact gathers_andThen (gathers_element hcall c e) (gathers_row hcall c es)

end

variable (hcall : ∀ c r, z.Gathers (call c r)) (c : Bool)
include hcall

theorem gathers_firstMatch (as : List Alternative) (far : Nat) : z.Gathers (z.firstMatch call c as far) := by
  induction as generalizing far with
  | nil => exact gathers_of_eq fun t => rfl
  | cons a as ih =>
    intro t
    have hs := gathers_row hcall c a.elements t
    unfold firstMatch
    split
    · rename_i i t' he
      rw [he] at hs
      exact hs.trans (ih _ { t' with pos := t.pos })
    · exact hs

theorem gathers_alternatives (r : Rule) : z.Gathers (z.alternatives call c r) :=
  fun t => gathers_firstMatch hcall c _ _ t

theorem gathers_operand (r node : Rule) (tier : Tier) :
    z.Gathers (if tier.form = .binary then z.alternatives call c r else call c node) := by
  split
  · exact gathers_alternatives hcall c r
  · exact hcall c node

theorem gathers_operators (r : Rule) (table : Table) (n : Nat) :
    z.Gathers (z.operators call c r table n) := by
  induction n with
  | zero => exact gathers_of_eq fun t => rfl
  | succ n ih =>
    unfold operators
    refine gathers_guarded fun t => ?_
    split
    · exact .inl rfl
    · rename_i tier node _
      exact gathers_andThen (gathers_of_eq fun t => rfl)
        (gathers_andThen (gathers_operand hcall c r node tier) ih) t

theorem gathers_body (r : Rule) : z.Gathers (z.body call c r) := by
  unfold body
  split
  · exact gathers_andThen (gathers_alternatives hcall c r) (gathers_operators hcall c r _ _)
  · exact gathers_alternatives hcall c r

end

theorem gathers_call (n : Nat) (c : Bool) (r : Rule) : z.Gathers (z.call n c r) := by
  induction n generalizing c r with
  | zero => exact gathers_of_eq fun t => rfl
  | succ n ih =>
    intro t
    unfold call
    dsimp only
    split
    · exact .inl rfl
    · exact .inl rfl
    · rename_i hf
      exact (gathers_body ih _ r t).insert hf (key_lt_keys r t.pos c) _

/-! ### Going round -/

/-- Where a loop is after so many rounds, if it is still going. -/
def after (on : Trial → Option Trial) : Nat → Trial → Option Trial
  | 0, t => some t
  | n + 1, t => (on t).bind (after on n)

section

variable {on : Trial → Option Trial} {t u v : Trial}

theorem after_add {i : Nat} (h : after on i t = some u) (j : Nat) : after on (i + j) t = after on j u := by
  induction i generalizing t with
  | zero =>
    cases h
    rw [Nat.zero_add]
  | succ i ih =>
    unfold after at h
    obtain ⟨t', ht, h⟩ := Option.bind_eq_some_iff.1 h
    rw [Nat.add_right_comm, after, ht, Option.bind_some]
    exact ih h

/-- Who gets through many rounds gets through fewer. -/
theorem after_of_le {i n : Nat} (hin : i ≤ n) (h : (after on n t).isSome) : (after on i t).isSome := by
  obtain ⟨j, rfl⟩ := Nat.exists_eq_add_of_le hin
  rcases hi : after on i t with _ | u
  · exfalso
    suffices hn : after on (i + j) t = none by rw [hn] at h; cases h
    clear h hin
    induction i generalizing t with
    | zero => cases hi
    | succ i ih =>
      rw [Nat.add_right_comm]
      unfold after at hi ⊢
      rcases ho : on t with _ | t'
      · rfl
      · rw [ho] at hi
        exact ih hi
  · rfl

/-- A loop whose rounds keep `I`, add to what is known, and are told by the place and what is known. -/
structure Loops (z : Recognizer) (I : Trial → Prop) (on : Trial → Option Trial) : Prop where
  keeps : ∀ {t u}, I t → on t = some u → I u
  inside : ∀ {t}, I t → t.pos ≤ z.stream.size
  grows : ∀ {t u}, on t = some u → t.memo.Grows z.keys u.memo
  told : ∀ {t u}, I t → I u → t.pos = u.pos → t.memo = u.memo → ∀ n,
    (after on n t).isSome → (after on n u).isSome

variable {I : Trial → Prop} (hl : z.Loops I on)
include hl

theorem Loops.after (ht : I t) {n : Nat} (h : after on n t = some u) : I u := by
  induction n generalizing t with
  | zero => exact Option.some.inj h ▸ ht
  | succ n ih =>
    unfold Recognizer.after at h
    obtain ⟨t', ho, h⟩ := Option.bind_eq_some_iff.1 h
    exact ih (hl.keeps ht ho) h

theorem Loops.grows_after {n : Nat} (h : Recognizer.after on n t = some u) : t.memo.Grows z.keys u.memo := by
  induction n generalizing t with
  | zero => exact .inl (by rw [Option.some.inj h])
  | succ n ih =>
    unfold Recognizer.after at h
    obtain ⟨t', ho, h⟩ := Option.bind_eq_some_iff.1 h
    exact (hl.grows ho).trans (ih h)

/-- In so many rounds a loop comes to one state twice. -/
theorem Loops.exists_twice (ht : I t) (h : (Recognizer.after on z.rounds t).isSome) :
    ∃ i j u v, i < j ∧ j ≤ z.rounds ∧ Recognizer.after on i t = some u ∧ Recognizer.after on j t = some v ∧
      u.pos = v.pos ∧ u.memo = v.memo := by
  have hstate : ∀ i ≤ z.rounds, ∃ u, Recognizer.after on i t = some u :=
    fun i hi => Option.isSome_iff_exists.1 (after_of_le hi h)
  have : Nonempty Trial := ⟨t⟩
  choose! state hs using hstate
  -- fewer places and sizes of the memo than rounds
  have hcard : ((Finset.range (z.stream.size + 1)) ×ˢ (Finset.range (z.keys + 1))).card <
      (Finset.range (z.rounds + 1)).card := by
    simp only [Finset.card_product, Finset.card_range]
    rw [Nat.mul_comm]
    exact Nat.lt_succ_of_le (Nat.mul_le_mul_left _ (Nat.le_succ _))
  obtain ⟨i, hi, j, hj, hne, he⟩ := Finset.exists_ne_map_eq_of_card_lt_of_maps_to hcard
    (f := fun i => ((state i).pos, (state i).memo.count z.keys)) fun i hi => by
      have hi : i ≤ z.rounds := Nat.lt_succ_iff.1 (Finset.mem_range.1 hi)
      have hpos := hl.inside (hl.after ht (hs i hi))
      have hcount := Memo.count_le z.keys (state i).memo
      simp only [Finset.coe_product, Finset.coe_range, Set.mem_prod, Set.mem_Iio]
      exact ⟨Nat.lt_succ_of_le hpos, Nat.lt_succ_of_le hcount⟩
  obtain ⟨hpos, hcount⟩ := Prod.mk.inj he
  have htwice : ∀ i j, i < j → j ≤ z.rounds → (state i).memo.count z.keys = (state j).memo.count z.keys →
      (state i).memo = (state j).memo := fun i j hij hj hc => by
    obtain ⟨k, rfl⟩ := Nat.exists_eq_add_of_lt hij
    have hrest := hs _ hj
    rw [Nat.add_assoc, after_add (hs i (by omega))] at hrest
    rcases hl.grows_after hrest with hm | hlt
    · exact hm.symm
    · rw [← Nat.add_assoc, hc] at hlt
      exact absurd hlt (Nat.lt_irrefl _)
  simp only [Finset.mem_range, Nat.lt_succ_iff] at hi hj
  rcases Nat.lt_or_gt_of_ne hne with hij | hij
  · exact ⟨i, j, state i, state j, hij, hj, hs i hi, hs j hj, hpos, htwice i j hij hj hcount⟩
  · exact ⟨j, i, state j, state i, hij, hi, hs j hj, hs i hi, hpos.symm, htwice j i hij hi hcount.symm⟩

end

/-! ### Rounds that go abreast -/

section

variable {P F : Nat → Nat → Prop} {on on' : Trial → Option Trial}

/-- Rounds that both go on, or both do not. -/
def RoundsAbreast (P F : Nat → Nat → Prop) (on on' : Trial → Option Trial) : Prop :=
  ∀ t t', t.Abreast P F t' → Option.Rel (Trial.Abreast P F) (on t) (on' t')

theorem RoundsAbreast.after (h : RoundsAbreast P F on on') (n : Nat) :
    RoundsAbreast P F (after on n) (after on' n) := by
  induction n with
  | zero => exact fun t t' ht => .some ht
  | succ n ih =>
    intro t t' ht
    have hon := h t t' ht
    unfold Recognizer.after
    generalize on t = u at hon ⊢
    generalize on' t' = u' at hon ⊢
    cases hon with
    | some hu => exact ih _ _ hu
    | none => exact .none

theorem abreast_of_eq {t u : Trial} (hpos : t.pos = u.pos) (hmemo : t.memo = u.memo) :
    t.Abreast (· = ·) (· = ·) u := by
  refine ⟨hpos, ?_⟩
  rintro i _ rfl r c
  rw [hmemo]
  rcases u.memo.find? r i c with _ | ⟨o, j⟩
  · exact .none
  · refine .some ⟨?_, rfl⟩
    cases o with
    | matched => exact .matched
    | horizon => exact .horizon
    | failed i => exact .failed rfl
    | endless => exact .endless

theorem abreast_self (z : Recognizer) : z.Abreast z (· = ·) (· = ·) where
  grammar := rfl
  same hp hq := by rw [hp, hq]
  order hi hj := by rw [hi, hj]
  settle hp := congrArg _ hp
  atEnd hp := by rw [hp]
  lookahead hp c := by rw [hp]
  limit hp := by rw [limitReached, limitReached, hp]
  skip hp _ := congrArg _ hp
  comment {t t'} hp _ := by
    rw [hp]
    cases z.stream.comment? t'.pos with
    | none => exact .none
    | some i => exact .some rfl

theorem RoundsAbreast.told (h : RoundsAbreast (· = ·) (· = ·) on on) {t u : Trial} (hpos : t.pos = u.pos)
    (hmemo : t.memo = u.memo) {n : Nat} (hn : (Recognizer.after on n t).isSome) :
    (Recognizer.after on n u).isSome := by
  have hrel := h.after n t u (abreast_of_eq hpos hmemo)
  generalize Recognizer.after on n t = v at hrel hn
  generalize Recognizer.after on n u = w at hrel ⊢
  cases hrel with
  | some _ => rfl
  | none => cases hn

/-- One of two loops that go abreast. -/
theorem RoundsAbreast.loops (h : RoundsAbreast P F on on') (hself : RoundsAbreast (· = ·) (· = ·) on on)
    (hin : ∀ {p p'}, P p p' → p ≤ z.stream.size)
    (hg : ∀ {t u}, on t = some u → t.memo.Grows z.keys u.memo) :
    z.Loops (fun t => ∃ t', t.Abreast P F t') on := by
  refine ⟨?_, fun ⟨_, ht⟩ => hin ht.pos, hg, fun _ _ hpos hmemo n => hself.told hpos hmemo⟩
  rintro t u ⟨t', ht⟩ ho
  have hrel := h t t' ht
  rw [ho] at hrel
  generalize on' t' = u' at hrel
  cases hrel with
  | some hu => exact ⟨_, hu⟩

end

/-- What goes round as `on` says. What it does at its end does not depend on the rounds that are left. -/
structure IsLoop (on : Trial → Option Trial) (loop : Nat → Nat → Step) : Prop where
  zero : ∀ need t, (loop 0 need t).1 = .endless
  again : ∀ {t u}, on t = some u → ∀ n need, loop (n + 1) need t = loop n (need - 1) u
  done : ∀ {t}, on t = none → ∀ m n need, loop (m + 1) need t = loop (n + 1) need t

section

variable {on : Trial → Option Trial} {loop : Nat → Nat → Step} (h : IsLoop on loop) {t u : Trial} {k : Nat}
include h

theorem IsLoop.add (hk : after on k t = some u) (n need : Nat) :
    loop (k + n) need t = loop n (need - k) u := by
  induction k generalizing t need with
  | zero =>
    cases hk
    rw [Nat.zero_add, Nat.sub_zero]
  | succ k ih =>
    obtain ⟨t', ho, hk⟩ := Option.bind_eq_some_iff.1 hk
    rw [Nat.add_right_comm, h.again ho, ih hk, Nat.sub_sub, Nat.add_comm 1 k]

end

/-! ### Lists -/

/-- Where a list is behind one more item. -/
def listOn (step : Step) (t : Trial) : Option Trial :=
  match step t with
  | (.matched, t') => if t'.pos = t.pos then none else some t'
  | _ => none

section

variable {step step' : Step} {t u : Trial}

theorem isLoop_repeated (step : Step) : IsLoop (listOn step) (repeated step) := by
  refine ⟨fun _ _ => rfl, fun {t u} ho n need => ?_, fun {t} ho m n need => ?_⟩
  · unfold listOn at ho
    rw [repeated]
    dsimp only
    rcases he : step t with ⟨o, v⟩
    rw [he] at ho
    cases o with
    | matched =>
      dsimp only at ho ⊢
      split at ho
      · cases ho
      · rename_i hp
        cases ho
        rw [if_neg hp]
    | horizon | failed | endless => cases ho
  · unfold listOn at ho
    rw [repeated, repeated]
    dsimp only
    rcases he : step t with ⟨o, v⟩
    rw [he] at ho
    cases o with
    | matched =>
      dsimp only at ho ⊢
      split at ho
      · rename_i hp
        rw [if_pos hp, if_pos hp]
      · cases ho
    | horizon | failed | endless => rfl

theorem roundsAbreast_listOn {z' : Recognizer} {P F : Nat → Nat → Prop} (h : z.Abreast z' P F)
    (hs : StepsAbreast P F step step') : RoundsAbreast P F (listOn step) (listOn step') := by
  intro t t' ht
  have hstep := hs t t' ht
  unfold listOn
  generalize step t = e at hstep ⊢
  generalize step' t' = e' at hstep ⊢
  cases hstep with
  | @matched u u' hu =>
    have hpos := h.same hu.pos ht.pos
    dsimp only
    by_cases hp : u.pos = t.pos
    · rw [if_pos hp, if_pos (hpos.2 hp)]
      exact .none
    · rw [if_neg hp, if_neg (mt hpos.1 hp)]
      exact .some hu
  | horizon | failed | endless => exact .none

theorem Gathers.listOn (h : z.Gathers step) (ho : listOn step t = some u) :
    t.memo.Grows z.keys u.memo := by
  have hs := h t
  unfold Recognizer.listOn at ho
  split at ho
  · rename_i he
    rw [he] at hs
    split at ho
    · cases ho
    · cases ho
      exact hs
  · cases ho

end

/-! ### Operators -/

section

variable {call call' : Bool → Rule → Step} {c : Bool} {r : Rule} {table : Table} {t u : Trial}

end

end Recognizer

end KermlText
