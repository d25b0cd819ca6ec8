import KermlText.Proofs.Trials
import KermlText.Resolver

/-! A decision always comes to an answer: an alternative that the rule has, or that none fits. The
cache gives back only what was decided before, so it is enough that it starts empty. -/

namespace KermlText

namespace Grammar

variable {g : Grammar}

theorem mem_choices {r : Rule} {i : Nat} :
    i ∈ g.choices r ↔ ∃ a, (g.alternatives r)[i]? = some a ∧ a.leftRecursive = false := by
  simp only [choices, Definition.choices, List.mem_filter, List.mem_range, Option.any_eq_true,
    Bool.not_eq_true', alternatives]
  constructor
  · exact fun h => h.2
  · rintro ⟨a, ha, hl⟩
    exact ⟨(List.getElem?_eq_some_iff.1 ha).1, a, ha, hl⟩

end Grammar

namespace Resolver

variable {g : Grammar} {s : Stream}

theorem elements_of_getElem? {r : Rule} {i : Nat} {a : Alternative}
    (h : (g.alternatives r)[i]? = some a) : elements g r i = a.elements := by
  simp [elements, h]

theorem allFounded_elements (hg : g.Founded) (r : Rule) (i : Nat) :
    allFounded g.solid (elements g r i) = true := by
  unfold elements
  split
  · rename_i a ha; exact hg.rows r a (List.mem_of_getElem? ha)
  · rfl

/-- Each remembered choice is one that the rule has. -/
def Valid (g : Grammar) (z : Resolver) : Prop :=
  ∀ e ∈ z.cache, e.2 ∈ g.choices e.1.rule

theorem valid_make (limit : Nat) (caching : Bool) : (make limit caching).Valid g := by
  intro e he
  simp [make] at he

theorem Valid.forgetFrom {z : Resolver} (h : z.Valid g) (place : Nat) :
    (z.forgetFrom place).Valid g :=
  fun e he => h e (List.dropWhile_sublist _ |>.subset he)

theorem Valid.remember {z : Resolver} (h : z.Valid g) {d : Decision} {i : Nat}
    (hi : i ∈ g.choices d.rule) : (z.remember d i).Valid g := by
  unfold Resolver.remember
  split
  · intro e he
    rcases List.mem_cons.1 he with rfl | he
    · exact hi
    · exact h e he
  · exact h

theorem mem_of_known? {z : Resolver} {d : Decision} {i : Nat} (hk : z.known? d = some i) :
    (d, i) ∈ z.cache := by
  unfold known? at hk
  obtain ⟨e, he, rfl⟩ := Option.map_eq_some_iff.1 hk
  have hm := List.mem_of_find?_eq_some he
  have hd : e.1 = d := by simpa using List.find?_some he
  exact hd ▸ (List.takeWhile_sublist _).subset hm

theorem Valid.known {z : Resolver} (h : z.Valid g) {d : Decision} {i : Nat}
    (hk : z.known? d = some i) : i ∈ g.choices d.rule :=
  h _ (mem_of_known? hk)

/-! ### Trials of alternatives -/

/-- What the trials have shown concerns alternatives in `is` only. -/
def Ranking.Within (is : List Nat) (rank : Ranking) : Prop :=
  (∀ i, rank.completed = some i → i ∈ is) ∧ ∀ p, rank.farthest = some p → p.1 ∈ is

theorem Ranking.Within.matched {is : List Nat} {rank : Ranking} (h : rank.Within is) {i : Nat}
    (hi : i ∈ is) : (rank.matched i).Within is := by
  refine ⟨fun j hj => ?_, h.2⟩
  simp only [Ranking.matched, Option.some.injEq] at hj
  subst hj
  rcases hc : rank.completed with _ | k
  · exact hi
  · exact h.1 k hc

theorem Ranking.Within.failed {is : List Nat} {rank : Ranking} (h : rank.Within is) {i place : Nat}
    (hi : i ∈ is) : (rank.failed i place).Within is := by
  unfold Ranking.failed
  split
  · split
    · exact ⟨h.1, fun p hp => by cases hp; exact hi⟩
    · exact h
  · exact ⟨h.1, fun p hp => by cases hp; exact hi⟩

theorem Ranking.Within.choice {is : List Nat} {rank : Ranking} (h : rank.Within is) {i : Nat}
    (hc : rank.choice? = some i) : i ∈ is := by
  unfold Ranking.choice? at hc
  rcases hk : rank.completed with _ | k
  · rw [hk] at hc
    obtain ⟨p, hp, rfl⟩ := Option.map_eq_some_iff.1 hc
    exact h.2 p hp
  · rw [hk] at hc
    exact h.1 i (hk.trans hc)

/-- Trials of alternatives come to an answer, and pick one of those that were tried. -/
theorem tryAll_ok {z : Recognizer} (hs : z.stream.eof.kind = .eof) (hg : z.grammar.Founded)
    {pos : Nat} (hp : pos ≤ z.stream.size) (r : Rule) (follow : KindSet) (c : Bool) {all : List Nat}
    (is : List Nat) (hi : ∀ i ∈ is, i ∈ all) (memo : Memo) (hm : memo.Holds z.Known)
    (rank : Ranking) (hr : rank.Within all) (cut : Bool) :
    ∃ o cut', tryAll z pos r follow c is memo rank cut = (.ok o, cut') ∧
      ∀ i, o = some i → i ∈ all := by
  induction is generalizing memo rank cut with
  | nil => exact ⟨_, _, rfl, fun i => hr.choice⟩
  | cons i is ih =>
    have hall : i ∈ all := hi i (by simp)
    have hrest : ∀ j ∈ is, j ∈ all := fun j hj => hi j (List.mem_cons_of_mem _ hj)
    have hl := Recognizer.sure_row hs (fun c r => Recognizer.sure_call hs hg Recognizer.maxNesting c r)
      c (elements z.grammar r i) (allFounded_elements hg r i) (.start pos memo) hp hm
    unfold tryAll
    rcases he : z.tryRow c (elements z.grammar r i) (.start pos memo) with ⟨o, t⟩
    rw [Recognizer.tryRow] at he
    rw [he] at hl
    cases o with
    | horizon => exact ⟨_, _, rfl, fun j hj => by cases hj; exact hall⟩
    | endless => exact absurd rfl hl.ends
    | failed place => exact ih hrest t.memo hl.known _ (hr.failed hall) _
    | matched =>
      dsimp only
      split
      · exact ⟨_, _, rfl, fun j hj => by cases hj; exact hall⟩
      · exact ih hrest t.memo hl.known _ (hr.matched hall) _

/-! ### Decisions -/

/-- What a decision about the alternatives of `r` may answer. -/
def Answers (g : Grammar) (r : Rule) : Except Failure Nat → Prop
  | .ok i => i ∈ g.choices r
  | .error f => ∃ q p offset expected k, f = .noAlternative q p offset expected k

/-- A decision answers with an alternative of the rule, or that none fits here. -/
theorem decide_answers (hs : s.eof.kind = .eof) (hg : g.Founded) {z : Resolver} (hz : z.Valid g)
    {pos : Nat} (hp : pos ≤ s.size) (r : Rule) (follow : KindSet) (c : Bool) :
    Answers g r (z.decide g s pos r (g.choices r) follow c).1 ∧
      (z.decide g s pos r (g.choices r) follow c).2.Valid g := by
  unfold decide
  split
  · rename_i only ho
    exact ⟨by simp [Answers, ho], hz⟩
  · dsimp only
    split
    · rename_i i hk
      exact ⟨hz.known hk, hz⟩
    · split
      · exact ⟨⟨_, _, _, _, _, rfl⟩, hz⟩
      · rename_i i hv
        have hi : i ∈ (g.choices r).filter
          fun i => viable g (s.lookahead pos c) follow (elements g r i) := by rw [hv]; simp
        exact ⟨(List.mem_filter.1 hi).1, hz⟩
      · rename_i first rest hne hv
        have hall : ∀ i ∈ first :: rest, i ∈ g.choices r := by
          rw [← hv]; exact fun i hi => (List.mem_filter.1 hi).1
        obtain ⟨o, cut, ho, hc⟩ := tryAll_ok (z := z.recognizer g s pos) hs hg hp r follow c
          (first :: rest) hall .empty (Memo.holds_empty _) ⟨none, none⟩
          ⟨by simp, by simp⟩ false
        rw [ho]
        have hi : o.getD first ∈ g.choices r := by
          rcases o with _ | i
          · exact hall first (by simp)
          · exact hc i rfl
        exact ⟨hi, (hz.forgetFrom _).remember hi⟩

theorem enter_valid {z : Resolver} (hz : z.Valid g) (pos : Nat) (e : Element) (follow : KindSet)
    (c : Bool) : (z.enter g s pos e follow c).2.Valid g := by
  unfold enter
  dsimp only
  split
  · exact hz
  · split
    · exact hz
    · split <;> exact hz.forgetFrom _

/-- Whether to enter an element is always answered. -/
theorem enter_answers (hs : s.eof.kind = .eof) (hg : g.Founded) (z : Resolver)
    {pos : Nat} (hp : pos ≤ s.size) {e : Element} (he : e.founded g.solid = true) (follow : KindSet)
    (c : Bool) : ∃ b, (z.enter g s pos e follow c).1 = .ok b := by
  unfold enter
  dsimp only
  split
  · exact ⟨_, rfl⟩
  · split
    · exact ⟨_, rfl⟩
    · have hl := Recognizer.sure_element (z := z.recognizer g s pos) hs
        (fun c r => Recognizer.sure_call hs hg Recognizer.maxNesting c r) c e he
        (.start pos .empty) hp (Memo.holds_empty _)
      rw [← Recognizer.tryElement] at hl
      split
      · exact ⟨_, rfl⟩
      · exact ⟨_, rfl⟩
      · exact ⟨_, rfl⟩
      · rename_i t ht
        rw [ht] at hl
        exact absurd rfl hl.ends

/-- No decision takes back that a trial was cut. -/
theorem decide_cut {z : Resolver} {pos : Nat} {r : Rule} {candidates : List Nat} {follow : KindSet} {c : Bool}
    (h : z.cut = true) : (z.decide g s pos r candidates follow c).2.cut = true := by
  have hr : ∀ d i, ((z.forgetFrom (s.settle pos + 1)).remember d i).cut = true := fun d i => by
    unfold remember
    split <;> exact h
  unfold decide
  split
  · exact h
  · dsimp only
    split
    · exact h
    · split
      · exact h
      · exact h
      · split
        · simp [noteCut, forgetFrom, h]
        · simp [noteCut, countSpeculated, hr]

theorem enter_cut {z : Resolver} {pos : Nat} {e : Element} {follow : KindSet} {c : Bool} (h : z.cut = true) :
    (z.enter g s pos e follow c).2.cut = true := by
  unfold enter
  dsimp only
  split
  · exact h
  · split
    · exact h
    · split <;> simp [noteCut, forgetFrom, h]

end Resolver

end KermlText
