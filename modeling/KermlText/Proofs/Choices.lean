import KermlText.Proofs.Decisions
import KermlText.Proofs.Foresight

/-! Decisions and greedy readings. Where there is a greedy reading that leads to a token that may follow,
a decision that sees the whole text goes for it. -/

namespace KermlText

namespace Grammar

/-- The `i`-th alternative is the first that can be read, and greedy choices lead from `w` to `v`. -/
def Chosen (g : Grammar) (r : Rule) (i : Nat) (w v : List Kind) : Prop :=
  ∃ a, (g.alternatives r)[i]? = some a ∧ a.leftRecursive = false ∧ g.Foremost r i w ∧
    g.Greedy (.element (.seq a.elements)) w v

variable {g : Grammar} {r : Rule} {i : Nat} {w v : List Kind}

theorem Greedy.chosen (h : g.Greedy (.operand r) w v) : ∃ i, g.Chosen r i w v := by
  cases h with
  | @operand _ i a _ _ ha hl hi h => exact ⟨i, a, ha, hl, hi, h⟩

theorem Chosen.mem_choices (h : g.Chosen r i w v) : i ∈ g.choices r := by
  obtain ⟨a, ha, hl, -⟩ := h
  exact Grammar.mem_choices.2 ⟨a, ha, hl⟩

theorem Chosen.greedy (h : g.Chosen r i w v) :
    g.Greedy (.element (.seq (Resolver.elements g r i))) w v := by
  obtain ⟨a, ha, -, -, h⟩ := h
  rwa [Resolver.elements_of_getElem? ha]

/-- Choices stand in the order of the alternatives. -/
theorem pairwise_choices (g : Grammar) (r : Rule) : (g.choices r).Pairwise (· < ·) :=
  List.pairwise_lt_range.filter _

/-- None of the choices in front of the one that is taken can be read. -/
theorem Chosen.not_opens (h : g.Chosen r i w v) {j : Nat} (hj : j ∈ g.choices r) (hlt : j < i) :
    ¬ g.Opens (rowPattern (Resolver.elements g r j)) w := by
  obtain ⟨-, -, -, hi, -⟩ := h
  obtain ⟨a, ha, hl⟩ := Grammar.mem_choices.1 hj
  rw [Resolver.elements_of_getElem? ha]
  exact hi j hlt a ha hl

end Grammar

namespace Resolver

variable (g : Grammar) (s : Stream)

/-- Trials see the whole stream, and what was decided before was decided for greedy readings. -/
structure Sees (z : Resolver) : Prop where
  limit : s.size ≤ z.limit
  recalls : ∀ e ∈ z.cache, ∀ i v, g.Chosen e.1.rule i (s.ahead e.1.place) v →
    e.1.follow.contains (nextKind v) = true → e.2 = i

variable {g s}

theorem sees_make {n : Nat} (h : s.size ≤ n) (caching : Bool) : (make n caching).Sees g s :=
  ⟨Nat.le_trans h (Nat.le_max_left _ _), fun e he => by simp [make] at he⟩

theorem Sees.forgetFrom {z : Resolver} (h : z.Sees g s) (place : Nat) : (z.forgetFrom place).Sees g s :=
  ⟨h.limit, fun e he => h.recalls e (List.dropWhile_sublist _ |>.subset he)⟩

theorem Sees.noteCut {z : Resolver} (h : z.Sees g s) (cut : Bool) : (z.noteCut cut).Sees g s :=
  ⟨h.limit, h.recalls⟩

theorem Sees.remember {z : Resolver} (h : z.Sees g s) {d : Decision} {j : Nat}
    (hd : ∀ i v, g.Chosen d.rule i (s.ahead d.place) v → d.follow.contains (nextKind v) = true → j = i) :
    (z.remember d j).Sees g s := by
  unfold Resolver.remember
  split
  · refine ⟨h.limit, fun e he => ?_⟩
    rcases List.mem_cons.1 he with rfl | he
    · exact hd
    · exact h.recalls e he
  · exact h

theorem Sees.known {z : Resolver} (h : z.Sees g s) {d : Decision} {j i : Nat} {v : List Kind}
    (hk : z.known? d = some j) (hi : g.Chosen d.rule i (s.ahead d.place) v)
    (hv : d.follow.contains (nextKind v) = true) : j = i := by
  unfold known? at hk
  obtain ⟨e, he, rfl⟩ := Option.map_eq_some_iff.1 hk
  have hm := List.mem_of_find?_eq_some he
  have hd : e.1 = d := by simpa using List.find?_some he
  subst hd
  exact h.recalls e ((List.takeWhile_sublist _).subset hm) i v hi hv

/-! ### Trials of alternatives -/

theorem tryAll_cut (z : Recognizer) (pos : Nat) (r : Rule) (follow : KindSet) (c : Bool)
    (is : List Nat) (memo : Memo) (rank : Ranking) (cut : Bool) (h : cut = true) :
    (tryAll z pos r follow c is memo rank cut).2 = true := by
  induction is generalizing memo rank cut with
  | nil => exact h
  | cons i is ih =>
    unfold tryAll
    split
    · simp [h]
    · simp [h]
    · exact ih _ _ _ (by simp [h])
    · split
      · simp [h]
      · exact ih _ _ _ (by simp [h])

/-- If no trial was cut, the first of them was not. -/
theorem uncut_of_tryAll {z : Recognizer} {pos : Nat} {r : Rule} {follow : KindSet} {c : Bool} {i : Nat}
    {is : List Nat} {memo : Memo} {rank : Ranking} {cut : Bool}
    (h : (tryAll z pos r follow c (i :: is) memo rank cut).2 = false) :
    (z.tryRow c (elements z.grammar r i) (.start pos memo)).2.cut = false := by
  unfold tryAll at h
  rcases he : z.tryRow c (elements z.grammar r i) (.start pos memo) with ⟨o, t⟩
  rw [he] at h
  rcases hb : t.cut with _ | _
  · rfl
  · cases o with
    | horizon | endless => simp [hb] at h
    | failed place =>
      dsimp only at h
      rw [tryAll_cut _ _ _ _ _ _ _ _ _ (by simp [hb])] at h
      cases h
    | matched =>
      dsimp only at h
      split at h
      · simp [hb] at h
      · rw [tryAll_cut _ _ _ _ _ _ _ _ _ (by simp [hb])] at h
        cases h

/-- Of alternatives that are tried in order, the first that can be read is picked. -/
theorem tryAll_finds {z : Recognizer} (hz : z.Clear) {pos : Nat} (hp : pos ≤ z.stream.size) {r : Rule}
    {follow : KindSet} {c : Bool} {i : Nat} {v : List Kind}
    (hi : z.grammar.Greedy (.element (.seq (elements z.grammar r i))) (z.stream.ahead pos) v)
    (hv : follow.contains (nextKind v) = true) (pre post : List Nat)
    (hpre : ∀ j ∈ pre, ¬ z.grammar.Opens (rowPattern (elements z.grammar r j)) (z.stream.ahead pos))
    (memo : Memo) (hk : memo.Holds z.Known) (ht : memo.Holds z.Told) (rank : Ranking) (cut : Bool)
    (h : (tryAll z pos r follow c (pre ++ i :: post) memo rank cut).2 = false) :
    (tryAll z pos r follow c (pre ++ i :: post) memo rank cut).1 = .ok (some i) := by
  have hcall := fun c r => Recognizer.sure_call hz.eof hz.founded Recognizer.maxNesting c r
  have htells := fun c r => Recognizer.foresees_call hz Recognizer.maxNesting c r
  induction pre generalizing memo rank cut with
  | nil =>
    have hcut := uncut_of_tryAll h
    have hf := Recognizer.foresees_row hz hcall htells c (elements z.grammar r i)
      (allFounded_elements hz.founded r i) (.start pos memo) hp hk fun _ => ht
    rw [← Recognizer.tryRow] at hf
    rw [List.nil_append]
    unfold tryAll
    rcases he : z.tryRow c (elements z.grammar r i) (.start pos memo) with ⟨o, t⟩
    rw [he] at hf hcut
    obtain ⟨rfl, hend⟩ := hf.finds hcut v hi
    simp only at hend
    simp [hz.silent.lookahead hz.eof, hend, hv]
  | cons j pre ih =>
    have hcut := uncut_of_tryAll h
    have hfounded := allFounded_elements hz.founded r j
    have hl := Recognizer.sure_row hz.eof hcall c (elements z.grammar r j) hfounded (.start pos memo) hp hk
    have hf := Recognizer.foresees_row hz hcall htells c (elements z.grammar r j) hfounded
      (.start pos memo) hp hk fun _ => ht
    rw [← Recognizer.tryRow] at hl hf
    rw [List.cons_append] at h ⊢
    unfold tryAll at h ⊢
    rcases he : z.tryRow c (elements z.grammar r j) (.start pos memo) with ⟨o, t⟩
    rw [he] at hl hf h hcut
    cases o with
    | horizon => exact absurd rfl (hf.horizon hcut)
    | endless => exact absurd rfl hl.ends
    | matched => exact absurd ⟨_, hf.sound hcut rfl⟩ (hpre j (by simp))
    | failed place =>
      exact ih (fun k hk => hpre k (List.mem_cons_of_mem _ hk)) t.memo hl.known (hf.told hcut) _ _ h

/-! ### Decisions -/

variable {z : Resolver} (hs : s.eof.kind = .eof) (hg : g.Founded) (hc : g.Closed) (hq : s.Silent)

include hs hg hc hq in
theorem clear_recognizer (hz : z.Sees g s) (pos : Nat) : (z.recognizer g s pos).Clear :=
  ⟨hs, hg, hc, hq, Stream.horizon_eq_size hz.limit pos⟩

include hs hg hc hq in
/-- A decision goes for the greedy reading, if that leads to a token that may follow. -/
theorem decide_finds (hz : z.Sees g s) {pos : Nat} (hp : pos ≤ s.size) {r : Rule} {follow : KindSet}
    {c : Bool} {o : Except Failure Nat} {y : Resolver}
    (hd : z.decide g s pos r (g.choices r) follow c = (o, y)) (hcut : y.cut = false) {i : Nat}
    {v : List Kind} (hi : g.Chosen r i (s.ahead pos) v) (hv : follow.contains (nextKind v) = true) :
    o = .ok i := by
  have hm := hi.mem_choices
  have hviable : viable g (s.lookahead pos c) follow (elements g r i) = true := by
    rw [hq.lookahead hs]
    simp only [viable, Bool.or_eq_true, Bool.and_eq_true]
    rcases Grammar.Spans.row_starts hc hi.greedy.spans with h | ⟨h, he⟩
    · exact .inl h
    · exact .inr ⟨h, he ▸ hv⟩
  have hfilter : i ∈ (g.choices r).filter
      fun i => viable g (s.lookahead pos c) follow (elements g r i) := List.mem_filter.2 ⟨hm, hviable⟩
  unfold decide at hd
  split at hd
  · rename_i only ho
    rw [ho, List.mem_singleton] at hm
    cases hd
    rw [hm]
  · dsimp only at hd
    split at hd
    · rename_i j hk
      cases hd
      rw [hz.known hk (by simpa using hi) hv]
    · split at hd
      · rename_i hnil
        rw [hnil] at hfilter
        cases hfilter
      · rename_i j hone
        rw [hone, List.mem_singleton] at hfilter
        cases hd
        rw [hfilter]
      · rename_i first rest hne hmany
        rw [hmany] at hfilter
        obtain ⟨pre, post, hsplit⟩ := List.append_of_mem hfilter
        have hsorted : (pre ++ i :: post).Pairwise (· < ·) := by
          rw [← hsplit, ← hmany]
          exact (g.pairwise_choices r).filter _
        have hpre : ∀ j ∈ pre, ¬ g.Opens (rowPattern (elements g r j)) (s.ahead pos) := fun j hj => by
          have hlt := (List.pairwise_append.1 hsorted).2.2 j hj i (by simp)
          have hmem : j ∈ first :: rest := by simp [hsplit, hj]
          rw [← hmany] at hmem
          exact hi.not_opens (List.mem_filter.1 hmem).1 hlt
        have hfind := tryAll_finds (clear_recognizer hs hg hc hq hz pos) hp hi.greedy hv pre post hpre
          .empty (Memo.holds_empty _) (Memo.holds_empty _) ⟨none, none⟩ false (c := c) (r := r)
        rw [← hsplit] at hfind
        rcases ht : tryAll (z.recognizer g s pos) pos r follow c (first :: rest) .empty ⟨none, none⟩
          false with ⟨q, cut⟩
        rw [ht] at hd hfind
        cases q with
        | error e =>
          cases hd
          simp only [noteCut, Bool.or_eq_false_iff] at hcut
          cases hfind hcut.2
        | ok choice =>
          cases hd
          simp only [noteCut, Bool.or_eq_false_iff] at hcut
          cases hfind hcut.2
          rfl

include hs hg hc hq in
theorem decide_sees (hz : z.Sees g s) {pos : Nat} (hp : pos ≤ s.size) {r : Rule} {follow : KindSet}
    {c : Bool} {o : Except Failure Nat} {y : Resolver}
    (hd : z.decide g s pos r (g.choices r) follow c = (o, y)) (hcut : y.cut = false) : y.Sees g s := by
  have hfinds := fun i v => decide_finds hs hg hc hq hz hp hd hcut (i := i) (v := v)
  unfold decide at hd
  split at hd
  · cases hd
    exact hz
  · dsimp only at hd
    split at hd
    · cases hd
      exact ⟨hz.limit, hz.recalls⟩
    · split at hd
      · cases hd
        exact hz
      · cases hd
        exact ⟨hz.limit, hz.recalls⟩
      · rename_i first rest hne hmany
        rcases ht : tryAll (z.recognizer g s pos) pos r follow c (first :: rest) .empty ⟨none, none⟩
          false with ⟨q, cut⟩
        rw [ht] at hd
        cases q with
        | error e =>
          cases hd
          exact (hz.forgetFrom _).noteCut _
        | ok choice =>
          cases hd
          have hr := (hz.forgetFrom (s.settle pos + 1)).remember
            (d := ⟨r, s.settle pos, follow, c⟩) (j := choice.getD first) fun i v hi hv => by
              rw [Stream.ahead_settle] at hi
              cases hfinds i v hi hv
              rfl
          exact ⟨hr.limit, hr.recalls⟩

/-! ### Whether to enter -/

theorem Sees.enter (hz : z.Sees g s) (pos : Nat) (e : Element) (follow : KindSet) (c : Bool) :
    (z.enter g s pos e follow c).2.Sees g s := by
  unfold Resolver.enter
  dsimp only
  split
  · exact hz
  · split
    · exact hz
    · split <;> exact (hz.forgetFrom _).noteCut _

section

variable {pos : Nat} {e : Element} {follow : KindSet} {c b : Bool} {y : Resolver}

include hs hg hc hq in
/-- What a trial of an element tells. -/
theorem tells_tryElement (hz : z.Sees g s) (hp : pos ≤ s.size) (he : e.founded g.solid = true)
    (c : Bool) :
    (z.recognizer g s pos).Tells e.pattern (g.Greedy (.element e)) (.start pos .empty)
      ((z.recognizer g s pos).tryElement c e (.start pos .empty)) :=
  have hy := clear_recognizer hs hg hc hq hz pos
  Recognizer.foresees_element hy
    (fun c r => Recognizer.sure_call hs hg Recognizer.maxNesting c r)
    (fun c r => Recognizer.foresees_call hy Recognizer.maxNesting c r) c e he (.start pos .empty) hp
    (Memo.holds_empty _) fun _ => Memo.holds_empty _

include hs hg hc hq in
/-- An element that is read greedily is passed by only if it takes nothing. -/
theorem enter_finds (hz : z.Sees g s) (hp : pos ≤ s.size) (he : e.founded g.solid = true)
    (hd : z.enter g s pos e follow c = (.ok false, y)) (hcut : y.cut = false) {v : List Kind}
    (h : g.Greedy (.element e) (s.ahead pos) v) : s.ahead pos = v := by
  have ht := tells_tryElement hs hg hc hq hz hp he c
  unfold enter at hd
  dsimp only at hd
  split at hd
  · rename_i hk
    rw [hq.lookahead hs, Bool.not_eq_true'] at hk
    rcases Grammar.Spans.element_starts hc h.spans with hf | hf
    · rw [hk] at hf
      cases hf
    · exact hf.2
  · split at hd
    · cases hd
    · rcases hr : (z.recognizer g s pos).tryElement c e (.start pos .empty) with ⟨o, t⟩
      have hl := Recognizer.sure_element (z := z.recognizer g s pos) hs
        (fun c r => Recognizer.sure_call hs hg Recognizer.maxNesting c r) c e he (.start pos .empty) hp
        (Memo.holds_empty _)
      rw [← Recognizer.tryElement, hr] at hl
      rw [hr] at hd ht
      cases o with
      | horizon => cases hd
      | endless => cases hd
      | failed i =>
        cases hd
        simp only [noteCut, Bool.or_eq_false_iff] at hcut
        cases (ht.finds hcut.2 v h).1
      | matched =>
        obtain ⟨hb, rfl⟩ := Prod.mk.inj hd
        simp only [noteCut, Bool.or_eq_false_iff] at hcut
        obtain ⟨-, hend⟩ := ht.finds hcut.2 v h
        -- the match did not move on, so nothing lay in what it read
        have hle : s.settle pos ≤ s.settle t.pos := hl.le rfl
        have hstill : ¬ s.settle pos < s.settle t.pos := fun hlt => by simp [hlt] at hb
        have heq : s.settle pos = s.settle t.pos := by omega
        rw [← Stream.ahead_settle, heq, Stream.ahead_settle]
        exact hend

include hs hg hc hq in
/-- An element that cannot be read is not entered in front of a token that may follow. -/
theorem enter_skips (hz : z.Sees g s) (hp : pos ≤ s.size) (he : e.founded g.solid = true)
    (hd : z.enter g s pos e follow c = (.ok b, y)) (hcut : y.cut = false)
    (h : ¬ g.Opens e.pattern (s.ahead pos)) (hv : follow.contains (nextKind (s.ahead pos)) = true) :
    b = false := by
  have ht := tells_tryElement hs hg hc hq hz hp he c
  unfold enter at hd
  dsimp only at hd
  split at hd
  · cases hd
    rfl
  · split at hd
    · rename_i hk
      rw [hq.lookahead hs, hv] at hk
      cases hk
    · rcases hr : (z.recognizer g s pos).tryElement c e (.start pos .empty) with ⟨o, t⟩
      rw [hr] at hd ht
      cases o with
      | horizon =>
        obtain ⟨-, rfl⟩ := Prod.mk.inj hd
        simp only [noteCut, Bool.or_eq_false_iff] at hcut
        exact absurd rfl (ht.horizon hcut.2)
      | endless => cases hd
      | failed i =>
        cases hd
        rfl
      | matched =>
        obtain ⟨-, rfl⟩ := Prod.mk.inj hd
        simp only [noteCut, Bool.or_eq_false_iff] at hcut
        exact absurd ⟨_, ht.sound hcut.2 rfl⟩ h

end

end Resolver

end KermlText
