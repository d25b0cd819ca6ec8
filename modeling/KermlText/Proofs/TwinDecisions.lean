import KermlText.Proofs.Decisions
import KermlText.Proofs.Twins

/-! Decisions on a stream and on what is left of it come to the same answers. What is remembered is
remembered of settled places, and those are told apart on both streams. -/

namespace KermlText

theorem Stream.settle_horizon (s : Stream) (pos n : Nat) :
    s.settle (s.horizon pos n) = s.horizon pos n := by
  suffices hop : ∀ i j, s.settle i = i → s.hop n i = some j → s.settle j = j by
    unfold horizon ahead?
    rcases hj : s.hop n (s.settle pos) with _ | j
    · exact s.settle_size
    · exact hop _ j (s.settle_settle pos) hj
  induction n with
  | zero =>
    intro i j hi hj
    cases hj
    exact hi
  | succ n ih =>
    intro i j hi hj
    unfold hop at hj
    split at hj
    · cases hj
    · exact ih _ j (s.settle_settle _) hj

/-- The decision at the place of the other stream. -/
def Decision.moved (f : Nat → Nat) (d : Decision) : Decision := { d with place := f d.place }

namespace Resolver

/-- Rows that are not looked into for comments, unless all comments are still there. -/
def Unaware (g : Grammar) (s : Stream) (keep : Nat → Prop) (r : Rule) (i : Nat) : Prop :=
  s.Sees keep ∨ allUnaware g.aware (elements g r i) = true

/-- What is remembered is the same, at the places of either stream. -/
structure Twins (g : Grammar) (s : Stream) (keep : Nat → Prop) (f : Nat → Nat) (z z' : Resolver) :
    Prop where
  limit : z'.limit = z.limit
  caching : z'.caching = z.caching
  cache : z'.cache = z.cache.map fun e => (e.1.moved f, e.2)
  settled : ∀ e ∈ z.cache, s.settle e.1.place = e.1.place
  unaware : ∀ e ∈ z.cache, Unaware g s keep e.1.rule e.2

/-- Two answers in step. Where no alternative fits, the places may differ. -/
inductive Alike : Except Failure Nat → Except Failure Nat → Prop
  | ok (i : Nat) : Alike (.ok i) (.ok i)
  | none {r : Rule} {p p' : Position} {o o' : Nat} {expected : KindSet} {k : Kind} :
    Alike (.error (.noAlternative r p o expected k)) (.error (.noAlternative r p' o' expected k))

variable {g : Grammar} {s s' : Stream} {keep : Nat → Prop} {f : Nat → Nat} {z z' : Resolver}

theorem twins_make (limit : Nat) (caching : Bool) :
    (make limit caching).Twins g s keep f (make limit caching) :=
  ⟨rfl, rfl, rfl, by simp [make], by simp [make]⟩

namespace Twins

theorem forgetFrom (hz : z.Twins g s keep f z') {place place' : Nat}
    (hp : ∀ i, s.settle i = i → (place' ≤ f i ↔ place ≤ i)) :
    (z.forgetFrom place).Twins g s keep f (z'.forgetFrom place') := by
  -- entries are told apart by their places, whatever is on top of them
  have hdrop : ∀ cache : List (Decision × Nat), (∀ e ∈ cache, s.settle e.1.place = e.1.place) →
      (cache.map fun e => (e.1.moved f, e.2)).dropWhile (fun e => place' ≤ e.1.place) =
        (cache.dropWhile fun e => place ≤ e.1.place).map fun e => (e.1.moved f, e.2) := by
    intro cache hs
    induction cache with
    | nil => rfl
    | cons e cache ih =>
      have he := hp _ (hs e List.mem_cons_self)
      simp only [List.map_cons, List.dropWhile_cons, Decision.moved, he]
      split
      · exact ih fun e he => hs e (List.mem_cons_of_mem _ he)
      · rfl
  have hsub : ∀ e ∈ (z.forgetFrom place).cache, e ∈ z.cache :=
    fun e he => (List.dropWhile_sublist _).subset he
  refine ⟨hz.limit, hz.caching, ?_, fun e he => hz.settled e (hsub e he),
    fun e he => hz.unaware e (hsub e he)⟩
  unfold Resolver.forgetFrom
  rw [hz.cache]
  exact hdrop z.cache hz.settled

theorem remember (hz : z.Twins g s keep f z') {d : Decision} (hd : s.settle d.place = d.place) {i : Nat}
    (hi : Unaware g s keep d.rule i) :
    (z.remember d i).Twins g s keep f (z'.remember (d.moved f) i) := by
  unfold Resolver.remember
  by_cases hcaching : z.caching = true
  · rw [if_pos hcaching, if_pos (hz.caching.trans hcaching)]
    refine ⟨hz.limit, hz.caching, ?_, fun e he => ?_, fun e he => ?_⟩
    · rw [hz.cache, List.map_cons]
    · rcases List.mem_cons.1 he with rfl | he
      · exact hd
      · exact hz.settled e he
    · rcases List.mem_cons.1 he with rfl | he
      · exact hi
      · exact hz.unaware e he
  · rw [if_neg hcaching, if_neg (hz.caching ▸ hcaching)]
    exact hz

/-- Statistics and the mark of a cut trial are not compared. -/
theorem stats (hz : z.Twins g s keep f z') (a b : Stats) (c d : Bool) :
    Twins g s keep f { z with stats := a, cut := c } { z' with stats := b, cut := d } :=
  ⟨hz.limit, hz.caching, hz.cache, hz.settled, hz.unaware⟩

theorem known? (hz : z.Twins g s keep f z') (h : s.Thins s' keep f) {d : Decision}
    (hd : s.settle d.place = d.place) : z'.known? (d.moved f) = z.known? d := by
  have hmoved : ∀ e : Decision × Nat, s.settle e.1.place = e.1.place →
      (e.1.moved f = d.moved f ↔ e.1 = d) := by
    rintro ⟨⟨r, p, ks, c⟩, i⟩ he
    obtain ⟨r', p', ks', c'⟩ := d
    simp only [Decision.moved, Decision.mk.injEq, h.eq_iff_of_settled he hd]
  have hfind : ∀ cache : List (Decision × Nat), (∀ e ∈ cache, s.settle e.1.place = e.1.place) →
      (((cache.map fun e => (e.1.moved f, e.2)).takeWhile fun e => f d.place ≤ e.1.place).find?
        fun e => e.1 = d.moved f).map (·.2) =
        ((cache.takeWhile fun e => d.place ≤ e.1.place).find? fun e => e.1 = d).map (·.2) := by
    intro cache hs
    induction cache with
    | nil => rfl
    | cons e cache ih =>
      have he := hs e List.mem_cons_self
      have hle : f d.place ≤ f e.1.place ↔ d.place ≤ e.1.place := by
        have := h.lt_iff_of_settled he hd
        omega
      have ih := ih fun e he => hs e (List.mem_cons_of_mem _ he)
      rw [List.map_cons, List.takeWhile_cons, List.takeWhile_cons]
      by_cases hp : d.place ≤ e.1.place
      · rw [if_pos (by simpa [Decision.moved, hle] using hp), if_pos (by simpa using hp), List.find?_cons,
          List.find?_cons]
        by_cases hed : e.1 = d
        · simp [hed]
        · simp only [hmoved e he, hed, decide_false]
          exact ih
      · rw [if_neg (by simpa [Decision.moved, hle] using hp), if_neg (by simpa using hp)]
        rfl
  unfold Resolver.known?
  rw [hz.cache]
  exact hfind z.cache hz.settled

end Twins

/-! ### Trials of alternatives -/

namespace Ranking

structure Twins (s : Stream) (f : Nat → Nat) (rank rank' : Ranking) : Prop where
  completed : rank'.completed = rank.completed
  farthest : rank'.farthest = rank.farthest.map fun p => (p.1, f p.2)
  settled : ∀ p, rank.farthest = some p → s.settle p.2 = p.2

variable {rank rank' : Ranking} (hr : rank.Twins s f rank')
include hr

theorem Twins.matched (i : Nat) : (rank.matched i).Twins s f (rank'.matched i) :=
  ⟨by simp only [Ranking.matched, hr.completed], hr.farthest, hr.settled⟩

theorem Twins.failed (h : s.Thins s' keep f) (i : Nat) {place : Nat} (hp : s.settle place = place) :
    (rank.failed i place).Twins s f (rank'.failed i (f place)) := by
  unfold Ranking.failed
  rw [hr.farthest]
  rcases hf : rank.farthest with _ | ⟨j, best⟩
  · exact ⟨hr.completed, rfl, fun p he => by cases he; exact hp⟩
  · have hlt := h.lt_iff_of_settled (hr.settled _ hf) hp
    dsimp only [Option.map_some]
    by_cases hb : best < place
    · rw [if_pos hb, if_pos (hlt.2 hb)]
      exact ⟨hr.completed, rfl, fun p he => by cases he; exact hp⟩
    · rw [if_neg hb, if_neg (mt hlt.1 hb)]
      exact hr

theorem Twins.choice? : rank'.choice? = rank.choice? := by
  unfold Ranking.choice?
  rw [hr.completed, hr.farthest]
  cases rank.farthest <;> rfl

end Ranking

section

variable {y y' : Recognizer} (h : y.Twins y' keep f) {keys : KindSet} (hg : y.grammar.Aside keys)
  (hk : y.stream.Sees keep ∨ ∀ i ≤ y.stream.size, keys.contains (y.stream.kind i) = false)
include h hg hk

/-- Trials in order pick the same alternative, if they end. -/
theorem twins_tryAll {pos : Nat} (hp : y.stream.Stop keep pos) (r : Rule) (follow : KindSet) {c : Bool}
    (hc : c = true → y.stream.Sees keep) (is : List Nat)
    (hi : ∀ i ∈ is, Unaware y.grammar y.stream keep r i) {m m' : Memo}
    (hm : m.Twins y.stream keep f m') {rank rank' : Ranking} (hr : rank.Twins y.stream f rank')
    (cut cut' : Bool) :
    (tryAll y pos r follow c is m rank cut).1 = .error .endless ∨
      (tryAll y' (f pos) r follow c is m' rank' cut').1 = .error .endless ∨
      (tryAll y' (f pos) r follow c is m' rank' cut').1 = (tryAll y pos r follow c is m rank cut).1 := by
  induction is generalizing m m' rank rank' cut cut' with
  | nil =>
    unfold tryAll
    exact .inr (.inr (congrArg Except.ok hr.choice?))
  | cons i is ih =>
    have hrest : ∀ j ∈ is, Unaware y.grammar y.stream keep r j :=
      fun j hj => hi j (List.mem_cons_of_mem _ hj)
    have hrow := Recognizer.twins_row h
      (fun c r => Recognizer.twins_call h hg hk Recognizer.maxNesting c r) hc _ (hi i List.mem_cons_self)
      (.start pos m) (.start (f pos) m') ⟨rfl, hp, hm, rfl⟩
    unfold tryAll Recognizer.tryRow
    rw [h.grammar]
    generalize y.row (y.call Recognizer.maxNesting) c (elements y.grammar r i) (.start pos m) = e at hrow ⊢
    generalize y'.row (y'.call Recognizer.maxNesting) c (elements y.grammar r i) (.start (f pos) m') = e'
      at hrow ⊢
    cases hrow with
    | matched ht =>
      dsimp only
      rw [Recognizer.limitReached_twins h ht, Recognizer.lookahead_twins h hc ht]
      split
      · exact .inr (.inr rfl)
      · exact ih hrest ht.memo (hr.matched i) _ _
    | horizon ht => exact .inr (.inr rfl)
    | failed hp ht => exact ih hrest ht.memo (hr.failed h.stream i hp) _ _
    | endless => exact .inl rfl
    | endless' => exact .inr (.inl rfl)

end

/-! ### Decisions in step -/

section

variable (h : s.Thins s' keep f) {keys : KindSet} (hg : g.Aside keys)
  (hk : s.Sees keep ∨ ∀ i ≤ s.size, keys.contains (s.kind i) = false)
  (hz : z.Twins g s keep f z') {pos : Nat} (hp : s.Stop keep pos) (follow : KindSet) {c : Bool}
  (hc : c = true → s.Sees keep)
include h hz hp

theorem twins_recognizer : (z.recognizer g s pos).Twins (z'.recognizer g s' (f pos)) keep f where
  grammar := rfl
  stream := h
  horizon := by rw [recognizer, recognizer, hz.limit]; exact h.horizon hp.le_size _
  settled := s.settle_horizon pos z.limit

theorem twins_forgetFrom :
    (z.forgetFrom (s.settle pos + 1)).Twins g s keep f (z'.forgetFrom (s'.settle (f pos) + 1)) := by
  refine hz.forgetFrom fun i hi => ?_
  rw [h.settle hp.le_size]
  exact h.lt_iff_of_settled (s.settle_settle pos) hi

include hg hk hc

omit h hz in
/-- Where comments are missing, what may begin here does not look for them. -/
theorem unaware_of_viable {r : Rule} (hr : s.Sees keep ∨ g.aware r = false) {i : Nat}
    (hi : i ∈ g.choices r) (hv : viable g (s.lookahead pos c) follow (elements g r i) = true) :
    Unaware g s keep r i := by
  by_cases hs : s.Sees keep
  · exact .inl hs
  · obtain ⟨a, ha, -⟩ := Grammar.mem_choices.1 hi
    simp only [viable, elements_of_getElem? ha, Bool.or_eq_true, Bool.and_eq_true] at hv
    rw [Stream.lookahead_eq_kind_of_not_sees hc hs] at hv
    exact .inr (elements_of_getElem? ha ▸ hg.unaware (hr.resolve_left hs) (List.mem_of_getElem? ha)
      (hk.resolve_left hs pos hp.le_size) (hv.imp_right And.left))

theorem twins_decide (hfounded : g.Founded) {r : Rule} (hr : s.Sees keep ∨ g.aware r = false) :
    let d := z.decide g s pos r (g.choices r) follow c
    let d' := z'.decide g s' (f pos) r (g.choices r) follow c
    Alike d.1 d'.1 ∧ d.2.Twins g s keep f d'.2 ∧ ∀ i, d.1 = .ok i → Unaware g s keep r i := by
  have hfilter : ∀ i ∈ (g.choices r).filter fun i => viable g (s.lookahead pos c) follow (elements g r i),
      Unaware g s keep r i := fun i hi =>
    have hi := List.mem_filter.1 hi
    unaware_of_viable hg hk hp follow hc hr hi.1 hi.2
  dsimp only
  unfold decide
  split
  · rename_i only ho
    refine ⟨.ok only, hz, fun i hi => ?_⟩
    cases hi
    refine hr.imp_right fun hr => ?_
    obtain ⟨a, ha, -⟩ := Grammar.mem_choices.1 (ho ▸ List.mem_singleton_self only)
    rw [elements_of_getElem? ha]
    exact (hg.rows r hr a (List.mem_of_getElem? ha)).resolve_right fun hn => hn.1 (by simp [ho])
  · have hknown := hz.known? h (d := ⟨r, s.settle pos, follow, c⟩) (s.settle_settle pos)
    rw [Decision.moved] at hknown
    dsimp only at hknown ⊢
    rw [h.settle hp.le_size, hknown, h.lookahead hc hp.le_size]
    split
    · rename_i i hi
      refine ⟨.ok i, hz.stats _ _ _ _, fun j hj => ?_⟩
      cases hj
      exact hz.unaware _ (mem_of_known? hi)
    · split
      · exact ⟨.none, hz, nofun⟩
      · rename_i i hv
        refine ⟨.ok i, hz.stats _ _ _ _, fun j hj => ?_⟩
        cases hj
        exact hfilter i (by rw [hv]; exact List.mem_singleton_self i)
      · rename_i first rest hne hv
        rw [hv] at hfilter
        have hrank : Ranking.Twins s f ⟨none, none⟩ ⟨none, none⟩ := ⟨rfl, rfl, nofun⟩
        have htry := twins_tryAll (twins_recognizer h hz hp) hg hk hp r follow hc (first :: rest) hfilter
          (Memo.twins_empty s keep f) hrank false false
        obtain ⟨o, cut, ho, hin⟩ := tryAll_ok (z := z.recognizer g s pos) h.eof hfounded hp.le_size
          r follow c (first :: rest) (fun _ hi => hi) .empty (Memo.holds_empty _) ⟨none, none⟩
          ⟨by simp, by simp⟩ false
        obtain ⟨o', cut', ho', -⟩ := tryAll_ok (z := z'.recognizer g s' (f pos)) h.eof' hfounded
          (h.le_size hp.le_size) r follow c (first :: rest) (fun _ hi => hi) .empty (Memo.holds_empty _)
          ⟨none, none⟩ ⟨by simp, by simp⟩ false
        rw [ho, ho'] at htry
        simp only [reduceCtorEq, false_or, Except.ok.injEq] at htry
        subst htry
        have hi : Unaware g s keep r (o'.getD first) := by
          rcases o' with _ | i
          · exact hfilter first List.mem_cons_self
          · exact hfilter i (hin i rfl)
        have hforget := twins_forgetFrom h hz hp
        rw [h.settle hp.le_size] at hforget
        rw [ho, ho']
        refine ⟨.ok _, (hforget.remember (d := ⟨r, s.settle pos, follow, c⟩) (s.settle_settle pos) hi).stats
          _ _ _ _, fun j hj => ?_⟩
        cases hj
        exact hi

/-- Whether to enter an element is answered in the same way, if it is. -/
theorem twins_enter {e : Element} (he : s.Sees keep ∨ e.unaware g.aware = true) :
    let d := z.enter g s pos e follow c
    let d' := z'.enter g s' (f pos) e follow c
    d.1 = .error .endless ∨ d'.1 = .error .endless ∨
      ∃ b, d.1 = .ok b ∧ d'.1 = .ok b ∧ d.2.Twins g s keep f d'.2 := by
  have hy := twins_recognizer (g := g) h hz hp
  have hforget := twins_forgetFrom h hz hp
  have htry := Recognizer.twins_element hy
    (fun c r => Recognizer.twins_call hy hg hk Recognizer.maxNesting c r) hc e he
    (.start pos .empty) (.start (f pos) .empty) ⟨rfl, hp, Memo.twins_empty s keep f, rfl⟩
  dsimp only
  unfold enter
  dsimp only
  rw [h.lookahead hc hp.le_size]
  split
  · exact .inr (.inr ⟨_, rfl, rfl, hz⟩)
  · split
    · exact .inr (.inr ⟨_, rfl, rfl, hz⟩)
    · unfold Recognizer.tryElement
      generalize (z.recognizer g s pos).element _ c e (.start pos .empty) = o at htry ⊢
      generalize (z'.recognizer g s' (f pos)).element _ c e (.start (f pos) .empty) = o' at htry ⊢
      cases htry with
      | @matched t t' ht =>
        have hlt := h.lt_iff_of_settled (s.settle_settle pos) (s.settle_settle t.pos)
        dsimp only
        refine .inr (.inr ⟨_, rfl, ?_, hforget.stats _ _ _ _⟩)
        rw [ht.pos, h.settle hp.le_size, h.settle ht.stop.le_size, ht.took]
        simp only [hlt]
      | horizon ht => exact .inr (.inr ⟨_, rfl, rfl, hforget.stats _ _ _ _⟩)
      | failed _ ht => exact .inr (.inr ⟨_, rfl, rfl, hforget.stats _ _ _ _⟩)
      | endless => exact .inl rfl
      | endless' => exact .inr (.inl rfl)

end

end Resolver

end KermlText
