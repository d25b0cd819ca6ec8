import KermlText.Proofs.Choices
import KermlText.Proofs.Onsets

/-! Decisions and the recognizer. Where the recognizer finds a match that leads to a token that may follow, a
decision that sees the whole text commits to the first alternative that the recognizer matches, and enters an
element if the recognizer moves on with it. Its own trials share a memo, and may be remembered. -/

namespace KermlText

/-- A recognizer that sees the whole text, and whose grammar tells by one token what is in an annotation. -/
structure Recognizer.Guide (z : Recognizer) (keys : KindSet) (inner : Rule → Bool) : Prop where
  whole : z.horizon = z.stream.size
  eof : z.stream.eof.kind = .eof
  founded : z.grammar.Founded
  annotated : z.grammar.Annotated keys inner
  covered : z.grammar.Covered
  told : ∀ r, z.grammar.aware r = true → ∀ k, z.grammar.tells r k = true

namespace Recognizer

variable {z : Recognizer} {keys : KindSet} {inner : Rule → Bool}

/-- The lanes of a recognizer that guides. -/
def Guide.lanes (hz : z.Guide keys inner) : z.Lanes Bool := z.annotationLanes hz.eof hz.annotated

variable {c : Bool} {r : Rule} {p q i j : Nat}

section

variable {n : Attempt} {a b : Bool} (hz : z.Guide keys inner) (h : z.Finds c n p (.matched q))
  (hn : hz.lanes.Admits c n a b)
include h hn

theorem Guide.lane (hp : z.stream.Lane keys a p) : z.stream.Lane keys b q :=
  Lanes.lane_of_finds h hn hp rfl

theorem Guide.starts : n.Opens z.grammar (z.stream.lookahead p c) ∨ n.Empty z.grammar ∧ q = p :=
  h.starts hz.eof hz.annotated hz.covered hn rfl

end

/-- Where there are operators no comments are seen. -/
theorem Guide.unseen (hz : z.Guide keys inner) {t : Table} (ht : z.grammar.table? r = some t)
    (hr : c = true → inner r = true) : c = false ∧ z.grammar.aware r = false := by
  refine ⟨Bool.eq_false_iff.2 fun hc => ?_, Bool.eq_false_iff.2 fun haware => ?_⟩
  · rw [hz.annotated.table r (.inr (hr hc))] at ht
    cases ht
  · rw [hz.annotated.table r (.inl haware)] at ht
    cases ht

/-- The `i`-th alternative is the first that matches, of those that may be tried. -/
structure Found (z : Recognizer) (c : Bool) (r : Rule) (p i q : Nat) : Prop where
  mem : i ∈ z.grammar.choices r
  starts : (z.grammar.firstOfRow (Resolver.elements z.grammar r i)).contains (z.stream.lookahead p c) = true ∨
    z.grammar.rowNullable (Resolver.elements z.grammar r i) = true
  row : z.Finds c (.row (Resolver.elements z.grammar r i)) p (.matched q)
  before : ∀ j ∈ z.grammar.choices r, j < i →
    (z.grammar.firstOfRow (Resolver.elements z.grammar r j)).contains (z.stream.lookahead p c) = true ∨
      z.grammar.rowNullable (Resolver.elements z.grammar r j) = true →
    ∃ f, z.Finds c (.row (Resolver.elements z.grammar r j)) p (.failed f)

theorem Found.le {q' : Nat} (h : z.Found c r p i q) (h' : z.Found c r p j q') : i ≤ j := by
  refine Nat.not_lt.1 fun hlt => ?_
  obtain ⟨f, hf⟩ := h.before j h'.mem hlt h'.starts
  cases hf.unique h'.row

theorem Found.unique {q' : Nat} (h : z.Found c r p i q) (h' : z.Found c r p j q') : i = j :=
  Nat.le_antisymm (h.le h') (h'.le h)

theorem found_of_firstOf {as : List Alternative} {f : Alternative → Bool} {far : Nat}
    (h : z.Finds c (.firstOf (as.filter f) far) p (.matched q)) :
    ∃ (i : Nat) (a : Alternative), as[i]? = some a ∧ f a = true ∧ z.Finds c (.row a.elements) p (.matched q) ∧
      ∀ j < i, ∀ b, as[j]? = some b → f b = true → ∃ x, z.Finds c (.row b.elements) p (.failed x) := by
  induction as generalizing far with
  | nil => cases h
  | cons a as ih =>
    rcases hf : f a with _ | _
    · rw [List.filter_cons_of_neg (by simp [hf])] at h
      obtain ⟨i, b, hb, hfb, hrow, hbefore⟩ := ih h
      refine ⟨i + 1, b, hb, hfb, hrow, fun j hj d hd hfd => ?_⟩
      cases j with
      | zero =>
        obtain rfl : a = d := by simpa using hd
        rw [hf] at hfd
        cases hfd
      | succ j => exact hbefore j (Nat.lt_of_succ_lt_succ hj) d hd hfd
    · rw [List.filter_cons_of_pos hf] at h
      cases h with
      | next h1 h2 =>
        obtain ⟨i, b, hb, hfb, hrow, hbefore⟩ := ih h2
        refine ⟨i + 1, b, hb, hfb, hrow, fun j hj d hd hfd => ?_⟩
        cases j with
        | zero =>
          obtain rfl : a = d := by simpa using hd
          exact ⟨_, h1⟩
        | succ j => exact hbefore j (Nat.lt_of_succ_lt_succ hj) d hd hfd
      | found h _ => exact ⟨0, a, rfl, hf, h, fun j hj => absurd hj (Nat.not_lt_zero j)⟩

/-- Where an operand matches, one of the alternatives does. -/
theorem Finds.exists_found (h : z.Finds c (.operand r) p (.matched q)) : ∃ i, z.Found c r p i q := by
  cases h with
  | operand h =>
    have hstarts : ∀ {j : Nat} {b : Alternative}, (z.grammar.alternatives r)[j]? = some b →
        (z.startsWith (z.stream.lookahead p c) b = true ↔ b.leftRecursive = false ∧
          ((z.grammar.firstOfRow (Resolver.elements z.grammar r j)).contains (z.stream.lookahead p c) = true ∨
            z.grammar.rowNullable (Resolver.elements z.grammar r j) = true)) := fun {j b} hb => by
      rw [Resolver.elements_of_getElem? hb]
      simp [startsWith]
    obtain ⟨i, a, ha, hs, hrow, hbefore⟩ := found_of_firstOf h
    obtain ⟨hl, hs⟩ := (hstarts ha).1 hs
    refine ⟨i, Grammar.mem_choices.2 ⟨a, ha, hl⟩, hs, by rwa [Resolver.elements_of_getElem? ha],
      fun j hj hlt hs => ?_⟩
    obtain ⟨b, hb, hl⟩ := Grammar.mem_choices.1 hj
    have hfail := hbefore j hlt b hb ((hstarts hb).2 ⟨hl, hs⟩)
    rwa [← Resolver.elements_of_getElem? hb] at hfail

end Recognizer

namespace Resolver

open Recognizer

variable {z : Recognizer} {keys : KindSet} {inner : Rule → Bool}

/-- Trials see the whole stream. What is remembered is of rules that do not look for comments, and it is what the
recognizer finds wherever it may be looked up. -/
structure Commits (z : Recognizer) (keys : KindSet) (inner : Rule → Bool) (y : Resolver) : Prop where
  limit : z.stream.size ≤ y.limit
  plain : ∀ e ∈ y.cache, z.grammar.aware e.1.rule = false
  recalls : ∀ e ∈ y.cache, ∀ p i q, (e.1.comments = true → inner e.1.rule = true) →
    z.stream.Lane keys e.1.comments p → z.stream.settle p = e.1.place →
    z.Found e.1.comments e.1.rule p i q → e.1.follow.contains (z.stream.lookahead q e.1.comments) = true → e.2 = i

theorem commits_make {n : Nat} (h : z.stream.size ≤ n) (caching : Bool) : Commits z keys inner (make n caching) :=
  ⟨Nat.le_trans h (Nat.le_max_left _ _), fun e he => by simp [make] at he, fun e he => by simp [make] at he⟩

theorem Commits.sub {y y' : Resolver} (h : Commits z keys inner y) (hl : y'.limit = y.limit)
    (hc : y'.cache ⊆ y.cache) : Commits z keys inner y' :=
  ⟨hl ▸ h.limit, fun e he => h.plain e (hc he), fun e he => h.recalls e (hc he)⟩

theorem Commits.recognizer_eq {y : Resolver} (h : Commits z keys inner y) (hz : z.Guide keys inner) (pos : Nat) :
    y.recognizer z.grammar z.stream pos = z := by
  unfold recognizer
  rw [Stream.horizon_eq_size h.limit, ← hz.whole]

/-! ### Trials of alternatives -/

/-- Of alternatives that are tried in order, the first that matches in front of a token that may follow is
picked. -/
theorem tryAll_found {r : Rule} {follow : KindSet} {c : Bool} {κ : Type} (l : z.Lanes κ) {a : κ} {pos q i : Nat}
    (hp : l.lane a pos) (hi : z.Finds c (.row (elements z.grammar r i)) pos (.matched q))
    (hq : follow.contains (z.stream.lookahead q c) = true) (pre post : List Nat)
    (hrows : ∀ j ∈ pre ++ i :: post, ∃ b, inRow (l.runs c) (elements z.grammar r j) a b)
    (hpre : ∀ j ∈ pre, ∃ f, z.Finds c (.row (elements z.grammar r j)) pos (.failed f)) {memo : Memo}
    (hm : memo.Holds l.Recorded) (rank : Ranking) (cut : Bool)
    (h : (tryAll z pos r follow c (pre ++ i :: post) memo rank cut).2 = false) :
    (tryAll z pos r follow c (pre ++ i :: post) memo rank cut).1 = .ok (some i) := by
  have htrial : ∀ j ∈ pre ++ i :: post, ∀ {memo : Memo}, memo.Holds l.Recorded →
      l.Retraced c (.row (elements z.grammar r j)) (.start pos memo)
        (z.tryRow c (elements z.grammar r j) (.start pos memo)) := fun j hj memo hm => by
    obtain ⟨b, hb⟩ := hrows j hj
    exact Lanes.retraces_row (Lanes.retraces_call maxNesting) c _ a b hb (.start pos memo) fun _ => ⟨hp, hm⟩
  induction pre generalizing memo rank cut with
  | nil =>
    have hcut := uncut_of_tryAll h
    obtain ⟨he, hpos⟩ := eq_of_matched (((htrial i List.mem_cons_self hm).finds hcut).unique hi)
    rw [List.nil_append]
    unfold tryAll
    rw [he]
    simp [hpos, hq]
  | cons j pre ih =>
    have hcut := uncut_of_tryAll h
    have hj := htrial j (by simp) hm
    obtain ⟨f, hf⟩ := hpre j (by simp)
    have he := eq_of_failed ((hj.finds hcut).unique hf)
    have hknown := hj.memo hcut
    rw [List.cons_append] at h ⊢
    unfold tryAll at h ⊢
    rw [he] at h ⊢
    exact ih (fun k hk => hrows k (List.mem_cons_of_mem j hk)) (fun k hk => hpre k (List.mem_cons_of_mem j hk))
      hknown _ _ h fun k hk => htrial k (List.mem_cons_of_mem j hk)

/-! ### Decisions -/

section

variable {y y' : Resolver} {a c : Bool} {r : Rule} {follow : KindSet} {pos q i : Nat} {o : Except Failure Nat}
  (hz : z.Guide keys inner) (hy : Commits z keys inner y) (hr : a = true → inner r = true)
  (hc : c = (a || z.grammar.aware r)) (hp : z.stream.Lane keys a pos)
  (hd : y.decide z.grammar z.stream pos r (z.grammar.choices r) follow c = (o, y')) (hcut : y'.cut = false)
include hz hr hc

/-- The rows of a rule lead back to where it was called. -/
theorem inRow_of_mem_choices {j : Nat} (hj : j ∈ z.grammar.choices r) :
    inRow (hz.lanes.runs c) (elements z.grammar r j) a a := by
  obtain ⟨alt, halt, hl⟩ := Grammar.mem_choices.1 hj
  rw [elements_of_getElem? halt, hc]
  exact hz.lanes.rows ⟨rfl, hr⟩ alt (List.mem_of_getElem? halt) hl

include hy hp hd hcut

/-- A decision is for the first alternative that the recognizer matches, if that leads to a token that may follow
or if no trial is made. -/
theorem decide_found (hi : z.Found c r pos i q)
    (hq : z.grammar.aware r = true ∨ follow.contains (z.stream.lookahead q c) = true) : o = .ok i := by
  have hm := hi.mem
  have hviable : viable z.grammar (z.stream.lookahead pos c) follow (elements z.grammar r i) = true := by
    simp only [viable, Bool.or_eq_true, Bool.and_eq_true]
    rcases hz.starts hi.row (inRow_of_mem_choices hz hr hc hm) with h | ⟨h, rfl⟩
    · exact .inl h
    · refine .inr ⟨h, hq.resolve_left fun haware => ?_⟩
      obtain ⟨alt, halt, hl⟩ := Grammar.mem_choices.1 hm
      have hnull := hz.covered.nullable r alt (List.mem_of_getElem? halt) hl
        (by rwa [← elements_of_getElem? halt])
      rw [(hz.covered.aware r haware).1] at hnull
      cases hnull
  have hfilter : i ∈ (z.grammar.choices r).filter
      fun i => viable z.grammar (z.stream.lookahead pos c) follow (elements z.grammar r i) :=
    List.mem_filter.2 ⟨hm, hviable⟩
  unfold decide at hd
  split at hd
  · rename_i only ho
    rw [ho, List.mem_singleton] at hm
    cases hd
    rw [hm]
  · dsimp only at hd
    split at hd
    · rename_i j hk
      cases hd
      have hmem := mem_of_known? hk
      have hplain := hy.plain _ hmem
      dsimp only at hplain
      obtain rfl : c = a := by rw [hc, hplain, Bool.or_false]
      exact congrArg Except.ok (hy.recalls _ hmem pos i q hr hp rfl hi (hq.resolve_left (by simp [hplain])))
    · split at hd
      · rename_i hnil
        rw [hnil] at hfilter
        cases hfilter
      · rename_i j hone
        rw [hone, List.mem_singleton] at hfilter
        cases hd
        rw [hfilter]
      · rename_i first rest hne hmany
        have hplain : ¬ z.grammar.aware r = true := fun haware => by
          obtain ⟨second, others, rfl⟩ := List.exists_cons_of_ne_nil hne
          exact not_tried_of_tells (hz.told r haware _) hmany
        rw [hmany] at hfilter
        obtain ⟨pre, post, hsplit⟩ := List.append_of_mem hfilter
        have hsorted : (pre ++ i :: post).Pairwise (· < ·) := by
          rw [← hsplit, ← hmany]
          exact (z.grammar.pairwise_choices r).filter _
        have hmem : ∀ j ∈ pre ++ i :: post, j ∈ z.grammar.choices r ∧
            viable z.grammar (z.stream.lookahead pos c) follow (elements z.grammar r j) = true := fun j hj => by
          rw [← hsplit, ← hmany] at hj
          exact List.mem_filter.1 hj
        have hpre : ∀ j ∈ pre, ∃ f, z.Finds c (.row (elements z.grammar r j)) pos (.failed f) := fun j hj => by
          obtain ⟨hj', hv⟩ := hmem j (List.mem_append_left _ hj)
          simp only [viable, Bool.or_eq_true, Bool.and_eq_true] at hv
          exact hi.before j hj' ((List.pairwise_append.1 hsorted).2.2 j hj i (by simp)) (hv.imp_right And.left)
        have hfind := tryAll_found hz.lanes hp hi.row (hq.resolve_left hplain) pre post
          (fun j hj => ⟨a, inRow_of_mem_choices hz hr hc (hmem j hj).1⟩) hpre (Memo.holds_empty _) ⟨none, none⟩
          false
        rw [← hsplit] at hfind
        rw [hy.recognizer_eq hz] at hd
        rcases ht : tryAll z pos r follow c (first :: rest) .empty ⟨none, none⟩ false with ⟨x, cut⟩
        rw [ht] at hd hfind
        cases x with
        | error e =>
          cases hd
          simp only [noteCut, Bool.or_eq_false_iff] at hcut
          cases hfind hcut.2
        | ok choice =>
          cases hd
          simp only [noteCut, Bool.or_eq_false_iff] at hcut
          cases hfind hcut.2
          rfl

/-- What is decided where the recognizer stands may be remembered. -/
theorem decide_commits : Commits z keys inner y' := by
  have hfound := fun i q => decide_found hz hy hr hc hp hd hcut (i := i) (q := q)
  unfold decide at hd
  split at hd
  · cases hd
    exact hy
  · dsimp only at hd
    split at hd
    · cases hd
      exact hy.sub rfl fun _ => id
    · split at hd
      · cases hd
        exact hy
      · cases hd
        exact hy.sub rfl fun _ => id
      · rename_i first rest hne hmany
        have hforget : Commits z keys inner (y.forgetFrom (z.stream.settle pos + 1)) :=
          hy.sub rfl (List.dropWhile_sublist _).subset
        have hplain : z.grammar.aware r = false := by
          rw [Bool.eq_false_iff]
          intro haware
          obtain ⟨second, others, rfl⟩ := List.exists_cons_of_ne_nil hne
          exact not_tried_of_tells (hz.told r haware _) hmany
        obtain rfl : c = a := by rw [hc, hplain, Bool.or_false]
        rw [hy.recognizer_eq hz] at hd
        rcases ht : tryAll z pos r follow c (first :: rest) .empty ⟨none, none⟩ false with ⟨x, cut⟩
        rw [ht] at hd
        cases x with
        | error e =>
          cases hd
          exact hforget.sub rfl fun _ => id
        | ok choice =>
          cases hd
          refine Commits.sub (y := (y.forgetFrom (z.stream.settle pos + 1)).remember
            ⟨r, z.stream.settle pos, follow, c⟩ (choice.getD first)) ?_ rfl fun _ => id
          unfold remember
          split
          · refine ⟨hforget.limit, List.forall_mem_cons.2 ⟨hplain, hforget.plain⟩,
              List.forall_mem_cons.2 ⟨fun p i q _ hp' hs hi hq => ?_, hforget.recalls⟩⟩
            -- there is no other such place in front of this token
            obtain rfl := hp'.eq_of_settle hp hs
            exact Except.ok.inj (hfound i q hi (.inr hq))
          · exact hforget

end

/-! ### Whether to enter -/

theorem Commits.enter {y : Resolver} (hy : Commits z keys inner y) (pos : Nat) (e : Element) (follow : KindSet)
    (c : Bool) : Commits z keys inner (y.enter z.grammar z.stream pos e follow c).2 := by
  unfold Resolver.enter
  dsimp only
  split
  · exact hy
  · split
    · exact hy
    · split <;> exact hy.sub rfl (List.dropWhile_sublist _).subset

section

variable {y y' : Resolver} {c b : Bool} {e : Element} {follow : KindSet} {pos q : Nat}
  (hz : z.Guide keys inner) (hy : Commits z keys inner y) (he : e.Leads keys inner c c c)
  (hp : z.stream.Lane keys c pos) (hcut : y'.cut = false)
include hz he hp

theorem finds_tryElement (h : (z.tryElement c e (.start pos .empty)).2.cut = false) :
    z.Finds c (.element e) pos (verdict (z.tryElement c e (.start pos .empty))) :=
  (Lanes.retraces_element (l := hz.lanes) (Lanes.retraces_call maxNesting) c e c c he (.start pos .empty)
    fun _ => ⟨hp, Memo.holds_empty _⟩).finds h

include hy hcut

/-- An element that the recognizer matches is passed by only if the match takes nothing. -/
theorem enter_found (hd : y.enter z.grammar z.stream pos e follow c = (.ok false, y'))
    (h : z.Finds c (.element e) pos (.matched q)) : q = pos := by
  unfold enter at hd
  dsimp only at hd
  split at hd
  · rename_i hk
    rcases hz.starts h he with hf | hf
    · simp only [Attempt.Opens] at hf
      simp [hf] at hk
    · exact hf.2
  · split at hd
    · cases hd
    · have htrial := finds_tryElement hz he hp
      rw [hy.recognizer_eq hz] at hd
      rcases hr : z.tryElement c e (.start pos .empty) with ⟨o, t⟩
      rw [hr] at hd htrial
      cases o with
      | horizon => cases hd
      | endless => cases hd
      | failed i =>
        cases hd
        simp only [noteCut, Bool.or_eq_false_iff] at hcut
        cases (htrial hcut.2).unique h
      | matched =>
        obtain ⟨hb, rfl⟩ := Prod.mk.inj hd
        simp only [noteCut, Bool.or_eq_false_iff] at hcut
        obtain ⟨-, hpos⟩ := eq_of_matched ((htrial hcut.2).unique h)
        -- the trial stands in front of the same token, in the same lane
        have hlane : z.stream.Lane keys c q := hz.lane h he hp
        have hle := z.stream.settle_mono (h.forth rfl).le hlane.1
        have hstill : ¬ z.stream.settle pos < z.stream.settle t.pos := fun hlt => by simp [hlt] at hb
        rw [show t.pos = q from hpos] at hstill
        exact hlane.eq_of_settle hp (Nat.le_antisymm (Nat.not_lt.1 hstill) hle)

/-- An element that the recognizer does not match is not entered in front of a token that may follow. -/
theorem enter_lost (hd : y.enter z.grammar z.stream pos e follow c = (.ok b, y')) {f : Nat}
    (h : z.Finds c (.element e) pos (.failed f)) (hv : follow.contains (z.stream.lookahead pos c) = true) :
    b = false := by
  unfold enter at hd
  dsimp only at hd
  split at hd
  · cases hd
    rfl
  · split at hd
    · rename_i hk
      rw [hv] at hk
      cases hk
    · have htrial := finds_tryElement hz he hp
      rw [hy.recognizer_eq hz] at hd
      rcases hr : z.tryElement c e (.start pos .empty) with ⟨o, t⟩
      rw [hr] at hd htrial
      cases o with
      | failed i =>
        cases hd
        rfl
      | endless => cases hd
      | horizon | matched =>
        obtain ⟨-, rfl⟩ := Prod.mk.inj hd
        simp only [noteCut, Bool.or_eq_false_iff] at hcut
        cases (htrial hcut.2).unique h

end

end Resolver

end KermlText
