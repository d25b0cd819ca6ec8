import KermlText.Proofs.Heads
import KermlText.Proofs.Termination

/-! Trials that come forward. A match never leads in front of its first token, and if neither a comment nor the
end may stand at its front it leads behind it. What a step does without leaving a token, and without learning
anything, is told by the places in front of that token, and where there is one comment at most there are only two
of them: a step that goes on from the first does not go back from the second. -/

namespace KermlText

/-! ### Places in front of a token -/

namespace Stream

variable {s : Stream} {pos p q i : Nat}

/-- From `pos` on, no two comments stand in front of one token. -/
def Calm (s : Stream) (pos : Nat) : Prop := ∀ p, pos ≤ p → s.commentsBefore p ≤ 1

theorem LeftAt.inside (h : s.LeftAt pos p) (hp : pos ≤ s.size) : p ≤ s.size := by
  rcases h with rfl | ⟨k, -, hk, -, rfl⟩
  · exact hp
  · exact hk

theorem LeftAt.comment (h : s.LeftAt pos p) (hi : s.comment? p = some i) : s.LeftAt pos (i + 1) := by
  obtain ⟨hpi, hlt, hch⟩ := s.comment?_some hi
  exact .inr ⟨i, Nat.le_trans h.le hpi, Nat.lt_of_lt_of_le hlt (s.settle_le_size p), by simp [hch], rfl⟩

/-- Of two places in front of a token the first is left with a comment to come, and the second with none. -/
theorem Calm.eq_or_eq (hc : s.Calm pos) (hp : s.LeftAt pos p) (hq : s.LeftAt pos q) (hlt : p < q)
    (hs : s.settle q = s.settle p) {w : Nat} (hw : s.LeftAt pos w) (hsw : s.settle w = s.settle p) :
    w = p ∨ w = q := by
  have hless := hq.commentsBefore_lt hp.le hlt hs
  have hone := hc p hp.le
  have hone' := hc w hw.le
  rcases (show s.commentsBefore w = s.commentsBefore p ∨ s.commentsBefore w = s.commentsBefore q by omega) with h | h
  · exact .inl (hp.eq_of_commentsBefore hw hsw h).symm
  · exact .inr (hq.eq_of_commentsBefore hw (hsw.trans hs.symm) h).symm

/-- Behind the only comment in front of a token there is none. -/
theorem Calm.comment? (hc : s.Calm pos) (hp : s.LeftAt pos p) (hq : s.LeftAt pos q) (hin : pos ≤ s.size)
    (hlt : p < q) (hs : s.settle q = s.settle p) : s.comment? q = none := by
  have hless := hq.commentsBefore_lt hp.le hlt hs
  have hone := hc p hp.le
  have hcount := commentsBefore_eq (hq.inside hin)
  rcases hi : s.comment? q with _ | i
  · rfl
  · rw [hi, Option.elim_some] at hcount
    omega

end Stream

theorem Memo.Grows.antisymm {n : Nat} {m m' : Memo} (h : m.Grows n m') (h' : m'.Grows n m) : m' = m := by
  rcases h with h | h
  · exact h
  · rcases h' with h' | h'
    · exact h'.symm
    · omega

/-! ### Elements that take a token -/

namespace Grammar

/-- Whether a match that begins so takes a token: it is not empty, and neither the end nor a comment may stand at
its front. -/
def leads (first : KindSet) (nullable : Bool) : Bool :=
  !nullable && !first.contains .eof && !first.contains .blockComment

def consumes (g : Grammar) (e : Element) : Bool := leads (g.firstOf e) (g.isNullable e)

def rowConsumes (g : Grammar) (es : List Element) : Bool := leads (g.firstOfRow es) (g.rowNullable es)

section

variable {first first' : KindSet} {nullable nullable' : Bool}

theorem leads_iff : leads first nullable = true ↔
    nullable = false ∧ first.contains .eof = false ∧ first.contains .blockComment = false := by
  simp [leads, and_assoc]

theorem leads_of_leads (hfirst : ∀ k, first'.contains k = true → first.contains k = true)
    (hnull : nullable' = true → nullable = true) (h : leads first nullable = true) :
    leads first' nullable' = true := by
  obtain ⟨hn, he, hb⟩ := leads_iff.1 h
  have hnot {k : Kind} (hk : first.contains k = false) : first'.contains k = false :=
    Bool.eq_false_iff.2 fun h => Bool.eq_false_iff.1 hk (hfirst k h)
  exact leads_iff.2 ⟨Bool.eq_false_iff.2 fun h => Bool.eq_false_iff.1 hn (hnull h), hnot he, hnot hb⟩

end

variable {g : Grammar} {e : Element} {es : List Element}

theorem consumes_of_rowConsumes (h : g.rowConsumes (e :: es) = true) :
    g.consumes e = true ∨ g.rowConsumes es = true := by
  obtain ⟨hn, -, -⟩ := leads_iff.1 h
  rw [rowNullable_cons, Bool.and_eq_false_iff] at hn
  cases he : g.isNullable e with
  | false =>
    refine .inl (leads_of_leads (fun k hk => ?_) (fun hnull => ?_) h)
    · rw [firstOfRow_cons, hk, Bool.true_or]
    · rw [he] at hnull
      cases hnull
  | true =>
    refine .inr (leads_of_leads (fun k hk => ?_) (fun hnull => ?_) h)
    · rw [firstOfRow_cons, he, hk, Bool.true_and, Bool.or_true]
    · exact absurd hnull (Bool.eq_false_iff.1 (hn.resolve_left (by simp [he])))

theorem consumes_repeated {least : Nat} {resync : Bool} (h : g.consumes (.repeated e least resync) = true) :
    (least != 0 && g.consumes e) = true := by
  obtain ⟨hn, hrest⟩ := leads_iff.1 h
  rw [isNullable, Element.isNullable, Bool.or_eq_false_iff] at hn
  rw [Bool.and_eq_true, bne_iff_ne]
  exact ⟨beq_eq_false_iff_ne.1 hn.1, leads_iff.2 ⟨hn.2, hrest⟩⟩

theorem Saturated.rowConsumes (hg : g.Saturated) {r : Rule} {a : Alternative} (ha : a ∈ g.alternatives r)
    (h : g.consumes (.rule r) = true) : g.rowConsumes a.elements = true :=
  leads_of_leads (hg.first ha) (hg.nullable ha) h

end Grammar

namespace Recognizer

/-! ### Steps that come forward -/

section

variable (z : Recognizer) (pos : Nat)

/-- A known match stands where a trial from `pos` may, not in front of its first token, and behind that token if
the rule takes one. -/
def Attains (r : Rule) (i : Nat) (_ : Bool) (o : Outcome) (j : Nat) : Prop :=
  o ≠ .endless ∧ (o = .matched → z.stream.LeftAt pos j ∧ i ≤ z.stream.settle j ∧
    (z.grammar.consumes (.rule r) = true → i < z.stream.settle j))

structure Poised (t : Trial) : Prop where
  left : z.stream.LeftAt pos t.pos
  memo : t.memo.Holds (z.Attains pos)

/-- How a step from `t` may end. If it is `strict`, a match takes a token. -/
structure Arrives (strict : Bool) (t : Trial) (e : Outcome × Trial) : Prop where
  poised : z.Poised pos e.2
  ends : e.1 ≠ .endless
  le : e.1 = .matched → z.stream.settle t.pos ≤ z.stream.settle e.2.pos
  lt : e.1 = .matched → strict = true → z.stream.settle t.pos < z.stream.settle e.2.pos

def Comes (strict : Bool) (step : Step) : Prop := ∀ t, z.Poised pos t → z.Arrives pos strict t (step t)

end

variable {z : Recognizer} {pos : Nat}

section

variable {strict strict' : Bool} {t : Trial} {step first second : Step}

theorem Arrives.imp {e : Outcome × Trial} (h : z.Arrives pos strict t e) (hs : strict' = true → strict = true) :
    z.Arrives pos strict' t e :=
  ⟨h.poised, h.ends, h.le, fun ho hs' => h.lt ho (hs hs')⟩

theorem Comes.imp (h : z.Comes pos strict step) (hs : strict' = true → strict = true) : z.Comes pos strict' step :=
  fun t ht => (h t ht).imp hs

theorem Poised.fails (ht : z.Poised pos t) (i : Nat) {t' : Trial} : z.Arrives pos strict t' (.failed i, t) :=
  ⟨ht, by simp, by simp, by simp⟩

theorem Poised.limits (ht : z.Poised pos t) {t' : Trial} : z.Arrives pos strict t' (.horizon, t) :=
  ⟨ht, by simp, by simp, by simp⟩

theorem Poised.stays (ht : z.Poised pos t) : z.Arrives pos false t (.matched, t) :=
  ⟨ht, by simp, fun _ => Nat.le_refl _, by simp⟩

theorem Poised.takes (ht : z.Poised pos t) (h : strict = true → z.stream.atEnd t.pos = false) :
    z.Arrives pos strict t (z.take t) := by
  refine ⟨⟨ht.left.skip, ht.memo⟩, nofun, fun _ => ?_, fun _ hs => ?_⟩
  · rcases he : z.stream.atEnd t.pos with _ | _
    · simpa [take, Stream.skip, Stream.next?_of_not_atEnd _ he] using Nat.le_of_lt (z.stream.lt_settle_succ he)
    · simp [take, Stream.skip, Stream.next?_of_atEnd _ he]
  · simpa [take, Stream.skip, Stream.next?_of_not_atEnd _ (h hs)] using z.stream.lt_settle_succ (h hs)

theorem comes_guarded (h : z.Comes pos strict step) : z.Comes pos strict (z.guarded step) := by
  intro t ht
  unfold guarded
  split
  · exact ht.limits
  · exact h t ht

theorem comes_optional (h : z.Comes pos strict step) : z.Comes pos false (optional step) := by
  intro t ht
  have hs := h t ht
  unfold optional
  generalize step t = e at hs ⊢
  obtain ⟨_ | _ | i | _, t'⟩ := e
  · exact hs.imp nofun
  · exact hs.imp nofun
  · exact ⟨⟨ht.left, hs.poised.memo⟩, nofun, fun _ => Nat.le_refl _, nofun⟩
  · exact hs.imp nofun

theorem comes_andThen (h1 : z.Comes pos strict first) (h2 : z.Comes pos strict' second) :
    z.Comes pos (strict || strict') (andThen first second) := by
  intro t ht
  have hf := h1 t ht
  unfold andThen
  generalize first t = e at hf ⊢
  obtain ⟨_ | _ | i | _, t'⟩ := e
  · have hs := h2 t' hf.poised
    refine ⟨hs.poised, hs.ends, fun ho => Nat.le_trans (hf.le rfl) (hs.le ho), fun ho hst => ?_⟩
    rcases Bool.or_eq_true _ _ ▸ hst with hst | hst
    · exact Nat.lt_of_lt_of_le (hf.lt rfl hst) (hs.le ho)
    · exact Nat.lt_of_le_of_lt (hf.le rfl) (hs.lt ho hst)
  · exact hf.poised.limits
  · exact hf.poised.fails i
  · exact absurd rfl hf.ends

/-- However a list ends, unless it uses up its rounds. -/
theorem Comes.arrives_repeated (h : z.Comes pos strict step) (n need : Nat) (ht : z.Poised pos t)
    (he : (repeated step n need t).1 ≠ .endless) :
    z.Arrives pos (need != 0 && strict) t (repeated step n need t) := by
  induction n generalizing need t with
  | zero => exact absurd rfl he
  | succ n ih =>
    have hs := h t ht
    unfold repeated at he ⊢
    generalize step t = e at hs he ⊢
    obtain ⟨_ | _ | i | _, t'⟩ := e
    · dsimp only at he ⊢
      split
      · exact hs.imp fun hst => (Bool.and_eq_true _ _ ▸ hst).2
      · rename_i hp
        rw [if_neg hp] at he
        have hrest := ih (need - 1) hs.poised he
        refine ⟨hrest.poised, hrest.ends, fun ho => Nat.le_trans (hs.le rfl) (hrest.le ho), fun ho hst => ?_⟩
        exact Nat.lt_of_lt_of_le (hs.lt rfl (Bool.and_eq_true _ _ ▸ hst).2) (hrest.le ho)
    · exact hs.poised.limits
    · dsimp only
      split
      · exact hs.poised.fails i
      · rename_i hneed
        have hzero : need = 0 := by omega
        refine ⟨⟨ht.left, hs.poised.memo⟩, by simp, fun _ => Nat.le_refl _, fun _ hst => ?_⟩
        simp [hzero] at hst
    · exact absurd rfl hs.ends

theorem comes_token (heof : z.stream.eof.kind = .eof) (c : Bool) (k : Kind) :
    z.Comes pos (z.grammar.consumes (.token k)) (z.token c k) := by
  have hkind : z.grammar.consumes (.token k) = true → k ≠ .eof ∧ k ≠ .blockComment := fun hm => by
    obtain ⟨-, he, hb⟩ := Grammar.leads_iff.1 hm
    simp only [Grammar.firstOf, Element.firstKinds, KindSet.contains_single] at he hb
    exact ⟨fun h => by simp [h] at he, fun h => by simp [h] at hb⟩
  intro t ht
  unfold token
  split
  · rename_i hk
    split
    · exact ht.stays.imp fun hm => absurd hk (hkind hm).1
    · exact ht.fails _
  · split
    · rename_i hl
      refine ht.takes fun hm => Stream.not_atEnd_of_lookahead heof (c := c) ?_ ?_
      · exact hl ▸ (hkind hm).1
      · exact hl ▸ (hkind hm).2
    · exact ht.fails _

theorem comes_oneOf (heof : z.stream.eof.kind = .eof) (c : Bool) (ks : KindSet) : z.Comes pos true (z.oneOf c ks) := by
  intro t ht
  unfold oneOf
  dsimp only
  split
  · rename_i hk
    simp only [Bool.and_eq_true, bne_iff_ne, ne_eq] at hk
    exact ht.takes fun _ => Stream.not_atEnd_of_lookahead heof (c := c) hk.1.1 hk.1.2
  · exact ht.fails _

theorem comes_comment (hp : pos ≤ z.stream.size) : z.Comes pos false z.comment := by
  intro t ht
  unfold comment
  split
  · rename_i i hi
    have hleft := ht.left.comment hi
    obtain ⟨hle, -, -⟩ := z.stream.comment?_some hi
    exact ⟨⟨hleft, ht.memo⟩, nofun, fun _ => z.stream.settle_mono (Nat.le_succ_of_le hle) (hleft.inside hp), nofun⟩
  · exact ht.fails _

end

/-! ### Steps in front of one token -/

section

variable (z : Recognizer) (pos : Nat)

/-- The second trial is not in front of the first, and it knows as much or more. -/
structure Onward (t u : Trial) : Prop where
  le : z.stream.settle t.pos ≤ z.stream.settle u.pos
  grows : t.memo.Grows z.keys u.memo

/-- The second trial is in front of the same token, and knows the same. -/
structure Abides (t u : Trial) : Prop where
  settle : z.stream.settle u.pos = z.stream.settle t.pos
  memo : u.memo = t.memo

/-- From two places in front of one token, a step never leads to two that stand the other way round. -/
def Ordered (step : Step) : Prop := ∀ ⦃t u t' u'⦄, z.Poised pos t → z.Poised pos u → z.Abides t u → t.pos < u.pos →
  step t = (.matched, t') → step u = (.matched, u') → z.Abides t t' → z.Abides u u' → t'.pos ≤ u'.pos

/-- A step in front of one token never leads back. -/
def Rising (step : Step) : Prop := ∀ ⦃t t'⦄, z.Poised pos t → step t = (.matched, t') → z.Abides t t' → t.pos ≤ t'.pos

/-- What is known of a step in a trial from `pos`. A `strict` step takes a token, and a `steady` one is rising. -/
structure Fit (strict steady : Bool) (step : Step) : Prop where
  comes : z.Comes pos strict step
  ordered : z.stream.Calm pos → z.Ordered pos step
  rising : steady = true → z.Rising pos step
  gathers : z.Gathers step
  told : StepsAbreast (· = ·) (· = ·) step step

end

section

variable {t u v : Trial} {step first second : Step} {strict strict' steady steady' : Bool}

theorem Abides.symm (h : z.Abides t u) : z.Abides u t := ⟨h.settle.symm, h.memo.symm⟩

theorem Abides.trans (h1 : z.Abides t u) (h2 : z.Abides u v) : z.Abides t v :=
  ⟨h2.settle.trans h1.settle, h2.memo.trans h1.memo⟩

theorem Onward.refl (z : Recognizer) (t : Trial) : z.Onward t t := ⟨Nat.le_refl _, .inl rfl⟩

theorem Onward.trans (h1 : z.Onward t u) (h2 : z.Onward u v) : z.Onward t v :=
  ⟨Nat.le_trans h1.le h2.le, h1.grows.trans h2.grows⟩

/-- What is on the way between two trials in front of one token is there too. -/
theorem Abides.between (h : z.Abides t v) (h1 : z.Onward t u) (h2 : z.Onward u v) :
    z.Abides t u ∧ z.Abides u v := by
  have hsettle : z.stream.settle u.pos = z.stream.settle t.pos :=
    Nat.le_antisymm (h.settle ▸ h2.le) h1.le
  have hmemo : u.memo = t.memo := h1.grows.antisymm (h.memo ▸ h2.grows)
  exact ⟨⟨hsettle, hmemo⟩, ⟨h.settle.trans hsettle.symm, h.memo.trans hmemo.symm⟩⟩

theorem Comes.onward (h : z.Comes pos strict step) (hg : z.Gathers step) (ht : z.Poised pos t)
    (he : step t = (.matched, u)) : z.Poised pos u ∧ z.Onward t u := by
  have hs := h t ht
  have hgt := hg t
  rw [he] at hs hgt
  exact ⟨hs.poised, hs.le rfl, hgt⟩

/-- A step that takes a token does not stay in front of it. -/
theorem Comes.not_abides (h : z.Comes pos true step) (ht : z.Poised pos t) (he : step t = (.matched, u)) :
    ¬z.Abides t u := by
  intro ha
  have hs := h t ht
  rw [he] at hs
  exact Nat.ne_of_gt (hs.lt rfl rfl) ha.settle

theorem eq_pos_of_told (h : StepsAbreast (· = ·) (· = ·) step step) {t' u' : Trial} (hpos : t.pos = u.pos)
    (hmemo : t.memo = u.memo) (ht : step t = (.matched, t')) (hu : step u = (.matched, u')) : t'.pos = u'.pos := by
  have hrel := h t u (abreast_of_eq hpos hmemo)
  rw [ht, hu] at hrel
  cases hrel with
  | matched hw => exact hw.pos

theorem of_guarded_matched (h : z.guarded step t = (.matched, u)) : step t = (.matched, u) := by
  unfold guarded at h
  split at h
  · cases h
  · exact h

theorem of_andThen_matched (h : andThen first second t = (.matched, v)) :
    ∃ u, first t = (.matched, u) ∧ second u = (.matched, v) := by
  unfold andThen at h
  split at h
  · rename_i u he
    exact ⟨u, he, h⟩
  · rename_i hne
    exact absurd h (hne v)

/-- What an optional step matched, it matched before or it stayed. -/
theorem of_optional_matched (h : optional step t = (.matched, u)) : step t = (.matched, u) ∨ u.pos = t.pos := by
  unfold optional at h
  split at h
  · cases h
    exact .inr rfl
  · exact .inl h

theorem Fit.guarded (h : z.Fit pos strict steady step) : z.Fit pos strict steady (z.guarded step) where
  comes := comes_guarded h.comes
  ordered hc _ _ _ _ ht hu hab hlt het heu :=
    h.ordered hc ht hu hab hlt (of_guarded_matched het) (of_guarded_matched heu)
  rising hs _ _ ht het := h.rising hs ht (of_guarded_matched het)
  gathers := gathers_guarded h.gathers
  told := h.told.guarded (abreast_self z)

/-- A step that stays where it is, or takes a token. -/
theorem Fit.of_still (hcomes : z.Comes pos strict step) (hgathers : z.Gathers step)
    (htold : StepsAbreast (· = ·) (· = ·) step step)
    (h : ∀ {t u}, step t = (.matched, u) → z.Abides t u → u.pos = t.pos) : z.Fit pos strict steady step where
  comes := hcomes
  ordered _ _ _ _ _ _ _ _ hlt het heu ht' hu' := by
    rw [h het ht', h heu hu']
    exact Nat.le_of_lt hlt
  rising _ _ _ _ het ht' := Nat.le_of_eq (h het ht').symm
  gathers := hgathers
  told := htold

theorem Fit.optional (h : z.Fit pos strict steady step) : z.Fit pos false steady (optional step) where
  comes := comes_optional h.comes
  ordered hc t u t' u' ht hu hab hlt het heu ht' hu' := by
    have hin : z.Poised pos t' ∧ z.Poised pos u' :=
      ⟨(comes_optional h.comes).onward (gathers_optional h.gathers) ht het |>.1,
        (comes_optional h.comes).onward (gathers_optional h.gathers) hu heu |>.1⟩
    rcases of_optional_matched het with het | hback
    · rcases of_optional_matched heu with heu | hback
      · exact h.ordered hc ht hu hab hlt het heu ht' hu'
      · -- the second trial stayed where it was, and there is no place behind that
        rcases hc.eq_or_eq ht.left hu.left hlt hab.settle hin.1.left ht'.settle with hw | hw <;> omega
    · rcases hc.eq_or_eq ht.left hu.left hlt hab.settle hin.2.left (hu'.settle.trans hab.settle) with hw | hw <;> omega
  rising hs t t' ht het ht' := by
    rcases of_optional_matched het with het | hback
    · exact h.rising hs ht het ht'
    · exact Nat.le_of_eq hback.symm
  gathers := gathers_optional h.gathers
  told := abreast_optional h.told

theorem Fit.andThen (h1 : z.Fit pos strict steady first) (h2 : z.Fit pos strict' steady' second) :
    z.Fit pos (strict || strict') (steady && steady') (andThen first second) where
  comes := comes_andThen h1.comes h2.comes
  ordered hc t u t' u' ht hu hab hlt het heu ht' hu' := by
    obtain ⟨v, hv, hv'⟩ := of_andThen_matched het
    obtain ⟨w, hw, hw'⟩ := of_andThen_matched heu
    obtain ⟨hvp, hvo⟩ := h1.comes.onward h1.gathers ht hv
    obtain ⟨hwp, hwo⟩ := h1.comes.onward h1.gathers hu hw
    obtain ⟨hav, hav'⟩ := ht'.between hvo (h2.comes.onward h2.gathers hvp hv').2
    obtain ⟨haw, haw'⟩ := hu'.between hwo (h2.comes.onward h2.gathers hwp hw').2
    have hvw : z.Abides v w := hav.symm.trans (hab.trans haw)
    rcases Nat.eq_or_lt_of_le (h1.ordered hc ht hu hab hlt hv hw hav haw) with heq | hlt'
    · exact Nat.le_of_eq (eq_pos_of_told h2.told heq hvw.memo.symm hv' hw')
    · exact h2.ordered hc hvp hwp hvw hlt' hv' hw' hav' haw'
  rising hs t t' ht het ht' := by
    obtain ⟨hs1, hs2⟩ := Bool.and_eq_true _ _ ▸ hs
    obtain ⟨v, hv, hv'⟩ := of_andThen_matched het
    obtain ⟨hvp, hvo⟩ := h1.comes.onward h1.gathers ht hv
    obtain ⟨hav, hav'⟩ := ht'.between hvo (h2.comes.onward h2.gathers hvp hv').2
    exact Nat.le_trans (h1.rising hs1 ht hv hav) (h2.rising hs2 hvp hv' hav')
  gathers := gathers_andThen h1.gathers h2.gathers
  told := abreast_andThen h1.told h2.told

end

end Recognizer

end KermlText
