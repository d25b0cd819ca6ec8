import KermlText.Proofs.Paths
import KermlText.Proofs.Sites

/-! Standing still. A task that has to take a token, and ends where it began, has reported that the token is
missing, unless it could not report anything. So whoever called it need not report it again: nothing that is
reported about it becomes an error. -/

namespace KermlText

/-- The task takes a token if nothing is wrong. -/
def Task.Takes (g : Grammar) : Task → Prop
  | .element e _ => e.takes g.solid = true
  | .row es _ => anyTakes g.solid es = true
  | .items e _ _ need => need ≠ 0 ∧ e.takes g.solid = true
  | .body scope => g.solid scope.rule = true
  | .call r _ _ => g.solid r = true
  | .operators _ _ _ _ => False

namespace Setup

open Session

variable {u : Setup} {x x' : Session}

/-- What is reported now becomes no error: an earlier one is not recovered from, or there are enough. -/
def Muted (u : Setup) (x : Session) : Prop :=
  x.recovering = true ∨ u.settings.maxErrors.any (fun n => n ≤ x.errors.length) = true

/-- Whoever reports need not do so twice. -/
theorem muted_reported (code : Code) (r : Rule) (expected : KindSet) (x : Session) :
    u.Muted (u.reported code r expected x) := by
  unfold Setup.reported
  split
  · rename_i hr
    exact .inl hr
  · split
    · rename_i hm
      exact .inr hm
    · exact .inl rfl

theorem Muted.skippedOver (h : u.Muted x) (context : KindSet) (places : List Nat) :
    u.Muted (x.skippedOver context places) := by
  unfold Muted
  rwa [skippedOver_recovering, skippedOver_errors]

/-- An error that a report adds is about the current token. -/
theorem mem_sent_reported {code : Code} {r : Rule} {expected : KindSet} {e : SyntaxError}
    (h : e ∈ (u.reported code r expected x).sent) :
    e ∈ x.sent ∨ ¬u.Muted x ∧
      e = .make (if u.stream.kind x.pos = .error then .invalidToken else code) r (u.stream.current x.pos)
        expected := by
  unfold Setup.reported at h
  split at h
  · exact .inl h
  · rename_i hr
    split at h
    · exact .inl h
    · rename_i hm
      refine (List.mem_append.1 h).imp_right fun he => ⟨fun hmuted => ?_, List.mem_singleton.1 he⟩
      exact hmuted.elim hr hm

theorem lasts_muted (u : Setup) : u.Lasts u.Muted where
  noted _ h := h
  checked h := h
  decided _ h := h
  reported _ _ _ _ := muted_reported _ _ _ _
  recovers _ := .inl rfl

variable {b b' : Builder}

theorem muted_of_expect (hu : u.Regular) (hf : u.Fit x) {scope : Scope} {set : KindSet}
    (h : u.expect scope set b x = .ok b' x') (hp : x'.pos = x.pos) :
    u.Muted x' ∨ u.stream.atEnd x.pos = true := by
  have hmatched : ∀ {y : Session}, u.Advances x y → x' ≠ y.matchedAt (u.stream.settle y.pos) := by
    rintro y hy rfl
    have hlt : y.pos < u.stream.settle y.pos + 1 := Nat.lt_succ_of_le (u.stream.le_settle hy.fit.inside)
    exact Nat.ne_of_gt (Nat.lt_of_le_of_lt hy.le hlt) hp
  rw [expect_eq hu] at h
  split at h
  · rw [expectEnd_eq] at h
    split at h
    · rename_i hend
      exact .inr hend
    · cases h
      exact .inl ((muted_reported _ _ _ _).skippedOver _ _)
  · split at h
    · cases h
      exact absurd rfl (hmatched (.refl hf))
    · dsimp only at h
      split at h
      · cases h
        exact absurd rfl (hmatched ((Advances.refl hf).missed scope set))
      · cases h
        exact .inl (.inl rfl)

theorem muted_of_recover {code : Code} {r q : Rule} {expected : KindSet} {scope : Scope} {y : Session}
    (h : u.recover scope q b (u.reported code r expected y) = .ok b' x') : u.Muted x' := by
  rw [recover_eq] at h
  cases h
  exact (muted_reported _ _ _ _).skippedOver _ _

/-- A run that has to take a token, and takes none, leaves nothing to report but at the end of input. -/
theorem Runs.muted (hu : u.Regular) {n : Nat} {task : Task} (h : u.Runs n task x b x' b') (hf : u.Fit x)
    (ht : task.Takes u.grammar) (hp : x'.pos = x.pos) : u.Muted x' ∨ u.stream.atEnd x.pos = true := by
  induction h with
  | token h | relation h | oneOf h => exact muted_of_expect hu hf h hp
  | comment | present | absent => simp [Task.Takes, Element.takes] at ht
  | rule _ ih | ruleAt _ ih =>
    simp only [Task.Takes, Element.takes] at ht
    exact ih hf ht hp
  | repeated _ ih =>
    simp only [Task.Takes, Element.takes, Bool.and_eq_true, bne_iff_ne] at ht
    exact ih hf ht hp
  | seq _ ih | labeled _ ih =>
    simp only [Task.Takes, Element.takes] at ht
    exact ih hf ht hp
  | nil => simp [Task.Takes, anyTakes] at ht
  | cons h1 h2 ih1 ih2 =>
    have hy := h1.advances hu hf
    have hle := (h2.advances hu hy.fit).le
    have hpos := Nat.le_antisymm (hp ▸ hle) hy.le
    simp only [Task.Takes, anyTakes, Bool.or_eq_true] at ht
    rcases ht with ht | ht
    · exact (ih1 hf ht hpos).imp_left ((lasts_muted u).run hu hy.fit (hp.trans hpos.symm) h2)
    · rw [← hpos]
      exact ih2 hy.fit ht (hp.trans hpos.symm)
  | moved he h1 hz h2 =>
    have hy := (Advances.refl hf).checked.enterItem he
    have hz' := hy.trans (h1.advances hu hy.fit)
    have hle := (h2.advances hu (hz'.noted _).fit).le
    exact absurd (Nat.le_antisymm (hp ▸ hle) hz'.le) hz
  | stuck he _ _ _ ih =>
    have hpos := (enterItem_alike he).pos
    have hy := ((Advances.refl hf).checked.enterItem he).fit
    rw [hpos] at ih
    exact ih hy ht.2 hp
  | @freed n e resync scope need x b y z _ w _ _ he h1 hz hk hw h2 =>
    subst hw
    have hy := (Advances.refl hf).checked.enterItem he
    have hz' := hy.trans (h1.advances hu hy.fit)
    have hw := hz'.strayed .unexpectedToken scope.rule (scope.follow ∪ u.grammar.firstOf e) scope.context
      ∅ 1
    have hle := (h2.advances hu (hw.noted _).fit).le
    have hlt := lt_freed hu hz'.fit hk .unexpectedToken scope.rule (scope.follow ∪ u.grammar.firstOf e)
      scope.context
    exact absurd (hp.trans hz.symm) (Nat.ne_of_gt (Nat.lt_of_lt_of_le hlt hle))
  | ended he | resumed he =>
    -- a list that is short of its least number has another item
    rw [enterItem, if_pos (Nat.pos_of_ne_zero ht.1)] at he
    cases he
  | chosen hd hi _ ih =>
    obtain ⟨a, ha, hl⟩ := Grammar.mem_choices.1 hi
    have hpos := (decide_alike hd).pos
    have hy := (((Advances.refl hf).noted _).decide hu hd).fit
    rw [Resolver.elements_of_getElem? ha, hpos] at ih
    exact ih hy (hu.founded.takes _ ht a (List.mem_of_getElem? ha) hl) hp
  | lost _ h => exact .inl (muted_of_recover h)
  | refused h => exact .inl (muted_of_recover h)
  | inlined _ _ _ ih => exact ih (hf.opened _ _ _) ht hp
  | wrapped _ _ _ ih => exact ih (hf.opened _ _ _) ht hp
  | climbed _ h1 h2 ih1 =>
    have hy := h1.advances hu (hf.opened _ _ _)
    have hle := (h2.advances hu hy.fit).le
    have hpos := Nat.le_antisymm (hp ▸ hle) hy.le
    exact (ih1 (hf.opened _ _ _) ht hpos).imp_left ((lasts_muted u).run hu hy.fit (hp.trans hpos.symm) h2)
  | done | binary | suffix => cases ht

end Setup

end KermlText
