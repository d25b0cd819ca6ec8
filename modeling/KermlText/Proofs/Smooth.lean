import KermlText.Proofs.Answers
import KermlText.Proofs.Choices
import KermlText.Proofs.Forms
import KermlText.Proofs.Paths

/-! Smooth runs. Where there is a greedy reading, a parse follows it and reports nothing: each decision
goes the way of the reading, so each wanted token is there. It is enough that no trial was cut and that
the limit on open rules was not met. -/

namespace KermlText

namespace Setup

open Session

/-- A setup that hides nothing from lookahead, with a text of proper tokens and no comments. -/
structure Open (u : Setup) : Prop where
  regular : u.Regular
  closed : u.grammar.Closed
  silent : u.stream.Silent
  clean : ∀ i, u.stream.kind i ≠ .error
  nodes : ∀ r t k tier q, u.grammar.table? r = some t → t.lookup k = some (tier, q) →
    tier.form ≠ .binary → u.grammar.table? q = none
  reports : u.settings.maxErrors ≠ some 0

/-- Nothing was reported so far, and the resolver knows the way. -/
structure Steady (u : Setup) (x : Session) : Prop where
  fit : u.Fit x
  errors : x.errors = []
  recovering : x.recovering = false
  sees : x.resolver.Sees u.grammar u.stream

/-- No trial was cut, and the limit on open rules was not met. -/
structure Unhindered (x : Session) : Prop where
  cut : x.resolver.cut = false
  depth : ∀ e ∈ x.errors, e.code ≠ .nestingTooDeep

variable {u : Setup} {x y : Session}

theorem Unhindered.before (h : Unhindered y) (ha : u.Advances x y) : Unhindered x := by
  refine ⟨?_, fun e he => h.depth e (ha.errors.subset he)⟩
  rcases hc : x.resolver.cut with _ | _
  · rfl
  · rw [← h.cut, ha.cut hc]

namespace Steady

theorem alike (h : u.Steady x) (ha : u.Advances x y) (hy : x.Alike y)
    (hs : y.resolver.Sees u.grammar u.stream) : u.Steady y :=
  ⟨ha.fit, hy.errors.trans h.errors, hy.recovering.trans h.recovering, hs⟩

theorem noted (h : u.Steady x) (e : Event) : u.Steady (x.noted e) :=
  h.alike ((Advances.refl h.fit).noted e) (alike_noted x e) h.sees

theorem checked (h : u.Steady x) : u.Steady x.checked :=
  h.alike (Advances.refl h.fit).checked x.alike_checked h.sees

theorem called (h : u.Steady x) (r : Rule) (scope : Scope) : u.Steady (x.called r scope) :=
  (h.noted _).checked

theorem opened (h : u.Steady x) (r : Rule) (scope : Scope) (e : Event) :
    u.Steady ((x.called r scope).noted e) :=
  (h.called r scope).noted e

theorem matchedAt (h : u.Steady x) (he : u.stream.atEnd x.pos = false) :
    u.Steady (x.matchedAt (u.stream.settle x.pos)) :=
  ⟨((Advances.refl h.fit).matchedAt he).fit, h.errors, rfl, h.sees⟩

theorem operatedAt (h : u.Steady x) (he : u.stream.atEnd x.pos = false) :
    u.Steady (x.operatedAt (u.stream.settle x.pos)) :=
  ⟨((Advances.refl h.fit).operatedAt he).fit, h.errors, h.recovering, h.sees⟩

theorem enter (h : u.Steady x) {scope : Scope} {e : Element} {b : Bool}
    (hd : u.enter scope e x = .ok b y) : u.Steady y := by
  refine h.alike ((Advances.refl h.fit).enter hd) (enter_alike hd) ?_
  rw [(enter_ok hd).2]
  exact h.sees.enter _ _ _ _

theorem enterItem (h : u.Steady x) {scope : Scope} {e : Element} {need : Nat} {b : Bool}
    (hd : u.enterItem scope e need x = .ok b y) : u.Steady y := by
  rcases enterItem_ok hd with ⟨-, -, rfl⟩ | ⟨-, hd⟩
  · exact h
  · exact h.enter hd

theorem decide (h : u.Steady x) (hu : u.Open) {scope : Scope} {d : Except Failure Nat}
    (hd : u.decide scope x = .ok d y) (hy : Unhindered y) : u.Steady y := by
  refine h.alike ((Advances.refl h.fit).decide hu.regular hd) (decide_alike hd) ?_
  rw [decide_eq] at hd
  cases hd
  exact Resolver.decide_sees hu.regular.eof hu.regular.founded hu.closed hu.silent h.sees h.fit.inside
    rfl hy.cut

end Steady

/-! ### Wanted tokens, and the limit on open rules -/

section

variable {scope : Scope} {b b' : Builder} {x' : Session} (hu : u.Regular)
include hu

/-- A wanted token is taken where it stands. -/
theorem expect_standing {set : KindSet} (h : u.expect scope set b x = .ok b' x')
    (hs : u.stream.stands x.pos set = true) :
    b' = b.pushToken (u.stream.current x.pos) ∧ x' = x.matchedAt (u.stream.settle x.pos) := by
  have hset : set ≠ endKinds := by
    rintro rfl
    simp only [Stream.stands, endKinds, KindSet.contains_single, Bool.and_eq_true, bne_iff_ne,
      decide_eq_true_eq] at hs
    exact hs.1 hs.2.symm
  rw [expect_eq hu, if_neg hset, if_pos hs] at h
  cases h
  exact ⟨rfl, rfl⟩

theorem expect_atEnd (h : u.expect scope (.single .eof) b x = .ok b' x') (he : u.stream.atEnd x.pos = true) :
    x' = x ∧ b' = b := by
  rw [expect_eq hu, if_pos (show KindSet.single .eof = endKinds from rfl), expectEnd_eq, if_pos he] at h
  cases h
  exact ⟨rfl, rfl⟩

end

/-- The limit on open rules is met with an error that says so, at the first token that is wrong. -/
theorem not_unhindered_refused {scope : Scope} {r : Rule} {b b' : Builder} {expected : KindSet} {x' : Session}
    (hk : u.stream.kind x.pos ≠ .error) (hm : u.settings.maxErrors ≠ some 0) (he : x.errors = [])
    (hr : x.recovering = false)
    (h : u.recover scope r b (u.reported .nestingTooDeep r expected x) = .ok b' x') : ¬ Unhindered x' := by
  rw [recover_eq] at h
  cases h
  intro hend
  have hd := hend.depth
  unfold Stream.kind at hk
  rcases hmax : u.settings.maxErrors with _ | _ | n
  · simp [reported, hr, he, hk, hmax, SyntaxError.make] at hd
  · exact absurd hmax hm
  · simp [reported, hr, he, hk, hmax, SyntaxError.make] at hd

/-! ### Decisions in a parse -/

section

variable (hu : u.Open) (hx : u.Steady x) {scope : Scope} {e : Element} {v : List Kind}
include hu hx

/-- The alternative of a greedy reading is the one that is decided for. -/
theorem decide_greedy {d : Except Failure Nat} (hd : u.decide scope x = .ok d y)
    (hy : Unhindered y) (h : u.grammar.Greedy (.operand scope.rule) (u.stream.ahead x.pos) v)
    (hv : scope.follow.contains (nextKind v) = true) :
    ∃ i, d = .ok i ∧ u.grammar.Chosen scope.rule i (u.stream.ahead x.pos) v := by
  obtain ⟨i, hi⟩ := h.chosen
  rw [decide_eq] at hd
  cases hd
  exact ⟨i, Resolver.decide_finds hu.regular.eof hu.regular.founded hu.closed hu.silent hx.sees
    hx.fit.inside rfl hy.cut hi hv, hi⟩

theorem enter_greedy (he : e.founded u.grammar.solid = true) (hd : u.enter scope e x = .ok false y)
    (hy : Unhindered y) (h : u.grammar.Greedy (.element e) (u.stream.ahead x.pos) v) :
    u.stream.ahead x.pos = v := by
  obtain ⟨hb, rfl⟩ := enter_ok hd
  exact Resolver.enter_finds hu.regular.eof hu.regular.founded hu.closed hu.silent hx.sees hx.fit.inside
    he (Prod.ext hb rfl) hy.cut h

theorem enter_passes (he : e.founded u.grammar.solid = true) {b : Bool}
    (hd : u.enter scope e x = .ok b y) (hy : Unhindered y)
    (h : ¬ u.grammar.Opens e.pattern (u.stream.ahead x.pos))
    (hv : scope.follow.contains (nextKind (u.stream.ahead x.pos)) = true) : b = false := by
  obtain ⟨hb, rfl⟩ := enter_ok hd
  exact Resolver.enter_skips hu.regular.eof hu.regular.founded hu.closed hu.silent hx.sees hx.fit.inside
    he (Prod.ext hb rfl) hy.cut h hv

/-- A wanted token that lies ahead is taken. -/
theorem expect_greedy {set : KindSet} {b b' : Builder} {x' : Session}
    (h : u.expect scope set b x = .ok b' x') {k : Kind} (ha : u.stream.ahead x.pos = k :: v)
    (hk : k ≠ .eof) (hm : set.contains k = true) :
    u.Steady x' ∧ u.stream.ahead x'.pos = v ∧
      ∃ t, t.kind = k ∧ u.stream.rest x.pos = t :: u.stream.rest x'.pos ∧ b' = b.pushToken t := by
  obtain ⟨he, hkind, hv⟩ := Stream.of_ahead_cons ha
  obtain ⟨rfl, rfl⟩ := expect_standing hu.regular h (by simp [Stream.stands, hkind, hk, hm])
  exact ⟨hx.matchedAt he, hv, _, hkind, Stream.rest_of_not_atEnd hx.fit.inside he, rfl⟩

omit hx in
/-- The end of input that is wanted is there. -/
theorem expect_end {b b' : Builder} {x' : Session}
    (h : u.expect scope (.single .eof) b x = .ok b' x') (ha : u.stream.ahead x.pos = []) :
    x' = x ∧ b' = b ∧ u.stream.rest x.pos = [] := by
  have he := Stream.atEnd_iff_ahead.2 ha
  obtain ⟨rfl, rfl⟩ := expect_atEnd hu.regular h he
  exact ⟨rfl, rfl, Stream.rest_of_atEnd he⟩

omit hu in
/-- Behind an operator stands what the parse reads next. -/
theorem operation_greedy {table : Table} {tier : Tier} {node : Rule} (ht : u.grammar.table? scope.rule = some table)
    (hl : table.lookup (u.stream.kind x.pos) = some (tier, node)) (he : u.stream.atEnd x.pos = false)
    (h : u.grammar.Greedy (.operators scope.rule) (u.stream.ahead x.pos) v) :
    u.Steady (x.checked.operatedAt (u.stream.settle x.pos)) ∧
      u.stream.rest x.pos = u.stream.current x.pos :: u.stream.rest (u.stream.settle x.pos + 1) ∧
      ∃ w, (if tier.form = .binary then u.grammar.Greedy (.operand scope.rule)
          else u.grammar.Greedy (.element (.rule node))) (u.stream.ahead (u.stream.settle x.pos + 1)) w ∧
        u.grammar.Greedy (.operators scope.rule) w v :=
  ⟨hx.checked.operatedAt he, Stream.rest_of_not_atEnd hx.fit.inside he,
    (Stream.ahead_of_not_atEnd he ▸ h).of_operator ht hl⟩

omit hx in
/-- What follows an element may follow it. -/
theorem follow_before_greedy {es : List Element} {w : List Kind} (h : u.grammar.Greedy (.element (.seq es)) w v)
    (hv : scope.follow.contains (nextKind v) = true) :
    (u.before es scope).follow.contains (nextKind w) = true := by
  simp only [before, KindSet.contains_union, Bool.or_eq_true]
  rcases Grammar.Spans.row_starts hu.closed h.spans with hopen | ⟨hempty, rfl⟩
  · exact .inl hopen
  · rw [if_pos hempty]
    exact .inr hv

/-- An item that is entered is the first one of the greedy reading, and it moves. -/
theorem entered_greedy (ht : e.takes u.grammar.solid = true) (he : e.founded u.grammar.solid = true)
    {need : Nat} {resync : Bool} (hd : u.enterItem scope e need x = .ok true y) (hy : Unhindered y)
    (h : u.grammar.Greedy (.element (.repeated e need resync)) (u.stream.ahead x.pos) v)
    (hv : scope.follow.contains (nextKind v) = true) :
    ∃ w, u.grammar.Greedy (.element e) (u.stream.ahead y.pos) w ∧
      u.grammar.Greedy (.element (.repeated e (need - 1) resync)) w v ∧
      (u.within e scope).follow.contains (nextKind w) = true ∧ u.stream.ahead y.pos ≠ w := by
  have hfounded := hu.regular.founded
  rw [(enterItem_alike hd).pos]
  cases h with
  | again h1 h2 =>
    refine ⟨_, h1, h2, h2.next_item hu.closed hfounded ht hv, fun hw => ?_⟩
    have hlt := h1.length_lt hfounded ht
    rw [hw] at hlt
    exact Nat.lt_irrefl _ hlt
  | none ho =>
    rcases enterItem_ok hd with ⟨hneed, -⟩ | ⟨-, hd⟩
    · exact absurd hneed (Nat.lt_irrefl 0)
    · cases enter_passes hu hx he hd hy ho hv

/-- Where no item is entered, none is wanted and the greedy reading has none. -/
theorem not_entered_greedy (ht : e.takes u.grammar.solid = true) (he : e.founded u.grammar.solid = true)
    {need : Nat} {resync : Bool} (hd : u.enterItem scope e need x = .ok false y) (hy : Unhindered y)
    (h : u.grammar.Greedy (.element (.repeated e need resync)) (u.stream.ahead x.pos) v) :
    need = 0 ∧ ¬ u.grammar.Opens e.pattern (u.stream.ahead y.pos) ∧ v = u.stream.ahead y.pos := by
  obtain ⟨rfl, hd⟩ := enter_of_not_enterItem hd
  rw [(enter_alike hd).pos]
  cases h with
  | again h1 _ =>
    have hlt := h1.length_lt hu.regular.founded ht
    rw [← enter_greedy hu hx he hd hy h1] at hlt
    exact absurd hlt (Nat.lt_irrefl _)
  | none ho => exact ⟨rfl, ho, rfl⟩

end

end Setup

/-! ### Runs -/

namespace Task

/-- What is to be read. -/
def part : Task → Part
  | .element e _ => .element e
  | .row es _ => .element (.seq es)
  | .items e resync _ need => .element (.repeated e need resync)
  | .body scope => .operand scope.rule
  | .call r _ _ => .element (.rule r)
  | .operators _ _ scope _ => .operators scope.rule

/-- What makes nodes. -/
def job : Task → Job
  | .element e _ => .element e
  | .row es _ => .element (.seq es)
  | .items e resync _ need => .element (.repeated e need resync)
  | .body scope => .body scope.rule
  | .call r level _ => .call r level
  | .operators _ level scope left => .operators scope.rule level left

def scope : Task → Scope
  | .element _ scope | .row _ scope | .items _ _ scope _ | .body scope | .call _ _ scope
  | .operators _ _ scope _ => scope

/-- The task is one of the grammar: lists make progress, and operators may follow operators. -/
def Founded (g : Grammar) : Task → Prop
  | .element e _ => e.founded g.solid = true
  | .row es _ => allFounded g.solid es = true
  | .items e _ _ _ => e.takes g.solid = true ∧ e.founded g.solid = true
  | .operators table _ scope _ => g.table? scope.rule = some table ∧
      ∀ k, table.operators.contains k = true → scope.follow.contains k = true
  | .body _ | .call _ _ _ => True

/-- What is left behind the task where `v` is left by a greedy reading. Operators that bind too loosely
are left to the rule around. -/
def Leaves (g : Grammar) (w v : List Kind) : Task → Prop
  | .element _ _ | .row _ _ | .items _ _ _ _ | .body _ => w = v
  | .call r level _ => g.Greedy (.operators r) w v ∧ ∀ t tier q, g.table? r = some t →
      t.lookup (nextKind w) = some (tier, q) → tier.level < level
  | .operators table level scope _ => g.Greedy (.operators scope.rule) w v ∧ ∀ tier q,
      table.lookup (nextKind w) = some (tier, q) → tier.level < level

end Task

namespace Setup

open Session

variable {u : Setup}

/-- A run follows the greedy reading that lies ahead of it, without an error, and makes its form. -/
theorem Runs.steady (hu : u.Open) {n : Nat} {task : Task} {x x' : Session} {b b' : Builder}
    (h : u.Runs n task x b x' b') (hx : u.Steady x) (hend : Unhindered x')
    (hf : task.Founded u.grammar) {v : List Kind}
    (hg : u.grammar.Greedy task.part (u.stream.ahead x.pos) v)
    (hv : task.scope.follow.contains (nextKind v) = true) :
    u.Steady x' ∧ task.Leaves u.grammar (u.stream.ahead x'.pos) v ∧
      u.grammar.Forms .free task.job (u.stream.rest x.pos) b (u.stream.rest x'.pos) b' := by
  have hre := hu.regular
  have hfounded := hre.founded
  induction h generalizing v with
  | token h =>
    generalize hw : u.stream.ahead _ = w at hg
    cases hg with
    | eof =>
      obtain ⟨rfl, rfl, hr⟩ := expect_end hu h hw
      exact ⟨hx, hw, hr ▸ .eof⟩
    | token hk =>
      obtain ⟨hx', hl, t, ht, hr, rfl⟩ := expect_greedy hu hx h hw hk (by simp)
      exact ⟨hx', hl, hr ▸ .token ht hk trivial⟩
  | relation h =>
    generalize hw : u.stream.ahead _ = w at hg
    cases hg with
    | relation hk =>
      obtain ⟨hx', hl, t, ht, hr, rfl⟩ := expect_greedy hu hx h hw hk (by simp)
      exact ⟨hx', hl, hr ▸ .relation ht hk trivial⟩
  | oneOf h =>
    generalize hw : u.stream.ahead _ = w at hg
    cases hg with
    | oneOf hm hk hc =>
      obtain ⟨hx', hl, t, rfl, hr, rfl⟩ := expect_greedy hu hx h hw hk hm
      exact ⟨hx', hl, hr ▸ .oneOf hm hk hc trivial⟩
  | comment h => cases hg
  | @rule n r scope x b x' b' h ih =>
    obtain ⟨hx', ⟨hl, hlevel⟩, hform⟩ := ih hx hend trivial hg hv
    exact ⟨hx', hl.eq_of_level hlevel, .rule hform⟩
  | ruleAt h ih => cases hg
  | @present n e scope x b y x' b' hd h ih =>
    have hy := hx.enter hd
    have hpos := (enter_alike hd).pos
    cases hg with
    | present hg =>
      obtain ⟨hx', hl, hform⟩ := ih hy hend hf (hpos ▸ hg) hv
      exact ⟨hx', hl, .present (hpos ▸ hform)⟩
    | absent ho =>
      have hb := enter_passes (e := e) hu hx hf hd (hend.before (h.advances hre hy.fit)) ho hv
      cases hb
  | @absent n e scope x b x' hd =>
    have hv : u.stream.ahead x.pos = v := by
      cases hg with
      | present hg => exact enter_greedy (e := e) hu hx hf hd hend hg
      | absent _ => rfl
    subst hv
    have hpos := (enter_alike hd).pos
    refine ⟨hx.enter hd, congrArg _ hpos, ?_⟩
    rw [hpos]
    exact .absent hg
  | repeated h ih =>
    simp only [Task.Founded, Element.founded, Bool.and_eq_true] at hf
    exact ih hx hend hf hg hv
  | seq h ih => exact ih hx hend hf hg hv
  | labeled h ih =>
    cases hg with
    | labeled hg =>
      obtain ⟨hx', hl, hform⟩ := ih hx hend hf hg hv
      exact ⟨hx', hl, .labeled hform⟩
  | nil =>
    cases hg with
    | nil => exact ⟨hx, rfl, .nil⟩
  | @cons n e es scope x b y c x' b' h1 h2 ih1 ih2 =>
    simp only [Task.Founded, allFounded, Bool.and_eq_true] at hf
    have hy := hend.before (h2.advances hre (h1.advances hre hx.fit).fit)
    cases hg with
    | cons hg1 hg2 =>
      obtain ⟨hys, hl, hform⟩ := ih1 hx hy hf.1 hg1 (follow_before_greedy hu hg2 hv)
      obtain ⟨hx', hl', hform'⟩ := ih2 hys hend hf.2 (hl ▸ hg2) hv
      exact ⟨hx', hl', .cons hform hform'⟩
  | @moved n e resync scope need x b y z c x' b' hd h1 hz h2 ih1 ih2 =>
    have hy := hx.checked.enterItem hd
    have hzf := (h1.advances hre hy.fit).fit
    have hzu := hend.before (h2.advances_from hre ((Advances.refl hzf).noted _))
    obtain ⟨w, hg1, hg2, hw, -⟩ :=
      entered_greedy hu hx.checked hf.1 hf.2 hd (hzu.before (h1.advances hre hy.fit)) hg hv
    obtain ⟨hzs, hl, hform⟩ := ih1 hy hzu hf.2 hg1 hw
    obtain ⟨hx', hl', hform'⟩ := ih2 (hzs.noted _) hend hf (hl ▸ hg2) hv
    exact ⟨hx', hl', .again ((enterItem_alike hd).pos ▸ hform) hform'⟩
  | @stuck n e resync scope need x b y x' b' hd h1 hz hk ih =>
    have hy := hx.checked.enterItem hd
    obtain ⟨w, hg1, -, hw, hmoves⟩ :=
      entered_greedy hu hx.checked hf.1 hf.2 hd (hend.before (h1.advances hre hy.fit)) hg hv
    obtain ⟨-, hl, -⟩ := ih hy hend hf.2 hg1 hw
    rw [(enterItem_alike hd).pos] at hmoves
    exact absurd (hz ▸ hl) hmoves
  | @freed n e resync scope need x b y z c w x' b' hd h1 hz hk hw h2 ih1 ih2 =>
    subst hw
    have hy := hx.checked.enterItem hd
    have hzf := (h1.advances hre hy.fit).fit
    have hzu := hend.before (h2.advances_from hre (((Advances.refl hzf).strayed _ _ _ _ _ _).noted _))
    obtain ⟨w, hg1, -, hw, hmoves⟩ :=
      entered_greedy hu hx.checked hf.1 hf.2 hd (hzu.before (h1.advances hre hy.fit)) hg hv
    obtain ⟨-, hl, -⟩ := ih1 hy hzu hf.2 hg1 hw
    rw [(enterItem_alike hd).pos] at hmoves
    exact absurd (hz ▸ hl) hmoves
  | @ended n e resync scope need x b x' hd hk =>
    obtain ⟨rfl, ho, rfl⟩ := not_entered_greedy hu hx.checked hf.1 hf.2 hd hend hg
    have hpos : x'.pos = x.pos := (enterItem_alike hd).pos
    rw [hpos] at ho ⊢
    exact ⟨hx.checked.enterItem hd, rfl, .none ho⟩
  | @resumed n e resync scope need x b y w x' b' hd hk hw h2 ih =>
    -- what is left may follow the list, so no token is skipped in front of it
    subst hw
    have hy := hx.checked.enterItem hd
    have hyu := hend.before (h2.advances_from hre (((Advances.refl hy.fit).strayed _ _ _ _ _ _).noted _))
    obtain ⟨-, -, rfl⟩ := not_entered_greedy hu hx.checked hf.1 hf.2 hd hyu hg
    have hfollow : scope.follow.contains (nextKind (u.stream.ahead y.pos)) = true := hv
    rw [hu.silent.lookahead hre.eof] at hk
    simp [leaves, hfollow] at hk
  | @chosen n scope x b i y x' b' hd hi h ih =>
    have hx' := hx.noted (.asked scope.rule scope.follow)
    have hy := hend.before (h.advances hre ((Advances.refl hx'.fit).decide hre hd).fit)
    obtain ⟨j, hj, hchosen⟩ := decide_greedy hu hx' hd hy hg hv
    cases hj
    have hpos := (decide_alike hd).pos
    obtain ⟨hx'', hl, hform⟩ := ih (hx'.decide hu hd hy) hend
      (Resolver.allFounded_elements hfounded _ _) (hpos ▸ hchosen.greedy) hv
    obtain ⟨a, ha, hleft, hfore, -⟩ := hchosen
    refine ⟨hx'', hl, .chosen ha hleft hfore trivial ?_⟩
    rw [← Resolver.elements_of_getElem? ha]
    exact hpos ▸ hform
  | @lost n scope x b r p offset expected k y x' b' hd h =>
    have hx' := hx.noted (.asked scope.rule scope.follow)
    have hy := hend.before (((Advances.refl ((Advances.refl hx'.fit).decide hre hd).fit).reported _ _ _).recover h)
    obtain ⟨j, hj, -⟩ := decide_greedy hu hx' hd hy hg hv
    cases hj
  | @refused r level scope x b x' b' h =>
    have hcalled := hx.called r scope
    exact absurd hend (not_unhindered_refused (hu.clean _) hu.reports hcalled.errors hcalled.recovering h)
  | @inlined n r level scope x b x' b' ht hi h ih =>
    cases hg with
    | rule hg1 hg2 =>
      obtain rfl := hg2.of_plain ht
      obtain ⟨hx', hl, hform⟩ := ih (hx.opened _ _ _) hend trivial hg1 hv
      refine ⟨hx', ⟨?_, fun t _ _ ht' => by cases ht.symm.trans ht'⟩, .inlined ht hi hform⟩
      rw [show u.stream.ahead x'.pos = _ from hl]
      exact .plain ht
  | @wrapped n r level scope x b x' c ht hi h ih =>
    cases hg with
    | rule hg1 hg2 =>
      obtain rfl := hg2.of_plain ht
      obtain ⟨hx', hl, hform⟩ := ih (hx.opened _ _ _) hend trivial hg1 hv
      refine ⟨hx', ⟨?_, fun t _ _ ht' => by cases ht.symm.trans ht'⟩, .wrapped ht hi hform⟩
      rw [show u.stream.ahead x'.pos = _ from hl]
      exact .plain ht
  | @climbed n r level scope x b table y c x' b' ht h1 h2 ih1 ih2 =>
    have hxo := hx.opened r scope (.opened (u.settings.maxDepth - n))
    have hy := hend.before (h2.advances hre (h1.advances hre hxo.fit).fit)
    cases hg with
    | @rule _ _ w _ hg1 hg2 =>
      have hoperators : ∀ k, table.operators.contains k = true →
          (operandScope r table scope).follow.contains k = true := fun k hk => by simp [operandScope, hk]
      have hv' : (operandScope r table scope).follow.contains (nextKind v) = true := by
        simp only [operandScope, KindSet.contains_union, Bool.or_eq_true]
        exact .inl hv
      obtain ⟨hys, hl, hform⟩ := ih1 hxo hy trivial hg1 (hg2.next_operator ht hoperators hv')
      obtain ⟨hx', ⟨hl', hlevel⟩, hform'⟩ := ih2 hys hend ⟨ht, hoperators⟩ (hl ▸ hg2) hv'
      refine ⟨hx', ⟨hl', fun t tier q ht' => ?_⟩, .climbed ht hform hform'⟩
      cases ht.symm.trans ht'
      exact hlevel tier q
  | @done n table level scope left x b hl =>
    have hlevel : ∀ tier q, table.lookup (nextKind (u.stream.ahead x.pos)) = some (tier, q) →
        tier.level < level := fun tier q h => hl tier q (by rwa [Stream.kind_eq_nextKind hre.eof])
    exact ⟨hx, ⟨hg, hlevel⟩, .done hf.1 hlevel⟩
  | @binary n table level scope left x b tier q y c x' b' hl hle hform he h1 h2 ih1 ih2 =>
    obtain ⟨hxo, hrest, w, hg1, hg2⟩ := operation_greedy hx hf.1 hl he hg
    rw [if_pos hform] at hg1
    have hy := hend.before (h2.advances hre (h1.advances hre hxo.fit).fit)
    obtain ⟨hys, ⟨hl', -⟩, hform1⟩ := ih1 hxo hy trivial (.rule hg1 hg2) hv
    obtain ⟨hx', hleaves, hform2⟩ := ih2 hys hend hf hl' hv
    exact ⟨hx', hleaves, hrest ▸ .binary hf.1 hl hle hform trivial hform1 hform2⟩
  | @suffix n table level scope left x b tier q y c x' b' hl hle hform he h1 h2 ih1 ih2 =>
    obtain ⟨hxo, hrest, w, hg1, hg2⟩ := operation_greedy hx hf.1 hl he hg
    rw [if_neg hform] at hg1
    have hy := hend.before (h2.advances hre (h1.advances hre hxo.fit).fit)
    cases hg1 with
    | rule hg1 hplain =>
      obtain rfl := hplain.of_plain (hu.nodes _ _ _ _ _ hf.1 hl hform)
      obtain ⟨hys, hl', hform1⟩ := ih1 hxo hy trivial hg1 (hg2.next_operator hf.1 hf.2 hv)
      obtain ⟨hx', hleaves, hform2⟩ := ih2 hys hend hf (hl' ▸ hg2) hv
      exact ⟨hx', hleaves, hrest ▸ .suffix hf.1 hl hle hform trivial hform1 hform2⟩

end Setup

end KermlText
