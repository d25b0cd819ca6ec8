import KermlText.Proofs.Commitments
import KermlText.Proofs.Completeness

/-! Guided runs. The recognizer tries alternatives in order, takes what it can and goes back where that fails. A
parse never goes back: it commits by one token, by what may follow, and by trials. Yet where the recognizer gets to
the end of a text, a parse goes its way and reports nothing. -/

namespace KermlText

namespace Recognizer

variable {z : Recognizer} {c : Bool} {r : Rule} {t : Table} {tier : Tier} {node : Rule} {p q : Nat}

/-- What is found of a rule behind an operand: operators, if there are any. -/
inductive Rest (z : Recognizer) (c : Bool) (r : Rule) (p : Nat) : Nat → Prop
  | plain (ht : z.grammar.table? r = none) : Rest z c r p p
  | operators {t n q} (ht : z.grammar.table? r = some t) (h : z.Finds c (.operators r t n) p (.matched q)) :
    Rest z c r p q

theorem Finds.of_call (h : z.Finds c (.call r) p (.matched q)) : ∃ w,
    z.Finds (c || z.grammar.aware r) (.operand r) p (.matched w) ∧ z.Rest (c || z.grammar.aware r) r w q := by
  cases h with
  | plain ht h => exact ⟨q, h, .plain ht⟩
  | climbed ht h1 h2 => exact ⟨_, h1, .operators ht h2⟩
  | unbuilt _ _ hv => exact absurd rfl (hv q)

namespace Rest

theorem eq_of_plain (h : z.Rest c r p q) (ht : z.grammar.table? r = none) : q = p := by
  cases h with
  | plain => rfl
  | operators ht' => cases ht.symm.trans ht'

theorem of_operator (h : z.Rest c r p q) (ht : z.grammar.table? r = some t)
    (hl : t.lookup (z.stream.lookahead p c) = some (tier, node)) :
    ∃ w, z.Finds c (operandOf r node tier) (z.stream.skip p) (.matched w) ∧ z.Rest c r w q := by
  cases h with
  | plain ht' => cases ht.symm.trans ht'
  | operators ht' h =>
    cases ht.symm.trans ht'
    cases h with
    | bare _ hn => cases hl.symm.trans hn
    | operator _ hl' h1 h2 =>
      cases hl.symm.trans hl'
      exact ⟨_, h1, .operators ht h2⟩
    | stranded _ _ _ hv => exact absurd rfl (hv q)

theorem eq_or_operator (h : z.Rest c r p q) (ht : z.grammar.table? r = some t) :
    q = p ∨ ∃ tier node, t.lookup (z.stream.lookahead p c) = some (tier, node) := by
  cases h with
  | plain => exact .inl rfl
  | operators ht' h =>
    cases ht.symm.trans ht'
    cases h with
    | bare => exact .inl rfl
    | operator _ hl | stranded _ hl => exact .inr ⟨_, _, hl⟩

/-- In front of the rest stands an operator, or what is behind. -/
theorem next_operator (h : z.Rest c r p q) (ht : z.grammar.table? r = some t) {s : KindSet}
    (hs : ∀ k, t.operators.contains k = true → s.contains k = true)
    (hv : s.contains (z.stream.lookahead q c) = true) : s.contains (z.stream.lookahead p c) = true := by
  rcases h.eq_or_operator ht with rfl | ⟨tier, node, hl⟩
  · exact hv
  · exact hs _ (Table.contains_operators hl)

theorem eq_of_no_operator (h : z.Rest c r p q)
    (hn : ∀ t tier node, z.grammar.table? r = some t → t.lookup (z.stream.lookahead p c) ≠ some (tier, node)) :
    q = p := by
  rcases ht : z.grammar.table? r with _ | t
  · exact h.eq_of_plain ht
  · exact (h.eq_or_operator ht).resolve_right fun ⟨tier, node, hl⟩ => hn t tier node ht hl

end Rest

end Recognizer

namespace Setup

open Session Recognizer

/-- The recognizer that sees the whole text. -/
def onlooker (u : Setup) : Recognizer := ⟨u.grammar, u.stream, u.stream.size⟩

/-- A setup in which the recognizer can guide a parse that may report, with a text of proper tokens. -/
structure Guided (u : Setup) (keys : KindSet) (inner : Rule → Bool) : Prop where
  regular : u.Regular
  guide : u.onlooker.Guide keys inner
  nodes : ∀ r t k tier node, u.grammar.table? r = some t → t.lookup k = some (tier, node) →
    tier.form ≠ .binary → u.grammar.table? node = none ∧ u.grammar.aware node = false
  clean : ∀ i, u.stream.kind i ≠ .error
  reports : u.settings.maxErrors ≠ some 0

/-- Nothing was reported so far, the resolver commits to what the recognizer finds, and the parse stands where the
recognizer may, inside or outside of annotations. -/
structure Led (u : Setup) (keys : KindSet) (inner : Rule → Bool) (inside : Bool) (x : Session) : Prop where
  fit : u.Fit x
  errors : x.errors = []
  recovering : x.recovering = false
  commits : x.resolver.Commits u.onlooker keys inner
  lane : u.stream.Lane keys inside x.pos

variable {u : Setup} {keys : KindSet} {inner : Rule → Bool} {a b : Bool} {x y : Session}

namespace Led

theorem alike (h : u.Led keys inner a x) (ha : u.Advances x y) (hy : x.Alike y)
    (hs : y.resolver.Commits u.onlooker keys inner) : u.Led keys inner a y :=
  ⟨ha.fit, hy.errors.trans h.errors, hy.recovering.trans h.recovering, hs, by rw [hy.pos]; exact h.lane⟩

theorem noted (h : u.Led keys inner a x) (e : Event) : u.Led keys inner a (x.noted e) :=
  h.alike ((Advances.refl h.fit).noted e) (alike_noted x e) h.commits

theorem checked (h : u.Led keys inner a x) : u.Led keys inner a x.checked :=
  h.alike (Advances.refl h.fit).checked x.alike_checked h.commits

theorem called (h : u.Led keys inner a x) (r : Rule) (scope : Scope) : u.Led keys inner a (x.called r scope) :=
  (h.noted _).checked

theorem opened (h : u.Led keys inner a x) (r : Rule) (scope : Scope) (e : Event) :
    u.Led keys inner a ((x.called r scope).noted e) :=
  (h.called r scope).noted e

theorem operatedAt (h : u.Led keys inner a x) (he : u.stream.atEnd x.pos = false)
    (hl : u.stream.Lane keys a (u.stream.skip x.pos)) :
    u.Led keys inner a (x.operatedAt (u.stream.settle x.pos)) := by
  rw [Stream.skip_of_not_atEnd he] at hl
  exact ⟨((Advances.refl h.fit).operatedAt he).fit, h.errors, h.recovering, h.commits, hl⟩

theorem enter (h : u.Led keys inner a x) {scope : Scope} {e : Element} {d : Bool}
    (hd : u.enter scope e x = .ok d y) : u.Led keys inner a y := by
  refine h.alike ((Advances.refl h.fit).enter hd) (enter_alike hd) ?_
  rw [(enter_ok hd).2]
  exact h.commits.enter _ _ _ _

theorem enterItem (h : u.Led keys inner a x) {scope : Scope} {e : Element} {need : Nat} {d : Bool}
    (hd : u.enterItem scope e need x = .ok d y) : u.Led keys inner a y := by
  rcases enterItem_ok hd with ⟨-, -, rfl⟩ | ⟨-, hd⟩
  · exact h
  · exact h.enter hd

end Led

/-! ### What a guided parse does -/

section

variable {scope : Scope} {e : Element} {q : Nat} (hu : u.Guided keys inner) (hx : u.Led keys inner a x)
include hu hx

/-- The alternative that the recognizer matches is the one that is decided for. -/
theorem decide_led {d : Except Failure Nat} (hr : a = true → inner scope.rule = true)
    (hc : scope.comments = (a || u.grammar.aware scope.rule)) (hd : u.decide scope x = .ok d y)
    (hy : Unhindered y) (h : u.onlooker.Finds scope.comments (.operand scope.rule) x.pos (.matched q))
    (hq : a = scope.comments → scope.follow.contains (u.stream.lookahead q scope.comments) = true) :
    u.Led keys inner a y ∧ ∃ i, d = .ok i ∧
      u.onlooker.Finds scope.comments (.row (Resolver.elements u.grammar scope.rule i)) x.pos (.matched q) := by
  have hadvances := (Advances.refl hx.fit).decide hu.regular hd
  have halike := decide_alike hd
  rw [decide_eq] at hd
  cases hd
  have hfollow : u.grammar.aware scope.rule = true ∨
      scope.follow.contains (u.stream.lookahead q scope.comments) = true := by
    rcases haware : u.grammar.aware scope.rule with _ | _
    · exact .inr (hq (by rw [hc, haware, Bool.or_false]))
    · exact .inl rfl
  obtain ⟨i, hi⟩ := h.exists_found
  refine ⟨hx.alike hadvances halike ?_, i, ?_, hi.row⟩
  · exact Resolver.decide_commits hu.guide hx.commits hr hc hx.lane rfl hy.cut
  · exact Resolver.decide_found hu.guide hx.commits hr hc hx.lane rfl hy.cut hi hfollow

omit hx in
/-- What follows an item may follow it. -/
theorem follow_within (he : e.Leads keys inner scope.comments a a) {n need w : Nat}
    (h : u.onlooker.Finds scope.comments (.items e n need) w (.matched q))
    (hv : scope.follow.contains (u.stream.lookahead q scope.comments) = true) :
    (u.within e scope).follow.contains (u.stream.lookahead w scope.comments) = true := by
  simp only [within, KindSet.contains_union, Bool.or_eq_true]
  rcases hu.guide.starts h ⟨rfl, he⟩ with hopen | ⟨-, rfl⟩
  · exact .inr hopen
  · exact .inl hv

section

variable (he : e.Leads keys inner scope.comments a a) (hy : Unhindered y)
include he hy

theorem enter_led (hd : u.enter scope e x = .ok false y)
    (h : u.onlooker.Finds scope.comments (.element e) x.pos (.matched q)) : q = x.pos := by
  obtain rfl := he.eq_of_same
  obtain ⟨hb, rfl⟩ := enter_ok hd
  exact Resolver.enter_found hu.guide hx.commits he hx.lane hy.cut (Prod.ext hb rfl) h

theorem enter_astray (hd : u.enter scope e x = .ok b y) {f : Nat}
    (h : u.onlooker.Finds scope.comments (.element e) x.pos (.failed f))
    (hv : scope.follow.contains (u.stream.lookahead x.pos scope.comments) = true) : b = false := by
  obtain rfl := he.eq_of_same
  obtain ⟨hb, rfl⟩ := enter_ok hd
  exact Resolver.enter_lost hu.guide hx.commits he hx.lane hy.cut (Prod.ext hb rfl) h hv

/-- An item that is entered is the first one that the recognizer finds, and it moves. -/
theorem entered_led (ht : e.takes u.grammar.solid = true) {n need : Nat}
    (hd : u.enterItem scope e need x = .ok true y)
    (h : u.onlooker.Finds scope.comments (.items e n need) x.pos (.matched q))
    (hv : scope.follow.contains (u.stream.lookahead q scope.comments) = true) :
    ∃ w m, w ≠ y.pos ∧ u.onlooker.Finds scope.comments (.element e) y.pos (.matched w) ∧
      u.onlooker.Finds scope.comments (.items e m (need - 1)) w (.matched q) ∧
      (u.within e scope).follow.contains (u.stream.lookahead w scope.comments) = true := by
  rw [(enterItem_alike hd).pos]
  rcases Finds.of_items h with ⟨w, m, hw, h1, h2⟩ | ⟨rfl, h | ⟨rfl, f, h⟩⟩
  · exact ⟨w, m, hw, h1, h2, follow_within hu he h2 hv⟩
  · exact absurd (h.takes hu.guide.eof hu.guide.founded ht rfl) (Nat.lt_irrefl _)
  · rcases enterItem_ok hd with ⟨hneed, -⟩ | ⟨-, hd⟩
    · exact absurd hneed (Nat.lt_irrefl 0)
    · cases enter_astray hu hx he hy hd h hv

/-- Where no item is entered the recognizer finds none. -/
theorem not_entered_led {n need : Nat} (hd : u.enterItem scope e need x = .ok false y)
    (h : u.onlooker.Finds scope.comments (.items e n need) x.pos (.matched q)) : q = y.pos := by
  obtain ⟨-, hd⟩ := enter_of_not_enterItem hd
  rw [(enter_alike hd).pos]
  rcases Finds.of_items h with ⟨w, m, hw, h1, -⟩ | ⟨rfl, -⟩
  · exact absurd (enter_led hu hx he hy hd h1) hw
  · rfl

end

omit hx in
/-- What follows an element may follow it. -/
theorem follow_before {es : List Element} {w : Nat}
    (hl : inRow (Element.Leads keys inner scope.comments) es a b)
    (h : u.onlooker.Finds scope.comments (.row es) w (.matched q)) (hw : u.stream.Lane keys a w)
    (hv : b = scope.comments → scope.follow.contains (u.stream.lookahead q scope.comments) = true)
    (ha : a = scope.comments) :
    (u.before es scope).follow.contains (u.stream.lookahead w scope.comments) = true := by
  simp only [before, KindSet.contains_union, Bool.or_eq_true]
  rcases hu.guide.starts h hl with hopen | ⟨hempty, rfl⟩
  · exact .inl hopen
  · rw [if_pos (show u.grammar.rowNullable es = true from hempty)]
    exact .inr (hv (hw.unique (hu.guide.lane h hl hw) ▸ ha))

section

variable {c : Bool} {d d' : Builder} {x' : Session} (hl : u.stream.Lane keys b q)
include hl

/-- A token that the recognizer takes is there. -/
theorem expect_led {set : KindSet} (h : u.expect scope set d x = .ok d' x')
    (hne : u.stream.lookahead x.pos c ≠ .eof) (hnb : u.stream.lookahead x.pos c ≠ .blockComment)
    (hm : set.contains (u.stream.lookahead x.pos c) = true) (hq : q = u.stream.skip x.pos) :
    u.Led keys inner b x' ∧ x'.pos = q := by
  have he := Stream.not_atEnd_of_lookahead hu.regular.eof hne hnb
  rw [Stream.lookahead_eq_kind hnb] at hne hm
  obtain ⟨-, rfl⟩ := expect_standing hu.regular h (by simp [Stream.stands, hne, hm])
  rw [Stream.skip_of_not_atEnd he] at hq
  subst hq
  exact ⟨⟨((Advances.refl hx.fit).matchedAt he).fit, hx.errors, rfl, hx.commits, hl⟩, rfl⟩

theorem expect_token_led {k : Kind} (h : u.expect scope (.single k) d x = .ok d' x') (hk : k ≠ .blockComment)
    (hq : u.onlooker.behindToken? c k x.pos = some q) : u.Led keys inner b x' ∧ x'.pos = q := by
  rcases of_behindToken? hq with ⟨rfl, he, rfl⟩ | ⟨hne, rfl, hskip⟩
  · obtain ⟨rfl, -⟩ := expect_atEnd hu.regular h he
    exact ⟨hx.lane.unique hl ▸ hx, rfl⟩
  · exact expect_led hu hx hl h hne hk (by simp [onlooker]) hskip

omit hu in
theorem expectComment_led (h : u.expectComment scope d x = .ok d' x')
    (hq : u.onlooker.behind? c .comment x.pos = some q) : u.Led keys inner b x' ∧ x'.pos = q := by
  have ha := (Advances.refl hx.fit).expectComment h
  obtain ⟨i, hi, rfl⟩ := Option.map_eq_some_iff.1 hq
  rw [expectComment_eq, show u.stream.comment? x.pos = some i from hi] at h
  cases h
  exact ⟨⟨ha.fit, hx.errors, rfl, hx.commits, hl⟩, rfl⟩

end

/-- Behind an operator the recognizer finds what the parse reads next. -/
theorem operation_led {table : Table} {tier : Tier} {node : Rule} (hc : scope.comments = false) (ha : a = false)
    (ht : u.grammar.table? scope.rule = some table)
    (hl : table.lookup (u.stream.kind x.pos) = some (tier, node)) (he : u.stream.atEnd x.pos = false)
    (h : u.onlooker.Rest scope.comments scope.rule x.pos q) :
    u.Led keys inner a (x.checked.operatedAt (u.stream.settle x.pos)) ∧
      ∃ w, u.onlooker.Finds scope.comments (operandOf scope.rule node tier) (u.stream.settle x.pos + 1)
          (.matched w) ∧ u.onlooker.Rest scope.comments scope.rule w q := by
  subst ha
  have hlane := hx.lane.skip he (hu.guide.annotated.operators _ _ _ _ _ ht hl).1
  obtain ⟨w, hs, hrest⟩ := h.of_operator ht (by rw [hc]; exact hl)
  rw [show u.onlooker.stream.skip x.pos = u.stream.settle x.pos + 1 from Stream.skip_of_not_atEnd he] at hs
  exact ⟨hx.checked.operatedAt he hlane, w, hs, hrest⟩

end

end Setup

/-! ### Runs -/

namespace Task

/-- What the recognizer finds from `p` to `q` where a parser is at work. -/
def Sought (z : Recognizer) (p q : Nat) : Task → Prop
  | .element e scope => z.Finds scope.comments (.element e) p (.matched q)
  | .row es scope => z.Finds scope.comments (.row es) p (.matched q)
  | .items e _ scope need => ∃ n, z.Finds scope.comments (.items e n need) p (.matched q)
  | .body scope => z.Finds scope.comments (.operand scope.rule) p (.matched q)
  | .call r _ scope => ∃ w, z.Finds (scope.comments || z.grammar.aware r) (.operand r) p (.matched w) ∧
      z.Rest (scope.comments || z.grammar.aware r) r w q
  | .operators _ _ scope _ => z.Rest scope.comments scope.rule p q

/-- What the task does to where a parse stands, inside or outside of annotations. -/
def Leads (g : Grammar) (keys : KindSet) (inner : Rule → Bool) (a b : Bool) : Task → Prop
  | .element e scope => e.Leads keys inner scope.comments a b
  | .row es scope => Recognizer.inRow (Element.Leads keys inner scope.comments) es a b
  | .items e _ scope _ => b = a ∧ e.Leads keys inner scope.comments a a
  | .body scope => b = a ∧ (a = true → inner scope.rule = true) ∧ scope.comments = (a || g.aware scope.rule)
  | .call r _ scope => b = a ∧ scope.comments = a ∧ (a = true → inner r = true)
  | .operators _ _ scope _ => b = a ∧ scope.comments = a ∧ a = false

/-- Where the task stops, if the recognizer stops at `q`. Operators that bind too loosely are left to the rule
around. -/
def Stops (z : Recognizer) (w q : Nat) : Task → Prop
  | .element _ _ | .row _ _ | .items _ _ _ _ | .body _ => w = q
  | .call r level scope => z.Rest (scope.comments || z.grammar.aware r) r w q ∧ ∀ t tier node,
      z.grammar.table? r = some t → t.lookup (z.stream.kind w) = some (tier, node) → tier.level < level
  | .operators table level scope _ => z.Rest scope.comments scope.rule w q ∧ ∀ tier node,
      table.lookup (z.stream.kind w) = some (tier, node) → tier.level < level

/-- No operator binds more loosely than level 0, so none is left to the rule around. -/
theorem Stops.eq_of_loosest {u : Setup} {keys : KindSet} {inner : Rule → Bool} (hu : u.Guided keys inner)
    {r : Rule} {scope : Scope} {w q : Nat} (hr : scope.comments = true → inner r = true)
    (h : Stops u.onlooker w q (.call r 0 scope)) : w = q := by
  refine (h.1.eq_of_no_operator fun t tier node ht hlook => ?_).symm
  obtain ⟨hseen, haware⟩ := hu.guide.unseen (c := scope.comments) ht hr
  rw [hseen, show u.onlooker.grammar.aware r = false from haware] at hlook
  exact absurd (h.2 t tier node ht hlook) (Nat.not_lt_zero _)

end Task

namespace Setup

open Session Recognizer

variable {u : Setup} {keys : KindSet} {inner : Rule → Bool}

/-- A run goes the way of the recognizer, without an error. -/
theorem Runs.led (hu : u.Guided keys inner) {n : Nat} {task : Task} {x x' : Session} {b b' : Builder}
    (h : u.Runs n task x b x' b') {a d : Bool} (hx : u.Led keys inner a x) (hend : Unhindered x')
    (hf : task.Founded u.grammar) (hl : task.Leads u.grammar keys inner a d) {q : Nat}
    (hs : task.Sought u.onlooker x.pos q)
    (hv : d = task.scope.comments →
      task.scope.follow.contains (u.stream.lookahead q task.scope.comments) = true) :
    u.Led keys inner d x' ∧ task.Stops u.onlooker x'.pos q := by
  have hre := hu.regular
  have hfounded := hre.founded
  induction h generalizing a d q with
  | token h =>
    exact expect_token_led hu hx (hu.guide.lane hs hl hx.lane) h (Element.Leads.token hu.guide.annotated hl).1
      (Finds.of_single hs rfl)
  | relation h =>
    exact expect_token_led hu hx (hu.guide.lane hs hl hx.lane) h (Element.Leads.relation hl).1
      (Finds.of_single hs rfl)
  | oneOf h =>
    obtain ⟨hne, hnb, hm, hq⟩ := of_behind?_oneOf (Finds.of_single hs rfl)
    exact expect_led hu hx (hu.guide.lane hs hl hx.lane) h hne hnb hm hq
  | comment h => exact expectComment_led hx (hu.guide.lane hs hl hx.lane) h (Finds.of_single hs rfl)
  | @rule n r scope x b x' b' h ih =>
    obtain ⟨rfl, hc, hr⟩ := Element.Leads.rule hl
    obtain ⟨hx', hstops⟩ := ih hx hend trivial ⟨rfl, hc, hr⟩ (Finds.of_rule hs).of_call hv
    exact ⟨hx', hstops.eq_of_loosest hu (hc ▸ hr)⟩
  | ruleAt h ih => exact absurd hl Element.Leads.not_ruleAt
  | @present n e scope x b y x' b' hd h ih =>
    obtain ⟨rfl, he⟩ := Element.Leads.optional hl
    have hy := hx.enter hd
    rcases Finds.of_optional hs with hs | ⟨rfl, f, hs⟩
    · exact ih hy hend hf he ((enter_alike hd).pos ▸ hs) hv
    · cases enter_astray (e := e) hu hx he (hend.before (h.advances hre hy.fit)) hd hs (hv he.eq_of_same.symm)
  | @absent n e scope x b x' hd =>
    obtain ⟨rfl, he⟩ := Element.Leads.optional hl
    refine ⟨hx.enter hd, (enter_alike hd).pos.trans ?_⟩
    rcases Finds.of_optional hs with hs | ⟨rfl, -⟩
    · exact (enter_led (e := e) hu hx he hend hd hs).symm
    · rfl
  | repeated h ih =>
    simp only [Task.Founded, Element.founded, Bool.and_eq_true] at hf
    exact ih hx hend hf (Element.Leads.repeated hl) ⟨_, Finds.of_repeated hs⟩ hv
  | seq h ih => exact ih hx hend hf (Element.Leads.seq hl) (Finds.of_seq hs) hv
  | labeled h ih => exact ih hx hend hf (Element.Leads.labeled hl) (Finds.of_labeled hs) hv
  | nil =>
    cases hs
    obtain rfl := hl
    exact ⟨hx, rfl⟩
  | @cons n e es scope x b y c x' b' h1 h2 ih1 ih2 =>
    simp only [Task.Founded, allFounded, Bool.and_eq_true] at hf
    have hy := hend.before (h2.advances hre (h1.advances hre hx.fit).fit)
    obtain ⟨w, hs1, hs2⟩ := Finds.of_cons hs
    obtain ⟨m, hl1, hl2⟩ := hl
    obtain ⟨hys, rfl⟩ := ih1 hx hy hf.1 hl1 hs1
      (follow_before hu hl2 hs2 (hu.guide.lane hs1 hl1 hx.lane) hv)
    exact ih2 hys hend hf.2 hl2 hs2 hv
  | @moved n e resync scope need x b y z c x' b' hd h1 hz h2 ih1 ih2 =>
    obtain ⟨rfl, he⟩ := hl
    obtain ⟨m, hs⟩ := hs
    have hy := hx.checked.enterItem hd
    have hzf := (h1.advances hre hy.fit).fit
    have hzu := hend.before (h2.advances_from hre ((Advances.refl hzf).noted _))
    obtain ⟨w, m, -, hs1, hs2, hw⟩ := entered_led hu hx.checked he (hzu.before (h1.advances hre hy.fit)) hf.1 hd hs
      (hv he.eq_of_same.symm)
    obtain ⟨hzs, rfl⟩ := ih1 hy hzu hf.2 he hs1 fun _ => hw
    exact ih2 (hzs.noted _) hend hf ⟨rfl, he⟩ ⟨m, hs2⟩ hv
  | @stuck n e resync scope need x b y x' b' hd h1 hz hk ih =>
    obtain ⟨rfl, he⟩ := hl
    obtain ⟨m, hs⟩ := hs
    have hy := hx.checked.enterItem hd
    obtain ⟨w, m, hmoves, hs1, -, hw⟩ := entered_led hu hx.checked he (hend.before (h1.advances hre hy.fit)) hf.1 hd
      hs (hv he.eq_of_same.symm)
    obtain ⟨-, rfl⟩ := ih hy hend hf.2 he hs1 fun _ => hw
    exact absurd (hz.trans (enterItem_alike hd).pos.symm) hmoves
  | @freed n e resync scope need x b y z c w x' b' hd h1 hz hk hw h2 ih1 ih2 =>
    subst hw
    obtain ⟨rfl, he⟩ := hl
    obtain ⟨m, hs⟩ := hs
    have hy := hx.checked.enterItem hd
    have hzf := (h1.advances hre hy.fit).fit
    have hzu := hend.before (h2.advances_from hre (((Advances.refl hzf).strayed _ _ _ _ _ _).noted _))
    obtain ⟨w, m, hmoves, hs1, -, hw⟩ := entered_led hu hx.checked he (hzu.before (h1.advances hre hy.fit)) hf.1 hd
      hs (hv he.eq_of_same.symm)
    obtain ⟨-, rfl⟩ := ih1 hy hzu hf.2 he hs1 fun _ => hw
    exact absurd (hz.trans (enterItem_alike hd).pos.symm) hmoves
  | @ended n e resync scope need x b x' hd hk =>
    obtain ⟨rfl, he⟩ := hl
    obtain ⟨m, hs⟩ := hs
    exact ⟨hx.checked.enterItem hd, (not_entered_led hu hx.checked he hend hd hs).symm⟩
  | @resumed n e resync scope need x b y w x' b' hd hk hw h2 ih =>
    -- what is left may follow the list, so no token is skipped in front of it
    subst hw
    obtain ⟨rfl, he⟩ := hl
    obtain ⟨m, hs⟩ := hs
    have hy := hx.checked.enterItem hd
    have hyu := hend.before (h2.advances_from hre (((Advances.refl hy.fit).strayed _ _ _ _ _ _).noted _))
    obtain rfl := not_entered_led hu hx.checked he hyu hd hs
    have hfollow := hv he.eq_of_same.symm
    simp only [Task.scope] at hfollow
    simp [leaves, hfollow] at hk
  | @chosen n scope x b i y x' b' hd hi h ih =>
    obtain ⟨rfl, hr, hc⟩ := hl
    have hx' := hx.noted (.asked scope.rule scope.follow)
    have hy := hend.before (h.advances hre ((Advances.refl hx'.fit).decide hre hd).fit)
    obtain ⟨hys, j, hj, hrow⟩ := decide_led hu hx' hr hc hd hy hs hv
    cases hj
    exact ih hys hend (Resolver.allFounded_elements hfounded _ _)
      (Resolver.inRow_of_mem_choices hu.guide hr hc hi) ((decide_alike hd).pos ▸ hrow) hv
  | @lost n scope x b r p offset expected k y x' b' hd h =>
    obtain ⟨rfl, hr, hc⟩ := hl
    have hx' := hx.noted (.asked scope.rule scope.follow)
    have hy := hend.before
      (((Advances.refl ((Advances.refl hx'.fit).decide hre hd).fit).reported _ _ _).recover h)
    obtain ⟨-, j, hj, -⟩ := decide_led hu hx' hr hc hd hy hs hv
    cases hj
  | @refused r level scope x b x' b' h =>
    have hcalled := hx.called r scope
    exact absurd hend (not_unhindered_refused (hu.clean _) hu.reports hcalled.errors hcalled.recovering h)
  | @inlined n r level scope x b x' c ht hi h ih | @wrapped n r level scope x b x' c ht hi h ih =>
    obtain ⟨rfl, hc, hr⟩ := hl
    obtain ⟨w, hs, hrest⟩ := hs
    obtain rfl := hrest.eq_of_plain ht
    obtain ⟨hx', rfl⟩ := ih (hx.opened _ _ _) hend trivial ⟨rfl, hr, by rw [← hc]; rfl⟩ hs
      fun h => by rw [← h, ← hc]; exact hv hc.symm
    exact ⟨hx', .plain ht, fun t _ _ ht' => by cases ht.symm.trans ht'⟩
  | @climbed n r level scope x b table y c x' b' ht h1 h2 ih1 ih2 =>
    obtain ⟨rfl, hc, hr⟩ := hl
    obtain ⟨w, hs, hrest⟩ := hs
    obtain ⟨hseen, haware⟩ := hu.guide.unseen (c := scope.comments) ht (hc ▸ hr)
    have haware : u.grammar.aware r = false := haware
    rw [show u.onlooker.grammar.aware r = false from haware, Bool.or_false] at hs hrest
    have hxo := hx.opened r scope (.opened (u.settings.maxDepth - n))
    have hy := hend.before (h2.advances hre (h1.advances hre hxo.fit).fit)
    have hoperators : ∀ k, table.operators.contains k = true →
        (operandScope r table scope).follow.contains k = true := fun k hk => by simp [operandScope, hk]
    have hq : (operandScope r table scope).follow.contains (u.stream.lookahead q scope.comments) = true := by
      simp only [operandScope, KindSet.contains_union, Bool.or_eq_true]
      exact .inl (hv hc.symm)
    obtain ⟨hys, rfl⟩ := ih1 hxo hy trivial
      ⟨rfl, hr, show scope.comments = (d || u.grammar.aware r) by rw [hc, haware, Bool.or_false]⟩ hs
      fun _ => hrest.next_operator ht hoperators hq
    obtain ⟨hx', hrest', hlevel⟩ := ih2 hys hend ⟨ht, hoperators⟩ ⟨rfl, hc, hc ▸ hseen⟩ hrest fun _ => hq
    refine ⟨hx', ?_, fun t tier node ht' => ?_⟩
    · rw [show u.onlooker.grammar.aware r = false from haware, Bool.or_false]
      exact hrest'
    · cases ht.symm.trans ht'
      exact hlevel tier node
  | @done n table level scope left x b hlevel => exact ⟨hl.1 ▸ hx, hs, hlevel⟩
  | @binary n table level scope left x b tier node y c x' b' hlook hle hform he h1 h2 ih1 ih2 =>
    obtain ⟨rfl, hc, hout⟩ := hl
    have haware := (hu.guide.unseen hf.1 (c := false) (by simp)).2
    obtain ⟨hopened, w, hs, hrest⟩ := operation_led hu hx (hc.trans hout) hout hf.1 hlook he hs
    rw [operandOf, if_pos hform] at hs
    have hy := hend.before (h2.advances hre (h1.advances hre hopened.fit).fit)
    obtain ⟨hys, hrest', -⟩ := ih1 hopened hy trivial ⟨rfl, hc, fun h => (Bool.false_ne_true (hout ▸ h)).elim⟩
      ⟨w, by rwa [haware, Bool.or_false], by rwa [haware, Bool.or_false]⟩ hv
    rw [haware, Bool.or_false] at hrest'
    exact ih2 hys hend hf ⟨rfl, hc, hout⟩ hrest' hv
  | @suffix n table level scope left x b tier node y c x' b' hlook hle hform he h1 h2 ih1 ih2 =>
    obtain ⟨rfl, hc, hout⟩ := hl
    obtain ⟨hplain, haware⟩ := hu.nodes _ _ _ _ _ hf.1 hlook hform
    obtain ⟨hopened, w, hs, hrest⟩ := operation_led hu hx (hc.trans hout) hout hf.1 hlook he hs
    rw [operandOf, if_neg hform] at hs
    have hy := hend.before (h2.advances hre (h1.advances hre hopened.fit).fit)
    obtain ⟨w', hs, hnode⟩ := Finds.of_call hs
    obtain rfl := hnode.eq_of_plain hplain
    rw [show u.onlooker.grammar.aware node = false from haware, Bool.or_false] at hs
    obtain ⟨hys, rfl⟩ := ih1 hopened hy trivial
      ⟨rfl, fun h => (Bool.false_ne_true (hout ▸ h)).elim,
        show scope.comments = (d || u.grammar.aware node) by rw [hc, haware, Bool.or_false]⟩ hs
      fun _ => hrest.next_operator hf.1 hf.2 (hv hc.symm)
    exact ih2 hys hend hf ⟨rfl, hc, hout⟩ hrest hv

/-- A parse of a text that the recognizer matches to its end reports nothing. -/
theorem Rooted.led (hu : u.Guided keys inner) {r : Rule} {n : Node} {x : Session} (h : u.Rooted r n x)
    (hl : u.stream.size ≤ u.settings.lookahead) (hend : Unhindered x) {q : Nat}
    (hs : u.onlooker.Finds false (.call r) 0 (.matched q)) (hq : u.stream.atEnd q = true) : x.errors = [] := by
  obtain ⟨y, b, c, hrun, he, rfl⟩ := h
  have hx : u.Led keys inner false (.start u.settings) :=
    ⟨fit_start u, rfl, rfl, Resolver.commits_make hl _, Stream.lane_zero⟩
  have hy := (hrun.advances hu.regular hx.fit).fit
  have heof : u.stream.lookahead q false = .eof := by
    rw [Stream.lookahead, Bool.false_and, if_neg Bool.false_ne_true, Stream.kind, Stream.current_of_atEnd hq]
    exact hu.regular.eof
  obtain ⟨hled, hstops⟩ := hrun.led hu hx (hend.before ((Advances.refl hy).expectEnd he)) trivial
    ⟨rfl, rfl, fun h => by cases h⟩ hs.of_call fun _ => by simp [Task.scope, rootScope, endKinds, heof]
  obtain rfl := hstops.eq_of_loosest hu fun h => by cases h
  rw [expectEnd_eq, if_pos hq] at he
  cases he
  exact hled.errors

end Setup

/-! ### The language -/

/-- What a recognizer that may look at the whole text makes of it. -/
def recognize (r : Rule) (ts : List Token) : Outcome × Trial :=
  let s := Stream.ofTokens ts
  (⟨kerml, s, s.size⟩ : Recognizer).call Recognizer.maxNesting false r (.start 0 .empty)

theorem guide_ofTokens (ts : List Token) (settings : Settings) :
    (Setup.ofTokens ts settings).onlooker.Guide annotationKeys innerRule where
  whole := rfl
  eof := Stream.kind_eof_ofTokens ts
  founded := founded_kerml
  annotated := annotated_kerml
  covered := covered_kerml
  told := fun r hr k => secluded_kerml.tells r k (.inl (secluded_kerml.aware r hr))

theorem guided_ofTokens {ts : List Token} {settings : Settings} (hm : settings.maxErrors ≠ some 0) {r : Rule}
    {q : Nat} (hs : (Setup.ofTokens ts settings).onlooker.Finds false (.call r) 0 (.matched q))
    (hq : (Stream.ofTokens ts).atEnd q = true) : (Setup.ofTokens ts settings).Guided annotationKeys innerRule where
  regular := regular_ofTokens ts settings
  guide := guide_ofTokens ts settings
  nodes := fun q t k tier node ht hl hf => by
    refine ⟨table?_node_kerml ht hl hf, aside_kerml.operators q t (Bool.eq_false_iff.2 fun ha => ?_) ht _ _ _ hl⟩
    cases ht.symm.trans (annotated_kerml.table q (.inl ha))
  clean := (hs.clean (Stream.kind_eof_ofTokens ts) annotated_kerml ⟨rfl, rfl, fun h => by cases h⟩ rfl).kind_ne_error
    (Stream.kind_eof_ofTokens ts) hq
  reports := hm

theorem finds_of_recognize {r : Rule} {ts : List Token} (settings : Settings)
    (hmatched : (recognize r ts).1 = .matched) (huncut : (recognize r ts).2.cut = false) :
    (Setup.ofTokens ts settings).onlooker.Finds false (.call r) 0 (.matched (recognize r ts).2.pos) := by
  have h : Recognizer.verdict (recognize r ts) = .matched (recognize r ts).2.pos :=
    Outcome.verdict_eq_matched.2 ⟨hmatched, rfl⟩
  exact h ▸ (Recognizer.Lanes.retraces_call (l := (guide_ofTokens ts settings).lanes) Recognizer.maxNesting false r
    false ⟨rfl, fun h => by cases h⟩ (.start 0 .empty) fun _ => ⟨Stream.lane_zero, Memo.holds_empty _⟩).finds huncut

/-- What the recognizer matches to its end a parse reads without an error, at least where a trial may look at the
whole text, no trial is cut and the limit on open rules is not met. -/
theorem parseTokens_recognized (r : Rule) (ts : List Token) (settings : Settings)
    (hmatched : (recognize r ts).1 = .matched) (hstop : (Stream.ofTokens ts).atEnd (recognize r ts).2.pos = true)
    (huncut : (recognize r ts).2.cut = false) (hl : ts.length ≤ settings.lookahead) (hn : settings.cancel = none)
    (hu : Setup.Unhindered ((Setup.ofTokens ts settings).last r)) :
    ∃ p, (parseTokens r ts settings).1 = .ok p ∧ p.errors = [] := by
  obtain ⟨p, hp⟩ := parseTokens_answers r ts hn
  obtain ⟨hr, he⟩ := rooted_last hp
  refine ⟨p, hp, he ▸ ?_⟩
  by_cases hm : settings.maxErrors = some 0
  · exact hr.mute (regular_ofTokens ts settings) hm
  have hs := finds_of_recognize settings hmatched huncut
  exact hr.led (guided_ofTokens hm hs hstop) hl hu hs hstop

/-- A note, and a function whose body might begin with a feature. -/
theorem parseTokens_recognized_function :
    let ts := scan "doc /* sums */ function F \x7b in a; a + b \x7d"
    ((recognize .rootNamespace ts).1 = .matched ∧
      (Stream.ofTokens ts).atEnd (recognize .rootNamespace ts).2.pos = true ∧
      (recognize .rootNamespace ts).2.cut = false ∧
      Setup.Unhindered ((Setup.ofTokens ts .standard).last .rootNamespace)) ∧
    ∃ p, (parseTokens .rootNamespace ts .standard).1 = .ok p ∧ p.errors = [] := by
  intro ts
  have h : (recognize .rootNamespace ts).1 = .matched ∧
      (Stream.ofTokens ts).atEnd (recognize .rootNamespace ts).2.pos = true ∧
      (recognize .rootNamespace ts).2.cut = false ∧ ts.length ≤ Settings.standard.lookahead ∧
      ((Setup.ofTokens ts .standard).last .rootNamespace).resolver.cut = false ∧
      (∀ e ∈ ((Setup.ofTokens ts .standard).last .rootNamespace).errors, e.code ≠ .nestingTooDeep) := by
    decide +kernel
  exact ⟨⟨h.1, h.2.1, h.2.2.1, h.2.2.2.2.1, h.2.2.2.2.2⟩,
    parseTokens_recognized _ _ _ h.1 h.2.1 h.2.2.1 h.2.2.2.1 rfl ⟨h.2.2.2.2.1, h.2.2.2.2.2⟩⟩

end KermlText
