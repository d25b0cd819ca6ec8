import KermlText.Proofs.Actions

/-! Runs: what a parse did, without the bounds on its loops. A run follows the tasks of the parser, an
element, a row, a list, a rule and the operators behind an operand, and has one constructor for each
thing that a task can do. A proof about all parses is an induction over runs. -/

namespace KermlText

/-- What a parser may be at work on. Operators are read behind `left`. -/
inductive Task where
  | element (e : Element) (scope : Scope)
  | row (es : List Element) (scope : Scope)
  | items (e : Element) (resync : Bool) (scope : Scope) (need : Nat)
  | body (scope : Scope)
  | call (r : Rule) (level : Nat) (scope : Scope)
  | operators (table : Table) (level : Nat) (scope : Scope) (left : Node)

/-- The session when the operator at `place` has been taken. -/
def Session.operatedAt (x : Session) (place : Nat) : Session :=
  { x with pos := place + 1, journal := .matched place :: x.journal }

/-- The session when a rule has been called and may be opened. -/
def Session.called (x : Session) (r : Rule) (scope : Scope) : Session :=
  (x.noted (.called r scope.follow)).checked

namespace Setup

open Session

variable (u : Setup)

/-- The scope inside a rule. -/
def inside (r : Rule) (scope : Scope) : Scope :=
  { scope with rule := r, comments := scope.comments || (u.grammar.definition r).comments }

/-- The scope of an operand: operators may follow it. -/
def operandScope (r : Rule) (table : Table) (scope : Scope) : Scope :=
  { scope with rule := r, follow := scope.follow ∪ table.operators }

/-- A run of a task with room for so many rules inside one another. -/
inductive Runs : Nat → Task → Session → Builder → Session → Builder → Prop
  | token {n k scope x b x' b'} (h : u.expect scope (.single k) b x = .ok b' x') :
      Runs n (.element (.token k) scope) x b x' b'
  | relation {n k r scope x b x' b'} (h : u.expect scope (.single k) b x = .ok b' x') :
      Runs n (.element (.relation k r) scope) x b x' b'
  | oneOf {n ks scope x b x' b'} (h : u.expect scope ks b x = .ok b' x') :
      Runs n (.element (.oneOf ks) scope) x b x' b'
  | comment {n scope x b x' b'} (h : u.expectComment scope b x = .ok b' x') :
      Runs n (.element .comment scope) x b x' b'
  | rule {n r scope x b x' b'} (h : Runs n (.call r 0 scope) x b x' b') :
      Runs n (.element (.rule r) scope) x b x' b'
  | ruleAt {n r level scope x b x' b'} (h : Runs n (.call r level scope) x b x' b') :
      Runs n (.element (.ruleAt r level) scope) x b x' b'
  | present {n e scope x b y x' b'} (he : u.enter scope e x = .ok true y)
      (h : Runs n (.element e scope) y b x' b') : Runs n (.element (.optional e) scope) x b x' b'
  | absent {n e scope x b x'} (he : u.enter scope e x = .ok false x') :
      Runs n (.element (.optional e) scope) x b x' b
  | repeated {n e least resync scope x b x' b'}
      (h : Runs n (.items e resync scope least) x b x' b') :
      Runs n (.element (.repeated e least resync) scope) x b x' b'
  | seq {n es scope x b x' b'} (h : Runs n (.row es scope) x b x' b') :
      Runs n (.element (.seq es) scope) x b x' b'
  | labeled {n name many e scope x b x' b'} (h : Runs n (.element e scope) x b x' b') :
      Runs n (.element (.labeled name many e) scope) x b x'
        (b'.label name many b.size e.catchesTokens e.relation?)
  | nil {n scope x b} : Runs n (.row [] scope) x b x b
  | cons {n e es scope x b y c x' b'} (h1 : Runs n (.element e (u.before es scope)) x b y c)
      (h2 : Runs n (.row es scope) y c x' b') : Runs n (.row (e :: es) scope) x b x' b'
  | moved {n e resync scope need x b y z c x' b'}
      (he : u.enterItem scope e need x.checked = .ok true y)
      (h1 : Runs n (.element e (u.within e scope)) y b z c) (hz : z.pos ≠ x.pos)
      (h2 : Runs n (.items e resync scope (need - 1)) (z.noted (.again x.pos z.pos)) c x' b') :
      Runs n (.items e resync scope need) x b x' b'
  | stuck {n e resync scope need x b y x' b'}
      (he : u.enterItem scope e need x.checked = .ok true y)
      (h1 : Runs n (.element e (u.within e scope)) y b x' b') (hz : x'.pos = x.pos)
      (hk : stops resync scope (u.stream.kind x'.pos) = true) :
      Runs n (.items e resync scope need) x b x' b'
  | freed {n e resync scope need x b y z c w x' b'}
      (he : u.enterItem scope e need x.checked = .ok true y)
      (h1 : Runs n (.element e (u.within e scope)) y b z c) (hz : z.pos = x.pos)
      (hk : stops resync scope (u.stream.kind z.pos) = false)
      (hw : w = (u.reported .unexpectedToken scope.rule (scope.follow ∪ u.grammar.firstOf e) z).skippedOver
        scope.context (u.stream.placesUpTo ∅ 1 z.pos))
      (h2 : Runs n (.items e resync scope (need - 1)) (w.noted (.again x.pos w.pos))
        (c.pushNode? (u.strays (u.stream.placesUpTo ∅ 1 z.pos))) x' b') :
      Runs n (.items e resync scope need) x b x' b'
  | ended {n e resync scope need x b x'}
      (he : u.enterItem scope e need x.checked = .ok false x')
      (hk : u.leaves e resync scope (u.stream.lookahead x'.pos scope.comments) = true) :
      Runs n (.items e resync scope need) x b x' b
  | resumed {n e resync scope need x b y w x' b'}
      (he : u.enterItem scope e need x.checked = .ok false y)
      (hk : u.leaves e resync scope (u.stream.lookahead y.pos scope.comments) = false)
      (hw : w = (u.reported .unexpectedToken scope.rule (scope.follow ∪ u.grammar.firstOf e) y).skippedOver
        scope.context (u.passed (scope.follow ∪ u.grammar.firstOf e ∪ endKinds) y))
      (h2 : Runs n (.items e resync scope need) (w.noted (.again x.pos w.pos))
        (b.pushNode? (u.strays (u.passed (scope.follow ∪ u.grammar.firstOf e ∪ endKinds) y))) x' b') :
      Runs n (.items e resync scope need) x b x' b'
  | chosen {n scope x b i y x' b'}
      (hd : u.decide scope (x.noted (.asked scope.rule scope.follow)) = .ok (.ok i) y)
      (hi : i ∈ u.grammar.choices scope.rule)
      (h : Runs n (.row (Resolver.elements u.grammar scope.rule i) scope) y b x' b') :
      Runs n (.body scope) x b x' b'
  | lost {n scope x b r p offset expected k y x' b'}
      (hd : u.decide scope (x.noted (.asked scope.rule scope.follow)) =
        .ok (.error (.noAlternative r p offset expected k)) y)
      (h : u.recover scope scope.rule b (u.reported .noAlternative scope.rule expected y) = .ok b' x') :
      Runs n (.body scope) x b x' b'
  | refused {r level scope x b x' b'}
      (h : u.recover scope r b
        (u.reported .nestingTooDeep r (u.grammar.first r) (x.called r scope)) = .ok b' x') :
      Runs 0 (.call r level scope) x b x' b'
  | inlined {n r level scope x b x' b'} (ht : u.grammar.table? r = none)
      (hi : (u.grammar.definition r).inline = true)
      (h : Runs n (.body (u.inside r scope))
        ((x.called r scope).noted (.opened (u.settings.maxDepth - n))) b x' b') :
      Runs (n + 1) (.call r level scope) x b x' b'
  | wrapped {n r level scope x b x' c} (ht : u.grammar.table? r = none)
      (hi : (u.grammar.definition r).inline = false)
      (h : Runs n (.body (u.inside r scope))
        ((x.called r scope).noted (.opened (u.settings.maxDepth - n))) (.start r) x' c) :
      Runs (n + 1) (.call r level scope) x b x' (b.pushNode c.finish)
  | climbed {n r level scope x b table y c x' b'} (ht : u.grammar.table? r = some table)
      (h1 : Runs n (.body (operandScope r table scope))
        ((x.called r scope).noted (.opened (u.settings.maxDepth - n))) (.start r) y c)
      (h2 : Runs n (.operators table level (operandScope r table scope) (c.single?.getD c.finish))
        y b x' b') :
      Runs (n + 1) (.call r level scope) x b x' b'
  | done {n table level scope left x b}
      (hl : ∀ tier rule, table.lookup (u.stream.kind x.pos) = some (tier, rule) → tier.level < level) :
      Runs n (.operators table level scope left) x b x (b.pushNode left)
  | binary {n table level scope left x b tier rule y c x' b'}
      (hl : table.lookup (u.stream.kind x.pos) = some (tier, rule)) (hle : level ≤ tier.level)
      (hf : tier.form = .binary) (he : u.stream.atEnd x.pos = false)
      (h1 : Runs n (.call scope.rule tier.operandLevel scope)
        (x.checked.operatedAt (u.stream.settle x.pos))
        (.operator rule left (u.stream.current x.pos)) y c)
      (h2 : Runs n (.operators table level scope
        (c.label "right" false (Builder.operator rule left (u.stream.current x.pos)).size false
          none).finish) y b x' b') :
      Runs n (.operators table level scope left) x b x' b'
  | suffix {n table level scope left x b tier rule y c x' b'}
      (hl : table.lookup (u.stream.kind x.pos) = some (tier, rule)) (hle : level ≤ tier.level)
      (hf : tier.form ≠ .binary) (he : u.stream.atEnd x.pos = false)
      (h1 : Runs n (.body { scope with rule := rule })
        (x.checked.operatedAt (u.stream.settle x.pos))
        (.operator rule left (u.stream.current x.pos)) y c)
      (h2 : Runs n (.operators table level scope c.finish) y b x' b') :
      Runs n (.operators table level scope left) x b x' b'

/-! ### Runs go on -/

/-- The session stands inside the stream, and its resolver remembers only what was decided. -/
structure Fit (x : Session) : Prop where
  inside : x.pos ≤ u.stream.size
  valid : x.resolver.Valid u.grammar

theorem fit_start : u.Fit (.start u.settings) :=
  ⟨Nat.zero_le _, Resolver.valid_make _ _⟩

/-- What leads from `x` to `y` goes on in the stream, if at all, and only adds errors. A parse that
recovers has reported why, if it may report anything, and it is never forgotten that a trial was cut. -/
structure Advances (x y : Session) : Prop where
  fit : u.Fit y
  le : x.pos ≤ y.pos
  errors : x.errors <+: y.errors
  recovers : y.recovering = true →
    x.recovering = true ∨ y.errors ≠ [] ∨ u.settings.maxErrors = some 0
  mute : u.settings.maxErrors = some 0 → y.errors = x.errors
  cut : x.resolver.cut = true → y.resolver.cut = true

namespace Advances

variable {u} {x y z : Session}

theorem refl (h : u.Fit x) : u.Advances x x :=
  ⟨h, Nat.le_refl _, List.prefix_refl _, Or.inl, fun _ => rfl, id⟩

theorem errors_nil (h : u.Advances x y) (hy : y.errors = []) : x.errors = [] :=
  List.prefix_nil.1 (hy ▸ h.errors)

theorem trans (h1 : u.Advances x y) (h2 : u.Advances y z) : u.Advances x z := by
  refine ⟨h2.fit, Nat.le_trans h1.le h2.le, h1.errors.trans h2.errors, fun hz => ?_,
    fun hm => (h2.mute hm).trans (h1.mute hm), fun hc => h2.cut (h1.cut hc)⟩
  rcases h2.recovers hz with hy | hy
  · exact (h1.recovers hy).imp_right (Or.imp_left fun he hn => he (h2.errors_nil hn))
  · exact .inr hy

/-- A step that reports nothing. -/
theorem still (h : u.Advances x y) (hz : u.Fit z) (hp : y.pos ≤ z.pos) (he : z.errors = y.errors)
    (hr : z.recovering = true → y.recovering = true)
    (hc : y.resolver.cut = true → z.resolver.cut = true) : u.Advances x z :=
  ⟨hz, Nat.le_trans h.le hp, he ▸ h.errors, fun hz => he ▸ h.recovers (hr hz),
    fun hm => he.trans (h.mute hm), fun hx => hc (h.cut hx)⟩

theorem noted (h : u.Advances x y) (e : Event) : u.Advances x (y.noted e) :=
  h.still ⟨h.fit.inside, h.fit.valid⟩ (Nat.le_refl _) rfl id id

theorem checked (h : u.Advances x y) : u.Advances x y.checked :=
  h.still ⟨h.fit.inside, h.fit.valid⟩ (Nat.le_refl _) rfl id id

theorem called (h : u.Advances x y) (r : Rule) (scope : Scope) :
    u.Advances x (y.called r scope) := (h.noted _).checked

theorem asked (h : u.Advances x y) {z : Resolver} (hz : z.Valid u.grammar)
    (hc : y.resolver.cut = true → z.cut = true) : u.Advances x (y.asked z) :=
  h.still ⟨h.fit.inside, hz⟩ (Nat.le_refl _) rfl id hc

theorem kept (h : u.Advances x y) {ts : List Token} (hk : u.stream.Kept y.pos ts z.pos)
    (hz : z.resolver = y.resolver) (he : z.errors = y.errors)
    (hr : z.recovering = true → y.recovering = true) : u.Advances x z :=
  h.still ⟨hk.le_size, hz ▸ h.fit.valid⟩ hk.le he hr fun hc => hz ▸ hc

theorem skippedOver (h : u.Advances x y) (context sync : KindSet) (n : Nat) :
    u.Advances x (y.skippedOver context (u.stream.placesUpTo sync n y.pos)) := by
  unfold Session.skippedOver
  split
  · exact h
  · rename_i last hl
    exact h.kept (u.stream.kept_placesUpTo h.fit.inside hl) rfl rfl id

theorem matchedAt (h : u.Advances x y) (he : u.stream.atEnd y.pos = false) :
    u.Advances x (y.matchedAt (u.stream.settle y.pos)) :=
  h.kept (.current h.fit.inside he) rfl rfl fun hr => absurd hr Bool.false_ne_true

theorem operatedAt (h : u.Advances x y) (he : u.stream.atEnd y.pos = false) :
    u.Advances x (y.operatedAt (u.stream.settle y.pos)) :=
  h.kept (.current h.fit.inside he) rfl rfl id

/-- Behind a report a parse may recover. -/
theorem recovering (h : u.Advances x y) (code : Code) (r : Rule) (expected : KindSet) :
    x.recovering = true ∨ (u.reported code r expected y).errors ≠ [] ∨
      u.settings.maxErrors = some 0 := by
  unfold Setup.reported
  split
  · rename_i hr
    exact h.recovers hr
  · split
    · rename_i hm
      rcases hs : u.settings.maxErrors with _ | _ | n
      · simp [hs] at hm
      · exact .inr (.inr rfl)
      · refine .inr (.inl fun he => ?_)
        simp [hs, he] at hm
    · exact .inr (.inl (by simp))

theorem reported (h : u.Advances x y) (code : Code) (r : Rule) (expected : KindSet) :
    u.Advances x (u.reported code r expected y) :=
  ⟨⟨by simpa using h.fit.inside, by simpa using h.fit.valid⟩, by simpa using h.le,
    h.errors.trans (u.errors_prefix_reported code r expected y), fun _ => h.recovering code r expected,
    fun hm => (u.errors_reported_of_mute code r expected y hm).trans (h.mute hm), by simpa using h.cut⟩

/-- Reporting does not move, so it does not matter whether tokens are skipped from before it. -/
theorem strayed (h : u.Advances x y) (code : Code) (r : Rule) (expected context sync : KindSet)
    (n : Nat) :
    u.Advances x ((u.reported code r expected y).skippedOver context
      (u.stream.placesUpTo sync n y.pos)) := by
  have hs := (h.reported code r expected).skippedOver context sync n
  rwa [reported_pos] at hs

theorem missed (h : u.Advances x y) (scope : Scope) (set : KindSet) :
    u.Advances x (u.missed scope set y) :=
  h.strayed _ _ _ _ _ _

theorem expectComment (h : u.Advances x y) {scope : Scope} {b b' : Builder}
    (he : u.expectComment scope b y = .ok b' z) : u.Advances x z := by
  rw [expectComment_eq] at he
  split at he
  · rename_i i hi
    cases he
    exact h.kept (.comment hi) rfl rfl fun hr => absurd hr Bool.false_ne_true
  · cases he
    exact h.reported _ _ _

theorem recover (h : u.Advances x y) {scope : Scope} {r : Rule} {b b' : Builder}
    (he : u.recover scope r b y = .ok b' z) : u.Advances x z := by
  rw [recover_eq] at he
  cases he
  exact h.skippedOver _ _ _

theorem enter (h : u.Advances x y) {scope : Scope} {e : Element} {d : Bool}
    (hd : u.enter scope e y = .ok d z) : u.Advances x z := by
  obtain ⟨-, rfl⟩ := enter_ok hd
  exact h.asked (Resolver.enter_valid h.fit.valid _ _ _ _) Resolver.enter_cut

theorem enterItem (h : u.Advances x y) {scope : Scope} {e : Element} {need : Nat} {d : Bool}
    (hd : u.enterItem scope e need y = .ok d z) : u.Advances x z := by
  rcases enterItem_ok hd with ⟨-, -, rfl⟩ | ⟨-, hd⟩
  · exact h
  · exact h.enter hd

theorem expectEnd (h : u.Advances x y) {scope : Scope} {r : Rule} {b b' : Builder}
    (he : u.expectEnd scope r b y = .ok b' z) : u.Advances x z := by
  rw [expectEnd_eq] at he
  split at he
  · cases he
    exact h
  · cases he
    exact h.strayed _ _ _ _ _ _

theorem expect (h : u.Advances x y) (hu : u.Regular) {scope : Scope} {set : KindSet}
    {b b' : Builder} (he : u.expect scope set b y = .ok b' z) : u.Advances x z := by
  rw [expect_eq hu] at he
  split at he
  · exact h.expectEnd he
  · split at he
    · rename_i hst
      cases he
      exact h.matchedAt (Stream.not_atEnd_of_stands hu.eof hst)
    · dsimp only at he
      split at he
      · rename_i hst
        cases he
        exact (h.missed scope set).matchedAt (Stream.not_atEnd_of_stands hu.eof hst)
      · cases he
        have hm := h.missed scope set
        refine ⟨⟨hm.fit.inside, hm.fit.valid⟩, hm.le, hm.errors, fun _ => ?_, hm.mute, hm.cut⟩
        simpa [Setup.missed] using h.recovering _ _ _

theorem decide (h : u.Advances x y) (hu : u.Regular) {scope : Scope} {d : Except Failure Nat}
    (hd : u.decide scope y = .ok d z) : u.Advances x z := by
  rw [decide_eq] at hd
  cases hd
  exact h.asked (Resolver.decide_answers hu.eof hu.founded h.fit.valid h.fit.inside _ _ _).2
    Resolver.decide_cut

end Advances

section

variable {u} (hu : u.Regular)
include hu

/-- A list that can do nothing with a token skips it. -/
theorem placesUpTo_ne_nil_of_stops {resync : Bool} {scope : Scope} {pos : Nat}
    (h : stops resync scope (u.stream.kind pos) = false) : u.stream.placesUpTo ∅ 1 pos ≠ [] := by
  intro hp
  simp only [stops, Bool.or_eq_false_iff, decide_eq_false_iff_not] at h
  have he := Stream.not_atEnd_of_kind hu.eof h.1.2
  rw [Stream.placesUpTo_eq_nil (by decide)] at hp
  simp [he] at hp

/-- A list that goes on in front of a token that is no item skips it. -/
theorem passed_ne_nil_of_leaves {e : Element} {resync : Bool} {scope : Scope} {x : Session}
    (h : u.leaves e resync scope (u.stream.lookahead x.pos scope.comments) = false) :
    u.passed (scope.follow ∪ u.grammar.firstOf e ∪ endKinds) x ≠ [] := by
  intro hp
  simp only [leaves, Bool.or_eq_false_iff, decide_eq_false_iff_not] at h
  obtain ⟨⟨⟨⟨⟨-, hend⟩, hcomment⟩, hfollow⟩, hfirst⟩, -⟩ := h
  rw [Stream.lookahead_eq_kind hcomment] at hend hfollow hfirst
  have he := Stream.not_atEnd_of_kind hu.eof hend
  have hsize := Stream.settle_lt_of_not_atEnd u.stream he
  rw [passed, Stream.placesUpTo_eq_nil (by omega)] at hp
  simp [he, hfollow, hfirst, endKinds, Ne.symm hend] at hp

/-- A run that starts inside the stream ends there, at the same place or further on. -/
theorem Runs.advances {n : Nat} {task : Task} {x x' : Session} {b b' : Builder}
    (h : u.Runs n task x b x' b') (hx : u.Fit x) : u.Advances x x' := by
  -- everything is reached from `x₀` where the whole run started
  suffices ∀ x₀, u.Advances x₀ x → u.Advances x₀ x' from this x (.refl hx)
  clear hx
  intro x₀ hx
  induction h with
  | token h => exact hx.expect hu h
  | relation h => exact hx.expect hu h
  | oneOf h => exact hx.expect hu h
  | comment h => exact hx.expectComment h
  | rule _ ih => exact ih hx
  | ruleAt _ ih => exact ih hx
  | present he _ ih => exact ih (hx.enter he)
  | absent he => exact hx.enter he
  | repeated _ ih => exact ih hx
  | seq _ ih => exact ih hx
  | labeled _ ih => exact ih hx
  | nil => exact hx
  | cons _ _ ih1 ih2 => exact ih2 (ih1 hx)
  | moved he _ _ _ ih1 ih2 => exact ih2 ((ih1 (hx.checked.enterItem he)).noted _)
  | stuck he _ _ _ ih => exact ih (hx.checked.enterItem he)
  | freed he _ _ _ hw _ ih1 ih2 =>
    subst hw
    exact ih2 (((ih1 (hx.checked.enterItem he)).strayed _ _ _ _ _ _).noted _)
  | ended he _ => exact hx.checked.enterItem he
  | resumed he _ hw _ ih =>
    subst hw
    exact ih (((hx.checked.enterItem he).strayed _ _ _ _ _ _).noted _)
  | chosen hd _ _ ih => exact ih ((hx.noted _).decide hu hd)
  | lost hd h => exact (((hx.noted _).decide hu hd).reported _ _ _).recover h
  | refused h => exact ((hx.called _ _).reported _ _ _).recover h
  | inlined _ _ _ ih => exact ih ((hx.called _ _).noted _)
  | wrapped _ _ _ ih => exact ih ((hx.called _ _).noted _)
  | climbed _ _ _ ih1 ih2 => exact ih2 (ih1 ((hx.called _ _).noted _))
  | done _ => exact hx
  | binary _ _ _ he _ _ ih1 ih2 => exact ih2 (ih1 (hx.checked.operatedAt he))
  | suffix _ _ _ he _ _ ih1 ih2 => exact ih2 (ih1 (hx.checked.operatedAt he))

theorem Runs.advances_from {n : Nat} {task : Task} {x y x' : Session} {b b' : Builder}
    (h : u.Runs n task y b x' b') (hy : u.Advances x y) : u.Advances x x' :=
  hy.trans (h.advances hu hy.fit)

end

end Setup

end KermlText
