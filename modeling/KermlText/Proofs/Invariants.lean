import KermlText.Proofs.Answers

/-! What holds of every session of a parse, also of one that is called off. For it to hold of the last
session it is enough that it holds at the start and that no step breaks it. -/

namespace KermlText

/-- The session behind an action, whether or not it failed. -/
def Session.after {α : Type} (m : Action α) (x : Session) : Session :=
  match m x with
  | .ok _ y | .error _ y => y

namespace Setup

open Session

/-- No step of a parse breaks `p`. -/
structure Keeps (u : Setup) (p : Session → Prop) : Prop where
  called {x r follow} : p x → p (x.noted (.called r follow))
  opened {x depth} : p x → p (x.noted (.opened depth))
  asked {x r follow} : p x → p (x.noted (.asked r follow))
  again {x before} : before < x.pos → p x → p (x.noted (.again before x.pos))
  checked {x} : p x → p x.checked
  decided {x} (z : Resolver) : p x → p (x.asked z)
  matched {x place} : x.pos ≤ place → place < u.stream.size → p x → p (x.matchedAt place)
  operated {x place} : x.pos ≤ place → place < u.stream.size → p x → p (x.operatedAt place)
  skipped {x} (context sync : KindSet) (n : Nat) : p x →
    p (x.skippedOver context (u.stream.placesUpTo sync n x.pos))
  reported {x} (code : Code) (r : Rule) (expected : KindSet) : p x → p (u.reported code r expected x)
  recovers {x} : p x → p { x with recovering := true }

section

variable {α β : Type} {m : Action α} {k : α → Action β} {x y : Session} {a : α} {p : Session → Prop}

theorem holds_ok (h : m x = .ok a y) (hy : p y) : p (after m x) := by
  unfold after
  rwa [h]

theorem after_bind_ok (h : m x = .ok a y) : after (m >>= k) x = after (k a) y := by
  unfold after
  rw [bind_ok h]

theorem after_bind_get (k : Session → Action β) (x : Session) : after (get >>= k) x = after (k x) x := rfl

theorem after_bind_note (e : Event) (k : Unit → Action β) (x : Session) :
    after (note e >>= k) x = after (k ()) (x.noted e) := rfl

theorem after_bind_moveTo (place : Nat) (k : Unit → Action β) (x : Session) :
    after (moveTo place >>= k) x = after (k ()) { x with pos := place } := rfl

theorem after_bind_kind (u : Setup) (k : Kind → Action β) (x : Session) :
    after (u.kind >>= k) x = after (k (u.stream.kind x.pos)) x := rfl

theorem after_bind_lookahead (u : Setup) (scope : Scope) (k : Kind → Action β) (x : Session) :
    after (u.lookahead scope >>= k) x = after (k (u.stream.lookahead x.pos scope.comments)) x := rfl

/-- What fails early stops there. -/
theorem holds_bind (hm : p (after m x)) (hk : ∀ a y, m x = .ok a y → p y → p (after (k a) y)) :
    p (after (m >>= k) x) := by
  unfold after at hm ⊢
  rw [bind_apply]
  rcases h : m x with ⟨a, y⟩ | ⟨f, y⟩
  · rw [h] at hm
    exact hk a y h hm
  · rw [h] at hm
    exact hm

end

variable {u : Setup} {p : Session → Prop}

namespace Keeps

/-! ### Steps -/

variable (hp : u.Keeps p) {x : Session} (hx : p x)
include hp hx

theorem checkCancelled : p (after u.checkCancelled x) := by
  unfold after Setup.checkCancelled
  simp only [bind_apply, get_apply]
  dsimp only [set, MonadStateOf.set, EStateM.set]
  rcases u.settings.isCancelled x.checks x.sent.length with _ | _ <;> exact hp.checked hx

theorem enter (scope : Scope) (e : Element) : p (after (u.enter scope e) x) := by
  unfold after
  rw [enter_eq]
  dsimp only
  rcases (x.resolver.enter u.grammar u.stream x.pos e scope.follow scope.comments).1 with _ | _ <;>
    exact hp.decided _ hx

theorem enterItem (scope : Scope) (e : Element) (need : Nat) : p (after (u.enterItem scope e need) x) := by
  unfold Setup.enterItem
  split
  · exact hx
  · exact hp.enter hx scope e

theorem strayed (code : Code) (r : Rule) (expected context sync : KindSet) (n : Nat) :
    p ((u.reported code r expected x).skippedOver context (u.stream.placesUpTo sync n x.pos)) := by
  have h := hp.skipped context sync n (hp.reported code r expected hx)
  rwa [reported_pos] at h

theorem expectEnd (scope : Scope) (r : Rule) (b : Builder) : p (after (u.expectEnd scope r b) x) := by
  have h := u.expectEnd_eq scope r b x
  split at h
  · exact holds_ok h hx
  · exact holds_ok h (hp.strayed hx _ _ _ _ _ _)

theorem recover (scope : Scope) (r : Rule) (b : Builder) : p (after (u.recover scope r b) x) :=
  holds_ok (u.recover_eq scope r b x) (hp.skipped _ _ _ hx)

theorem expectComment (scope : Scope) (b : Builder) : p (after (u.expectComment scope b) x) := by
  have h := u.expectComment_eq scope b x
  split at h
  · rename_i i hi
    obtain ⟨hle, hlt, -⟩ := u.stream.comment?_some hi
    exact holds_ok h (hp.matched hle (Nat.lt_of_lt_of_le hlt (u.stream.settle_le_size _)) hx)
  · exact holds_ok h (hp.reported _ _ _ hx)

theorem stands (hu : u.Regular) (hf : u.Fit x) {set : KindSet} (hs : u.stream.stands x.pos set = true) :
    p (x.matchedAt (u.stream.settle x.pos)) :=
  hp.matched (u.stream.le_settle hf.inside)
    (u.stream.settle_lt_of_not_atEnd (Stream.not_atEnd_of_stands hu.eof hs)) hx

theorem expect (hu : u.Regular) (hf : u.Fit x) (scope : Scope) (set : KindSet) (b : Builder) :
    p (after (u.expect scope set b) x) := by
  by_cases hset : set = endKinds
  · unfold Setup.expect
    rw [if_pos hset]
    exact hp.expectEnd hx scope scope.rule b
  · have hy : p (u.missed scope set x) := hp.strayed hx _ _ _ _ _ _
    have hyf := ((Advances.refl hf).missed scope set).fit
    have h := expect_eq hu scope set b x
    rw [if_neg hset] at h
    split at h
    · rename_i hs
      exact holds_ok h (hp.stands hx hu hf hs)
    · dsimp only at h
      split at h
      · rename_i hs
        exact holds_ok h (hp.stands hy hu hyf hs)
      · exact holds_ok h (hp.recovers hy)

end Keeps

/-! ### Rules -/

section

variable {n : Nat} {call : Call}

/-- A list goes round again only behind the place where its round began. -/
theorem Keeps.items (hu : u.Regular) (hp : u.Keeps p) {e : Element}
    {item : Scope → Builder → Action Builder}
    (hruns : ∀ scope b x, u.Fit x →
      u.Ends (item scope b) x fun b' x' => u.Runs n (.element e scope) x b x' b')
    (hitem : ∀ scope b x, u.Fit x → p x → p (after (item scope b) x))
    (resync : Bool) (scope : Scope) (rounds need : Nat) (b : Builder) (x : Session) (hf : u.Fit x)
    (hx : p x) : p (after (u.items item e resync scope rounds need b) x) := by
  induction rounds generalizing need b x with
  | zero => exact hx
  | succ rounds ih =>
    have hc := (Advances.refl hf).checked
    unfold Setup.items
    refine holds_bind (hp.checkCancelled hx) fun _ y hy hpy => ?_
    obtain rfl := checkCancelled_ok hy
    rw [after_bind_get]
    refine holds_bind (hp.enterItem hpy scope e need) fun d y hd hpy => ?_
    have hy := hc.enterItem hd
    cases d with
    | true =>
      rw [if_pos rfl]
      refine holds_bind (hitem _ b y hy.fit hpy) fun c z hz hpz => ?_
      have hrun := (ends_ok hz).1 (hruns _ b y hy.fit)
      have hz' := hy.trans (hrun.advances hu hy.fit)
      rw [after_bind_get]
      split
      · rename_i hpos
        have hpos : z.pos = x.pos := hpos
        rw [after_bind_kind]
        split
        · exact hpz
        · rename_i hk
          rw [Bool.not_eq_true] at hk
          have hlt := lt_freed hu hz'.fit hk .unexpectedToken scope.rule
            (scope.follow ∪ u.grammar.firstOf e) scope.context
          have hw := hz'.strayed .unexpectedToken scope.rule (scope.follow ∪ u.grammar.firstOf e)
            scope.context ∅ 1
          rw [after_bind_ok (u.report_eq _ _ _ z), after_bind_ok (u.skipOne_eq scope _), reported_pos,
            after_bind_get, after_bind_note]
          exact ih _ _ _ (hw.noted _).fit (hp.again (hpos ▸ hlt) (hp.strayed hpz _ _ _ _ _ _))
      · rename_i hpos
        have hpos : z.pos ≠ x.pos := hpos
        rw [after_bind_get, after_bind_note]
        exact ih _ _ _ (hz'.noted _).fit (hp.again (Nat.lt_of_le_of_ne hz'.le hpos.symm) hpz)
    | false =>
      rw [if_neg Bool.false_ne_true, after_bind_lookahead]
      split
      · exact hpy
      · rename_i hk
        rw [Bool.not_eq_true] at hk
        have hlt := lt_resumed hu hy.fit hk .unexpectedToken scope.rule
          (scope.follow ∪ u.grammar.firstOf e) scope.context
        have hw := hy.strayed .unexpectedToken scope.rule (scope.follow ∪ u.grammar.firstOf e)
          scope.context (scope.follow ∪ u.grammar.firstOf e ∪ endKinds) u.stream.size
        rw [after_bind_ok (u.report_eq _ _ _ y), after_bind_ok (u.skipUntil_eq scope _ _),
          passed_reported, after_bind_get, after_bind_note]
        exact ih _ _ _ (hw.noted _).fit
          (hp.again (Nat.lt_of_le_of_lt hy.le hlt) (hp.strayed hpy _ _ _ _ _ _))

/-- Calls of a rule do not break `p`. -/
def Preserves (u : Setup) (p : Session → Prop) (call : Call) : Prop :=
  ∀ r level scope b x, u.Fit x → p x → p (after (call r level scope b) x)

mutual

theorem Keeps.element (hu : u.Regular) (hp : u.Keeps p) (hcall : u.Follows n call)
    (hpc : u.Preserves p call) :
    ∀ (e : Element), e.founded u.grammar.solid = true → ∀ scope b x, u.Fit x → p x →
      p (after (u.element call e scope b) x)
  | .token k, _, scope, b, x, hf, hx => by
    unfold Setup.element
    exact hp.expect hx hu hf _ _ _
  | .relation k _, _, scope, b, x, hf, hx => by
    unfold Setup.element
    exact hp.expect hx hu hf _ _ _
  | .oneOf ks, _, scope, b, x, hf, hx => by
    unfold Setup.element
    exact hp.expect hx hu hf _ _ _
  | .comment, _, scope, b, x, _, hx => by
    unfold Setup.element
    exact hp.expectComment hx _ _
  | .rule r, _, scope, b, x, hf, hx => by
    unfold Setup.element
    exact hpc r 0 scope b x hf hx
  | .ruleAt r level, _, scope, b, x, hf, hx => by
    unfold Setup.element
    exact hpc r level scope b x hf hx
  | .optional e, he, scope, b, x, hf, hx => by
    simp only [Element.founded] at he
    unfold Setup.element
    refine holds_bind (hp.enter hx scope e) fun d y hd hpy => ?_
    have hy := (Advances.refl hf).enter hd
    cases d with
    | true => exact Keeps.element hu hp hcall hpc e he scope b y hy.fit hpy
    | false => exact hpy
  | .repeated e least resync, he, scope, b, x, hf, hx => by
    simp only [Element.founded, Bool.and_eq_true] at he
    unfold Setup.element
    exact hp.items hu (ends_element hu hcall e he.2) (Keeps.element hu hp hcall hpc e he.2)
      resync scope _ least b x hf hx
  | .seq es, he, scope, b, x, hf, hx => by
    simp only [Element.founded] at he
    unfold Setup.element
    exact Keeps.row hu hp hcall hpc es he scope b x hf hx
  | .labeled name many e, he, scope, b, x, hf, hx => by
    simp only [Element.founded] at he
    unfold Setup.element
    exact holds_bind (Keeps.element hu hp hcall hpc e he scope b x hf hx) fun _ _ _ h => h

theorem Keeps.row (hu : u.Regular) (hp : u.Keeps p) (hcall : u.Follows n call)
    (hpc : u.Preserves p call) :
    ∀ (es : List Element), allFounded u.grammar.solid es = true → ∀ scope b x, u.Fit x → p x →
      p (after (u.row call es scope b) x)
  | [], _, scope, b, x, _, hx => by
    unfold Setup.row
    exact hx
  | e :: es, he, scope, b, x, hf, hx => by
    simp only [allFounded, Bool.and_eq_true] at he
    unfold Setup.row
    refine holds_bind (Keeps.element hu hp hcall hpc e he.1 _ b x hf hx) fun c y hy hpy => ?_
    have hrun := (ends_ok hy).1 (ends_element hu hcall e he.1 (u.before es scope) b x hf)
    exact Keeps.row hu hp hcall hpc es he.2 scope c y (hrun.advances hu hf).fit hpy

end

namespace Keeps

variable (hu : u.Regular) (hp : u.Keeps p) (hcall : u.Follows n call) (hpc : u.Preserves p call)
include hu hp hcall hpc

theorem body (scope : Scope) (b : Builder) (x : Session) (hf : u.Fit x) (hx : p x) :
    p (after (u.body call scope b) x) := by
  have hx' := (Advances.refl hf).noted (.asked scope.rule scope.follow)
  obtain ⟨d, y, hd, hanswers⟩ := decide_answers hu scope hx'.fit.valid hx'.fit.inside
  have hy := hx'.decide hu hd
  have hpy : p y := by
    rw [decide_eq] at hd
    cases hd
    exact hp.decided _ (hp.asked hx)
  unfold Setup.body
  rw [after_bind_note, after_bind_ok hd]
  rcases d with f | i
  · obtain ⟨r, place, offset, expected, k, rfl⟩ := hanswers
    dsimp only
    rw [after_bind_ok (u.report_eq _ _ _ y)]
    exact hp.recover (hp.reported _ _ _ hpy) _ _ _
  · exact hp.row hu hcall hpc _ (Resolver.allFounded_elements hu.founded _ _) scope b y hy.fit hpy

theorem operation (tier : Tier) (r : Rule) (scope : Scope) (left : Node) {x : Session}
    (hf : u.Fit x) (hx : p x) (he : u.stream.atEnd x.pos = false) :
    p (after (u.operation call tier r scope left) x) := by
  have hy := ((Advances.refl hf).operatedAt he).fit
  have hpy := hp.operated (u.stream.le_settle hf.inside) (u.stream.settle_lt_of_not_atEnd he) hx
  unfold Setup.operation
  rw [after_bind_get]
  simp only [Stream.advance, u.stream.next?_of_not_atEnd he]
  rw [after_bind_moveTo, after_bind_note]
  rcases tier.form with _ | _ | _
  · exact holds_bind (hpc _ _ _ _ _ hy hpy) fun _ _ _ h => h
  · exact holds_bind (hp.body hu hcall hpc _ _ _ hy hpy) fun _ _ _ h => h
  · exact holds_bind (hp.body hu hcall hpc _ _ _ hy hpy) fun _ _ _ h => h

omit hp hpc in
theorem fit_operation (tier : Tier) (r : Rule) (scope : Scope) (left : Node) {x : Session}
    (hf : u.Fit x) (he : u.stream.atEnd x.pos = false) :
    u.Ends (u.operation call tier r scope left) x fun _ y => u.Fit y := by
  have hy := ((Advances.refl hf).operatedAt he).fit
  by_cases hform : tier.form = .binary
  · exact (ends_operation_binary hform r scope left he _).2
      ((hcall _ _ _ _ _ hy).imp fun _ _ _ hz => (hz.advances hu hy).fit)
  · exact (ends_operation_suffix hform r scope left he _).2
      ((ends_body hu hcall _ _ _ hy).imp fun _ _ _ hz => (hz.advances hu hy).fit)

theorem operations {r : Rule} {table : Table} (ht : u.grammar.table? r = some table)
    (level : Nat) (scope : Scope) (rounds : Nat) (left : Node) (x : Session) (hf : u.Fit x)
    (hx : p x) : p (after (u.operations call table level scope rounds left) x) := by
  induction rounds generalizing left x with
  | zero => exact hx
  | succ rounds ih =>
    unfold Setup.operations
    rw [after_bind_kind]
    split
    · exact hx
    · rename_i tier node hl
      split
      · exact hx
      · have he : u.stream.atEnd x.pos = false := by
          refine Stream.not_atEnd_of_kind hu.eof fun h => ?_
          simp [h, hu.founded.eof r table ht] at hl
        refine holds_bind (hp.checkCancelled hx) fun _ y hy hpy => ?_
        obtain rfl := checkCancelled_ok hy
        have hc := (Advances.refl hf).checked.fit
        refine holds_bind (hp.operation hu hcall hpc tier node scope left hc hpy he)
          fun m z hz hpz => ih m z ?_ hpz
        exact (ends_ok hz).1 (fit_operation hu hcall tier node scope left hc he)

theorem climb {r : Rule} {table : Table} (ht : u.grammar.table? r = some table) (level : Nat)
    (scope : Scope) (x : Session) (hf : u.Fit x) (hx : p x) :
    p (after (u.climb call table level scope) x) := by
  have hoperand : ∀ scope, u.Ends (u.operand call scope) x fun _ y => u.Fit y := fun scope => by
    unfold operand
    rw [ends_bind]
    exact (ends_body hu hcall scope _ x hf).imp fun _ _ _ hy => (hy.advances hu hf).fit
  unfold Setup.climb
  refine holds_bind ?_ fun left y hy hpy => ?_
  · exact holds_bind (hp.body hu hcall hpc _ _ _ hf hx) fun _ _ _ h => h
  · exact hp.operations hu hcall hpc ht _ _ _ _ _ ((ends_ok hy).1 (hoperand _)) hpy

end Keeps

end

namespace Keeps

variable (hu : u.Regular) (hp : u.Keeps p)
include hu hp

theorem call (n : Nat) : u.Preserves p (u.call n) := by
  induction n with
  | zero =>
    intro r level scope b x _ hx
    unfold Setup.call
    rw [after_bind_note]
    refine holds_bind (hp.checkCancelled (hp.called hx)) fun _ y hy hpy => ?_
    rw [after_bind_ok (u.report_eq _ _ _ y)]
    exact hp.recover (hp.reported _ _ _ hpy) _ _ _
  | succ n ih =>
    intro r level scope b x hf hx
    have hruns := follows_call hu n
    unfold Setup.call
    rw [after_bind_note]
    refine holds_bind (hp.checkCancelled (hp.called hx)) fun _ y hy hpy => ?_
    obtain rfl := checkCancelled_ok hy
    have hc := (((Advances.refl hf).noted (.called r scope.follow)).checked.noted
      (.opened (u.settings.maxDepth - n))).fit
    rw [after_bind_note]
    split
    · rename_i table ht
      exact holds_bind (hp.climb hu hruns ih ht _ _ _ hc (hp.opened hpy)) fun _ _ _ h => h
    · dsimp only
      split
      · exact hp.body hu hruns ih _ _ _ hc (hp.opened hpy)
      · exact holds_bind (hp.body hu hruns ih _ _ _ hc (hp.opened hpy)) fun _ _ _ h => h

theorem root (h0 : p (.start u.settings)) (r : Rule) : p (after (u.root r) (.start u.settings)) := by
  unfold Setup.root
  refine holds_bind (hp.call hu _ r 0 _ _ _ (fit_start u) h0) fun b y _ hpy => ?_
  exact holds_bind (hp.expectEnd hpy _ _ _) fun _ _ _ h => h

/-- What holds at the start and is not broken holds where a parse ends. -/
theorem last (h0 : p (.start u.settings)) (r : Rule) : p (u.last r) := by
  have h := hp.root hu h0 r
  unfold after at h
  unfold Setup.last run
  rcases he : u.root r (.start u.settings) with ⟨n, x⟩ | ⟨f, x⟩ <;> rw [he] at h <;> exact h

end Keeps

end Setup

end KermlText
