import KermlText.Proofs.Caching
import KermlText.Proofs.Finality

/-! Parses with more tokens to look at than there are. Wherever such a parse stands, its horizon is the end of
input, so its trials look at all there is. Two such parses go through the same sessions, up to the number of
tokens that they may look at, and also find the same signals. -/

namespace KermlText

/-! ### The horizon at the end -/

namespace Stream

variable {s : Stream}

/-- A trial that may look at as many tokens as lie ahead may look at all. -/
theorem horizon_of_ahead_le {n pos : Nat} (h : (s.ahead pos).length ≤ n) : s.horizon pos n = s.size := by
  suffices hhop : ∀ n pos, (s.ahead pos).length ≤ n → (s.hop n (s.settle pos)).getD s.size = s.size from
    hhop n pos h
  intro n
  induction n with
  | zero =>
    intro pos h
    have he := s.atEnd_iff_ahead.2 (List.length_eq_zero_iff.1 (Nat.le_zero.1 h))
    rw [hop, s.atEnd_iff.1 he, Option.getD_some]
  | succ n ih =>
    intro pos h
    unfold hop
    split
    · rfl
    · rename_i hne
      have he : s.atEnd pos = false := by simpa [atEnd] using hne
      rw [ahead_of_not_atEnd he, List.length_cons] at h
      exact ih _ (Nat.le_of_succ_le_succ h)

/-- How many tokens of the default channel there are. -/
def countDefault (s : Stream) : Nat := s.tokens.toList.countP fun t => t.channel = .default

theorem length_ahead_le (pos : Nat) : (s.ahead pos).length ≤ s.countDefault := by
  rw [ahead, kindsOf, List.length_map, ← List.countP_eq_length_filter, countDefault]
  exact ((List.take_sublist _ _).trans (List.drop_sublist _ _)).countP_le

end Stream

namespace Resolver

variable {g : Grammar} {s : Stream} {z : Resolver} {limit : Nat}

theorem recognizer_limited (hz : s.countDefault ≤ z.limit) (hl : s.countDefault ≤ limit) (pos : Nat) :
    (z.limited limit).recognizer g s pos = z.recognizer g s pos := by
  have hahead := s.length_ahead_le pos
  have hfar : s.horizon pos limit = s.horizon pos z.limit := by
    rw [s.horizon_of_ahead_le (Nat.le_trans hahead hz), s.horizon_of_ahead_le (Nat.le_trans hahead hl)]
  exact congrArg (Recognizer.mk g s) hfar

theorem decide_limited (hz : s.countDefault ≤ z.limit) (hl : s.countDefault ≤ limit) (pos : Nat) (r : Rule)
    (candidates : List Nat) (follow : KindSet) (c : Bool) :
    (z.limited limit).decide g s pos r candidates follow c =
      ((z.decide g s pos r candidates follow c).1, (z.decide g s pos r candidates follow c).2.limited limit) :=
  decide_limited_of_trials fun _ _ _ _ => by rw [recognizer_limited hz hl]

theorem enter_limited (hz : s.countDefault ≤ z.limit) (hl : s.countDefault ≤ limit) (pos : Nat) (e : Element)
    (follow : KindSet) (c : Bool) :
    (z.limited limit).enter g s pos e follow c =
      ((z.enter g s pos e follow c).1, (z.enter g s pos e follow c).2.limited limit) :=
  enter_limited_of_trial fun _ _ => by rw [recognizer_limited hz hl]

theorem limit_decide (pos : Nat) (r : Rule) (candidates : List Nat) (follow : KindSet) (c : Bool) :
    (z.decide g s pos r candidates follow c).2.limit = z.limit := by
  have hsame : (z.limited z.limit).decide g s pos r candidates follow c =
    ((z.decide g s pos r candidates follow c).1, (z.decide g s pos r candidates follow c).2.limited z.limit) :=
    decide_limited_of_trials fun _ _ _ _ => rfl
  exact congrArg (·.2.limit) hsame

theorem limit_enter (pos : Nat) (e : Element) (follow : KindSet) (c : Bool) :
    (z.enter g s pos e follow c).2.limit = z.limit := by
  have hsame : (z.limited z.limit).enter g s pos e follow c =
    ((z.enter g s pos e follow c).1, (z.enter g s pos e follow c).2.limited z.limit) :=
    enter_limited_of_trial fun _ _ => rfl
  exact congrArg (·.2.limit) hsame

end Resolver

/-! ### Sessions up to the limit -/

namespace Setup

open Session

/-- Both sessions may look at `n` tokens at least, and differ in nothing else than how many. -/
structure Ample (n : Nat) (x y : Session) : Prop where
  left : n ≤ x.resolver.limit
  right : n ≤ y.resolver.limit
  same : y = x.asked (x.resolver.limited y.resolver.limit)

/-- Both actions end in the same way, in sessions that are in step again. -/
inductive Level (n : Nat) {α : Type} :
    EStateM.Result Failure Session α → EStateM.Result Failure Session α → Prop
  | ok {a : α} {x y : Session} (h : Ample n x y) : Level n (.ok a x) (.ok a y)
  | error {f : Failure} {x y : Session} (h : Ample n x y) : Level n (.error f x) (.error f y)

/-- The actions make no difference between ample sessions. -/
def Levels (n : Nat) {α : Type} (m m' : Action α) : Prop := ∀ x y, Ample n x y → Level n (m x) (m' y)

section

variable {n : Nat} {α β : Type} {m m' : Action α} {k k' : α → Action β}

theorem Ample.asked {x x' y : Session} (h : Ample n x y) (hr : x'.resolver = x.resolver) :
    Ample n x' (x'.asked y.resolver) := by
  have hy : y.resolver = x.resolver.limited y.resolver.limit := congrArg Session.resolver h.same
  refine ⟨hr ▸ h.left, h.right, ?_⟩
  rw [hr]
  exact congrArg x'.asked hy

/-- An action that asks the resolver nothing and goes on. -/
theorem levels_of_ok (h : ∀ x z, ∃ a x', m x = .ok a x' ∧ m' (x.asked z) = .ok a (x'.asked z) ∧
    x'.resolver = x.resolver) : Levels n m m' := by
  intro x y hxy
  obtain ⟨a, x', hm, hm', hr⟩ := h x y.resolver
  have hy : y = x.asked y.resolver := hxy.same.trans (congrArg x.asked (congrArg Session.resolver hxy.same).symm)
  rw [hy, hm, hm']
  exact .ok (hxy.asked hr)

theorem Levels.bind (hm : Levels n m m') (hk : ∀ a, Levels n (k a) (k' a)) :
    Levels n (m >>= k) (m' >>= k') := by
  intro x y hxy
  have h := hm x y hxy
  rw [bind_apply, bind_apply]
  generalize m x = r at h ⊢
  generalize m' y = r' at h ⊢
  cases h with
  | ok h => exact hk _ _ _ h
  | error h => exact .error h

/-- What is read of a session is not what its resolver has. -/
theorem levels_get {k k' : Session → Action β} (hk : ∀ x, Levels n (k x) (k' x))
    (hblind : ∀ x z, k' (x.asked z) = k' x) : Levels n (get >>= k) (get >>= k') := by
  intro x y hxy
  have hy : k' y = k' x := by
    rw [hxy.same]
    exact hblind x _
  rw [bind_ok (get_apply x), bind_ok (get_apply y), hy]
  exact hk x x y hxy

theorem Levels.ite {c : Prop} {d d' : Decidable c} {l l' : Action α} (hm : Levels n m m') (hl : Levels n l l') :
    Levels n (@ite _ c d m l) (@ite _ c d' m' l') := by
  by_cases hc : c
  · rwa [if_pos hc, if_pos hc]
  · rwa [if_neg hc, if_neg hc]

theorem levels_pure (a : α) : Levels n (pure a) (pure a) := fun _ _ h => .ok h

theorem levels_throw (f : Failure) : Levels n (throw f : Action α) (throw f) := fun _ _ h => .error h

end

/-! ### Steps -/

section

variable (u : Setup) (l n : Nat)

/-- The same parse, with another number of tokens to look at. -/
def sighted : Setup := u.recast l u.settings.caching

@[simp] theorem sighted_stream : (u.sighted l).stream = u.stream := rfl

@[simp] theorem sighted_grammar : (u.sighted l).grammar = u.grammar := rfl

theorem levels_note (e : Event) : Levels n (note e) (note e) :=
  levels_of_ok fun x _ => ⟨(), x.noted e, rfl, rfl, rfl⟩

theorem levels_moveTo (place : Nat) : Levels n (moveTo place) (moveTo place) :=
  levels_of_ok fun x _ => ⟨(), { x with pos := place }, rfl, rfl, rfl⟩

theorem levels_setRecovering (b : Bool) : Levels n (setRecovering b) (setRecovering b) :=
  levels_of_ok fun x _ => ⟨(), { x with recovering := b }, rfl, rfl, rfl⟩

theorem levels_kind : Levels n u.kind (u.sighted l).kind :=
  levels_of_ok fun x _ => ⟨u.stream.kind x.pos, x, rfl, rfl, rfl⟩

theorem levels_atEnd : Levels n u.atEnd (u.sighted l).atEnd :=
  levels_of_ok fun x _ => ⟨u.stream.atEnd x.pos, x, rfl, rfl, rfl⟩

theorem levels_lookahead (scope : Scope) : Levels n (u.lookahead scope) ((u.sighted l).lookahead scope) :=
  levels_of_ok fun x _ => ⟨u.stream.lookahead x.pos scope.comments, x, rfl, rfl, rfl⟩

theorem levels_report (code : Code) (r : Rule) (expected : KindSet) :
    Levels n (u.report code r expected) ((u.sighted l).report code r expected) :=
  levels_of_ok fun x z => ⟨(), u.reported code r expected x, u.report_eq code r expected x,
    ((u.report_eq code r expected (x.asked z)).trans (congrArg _ (reported_asked z code r expected)) :),
    u.reported_resolver code r expected x⟩

theorem levels_skip (scope : Scope) (places : List Nat) :
    Levels n (u.skip scope places) ((u.sighted l).skip scope places) :=
  levels_of_ok fun x z => ⟨u.strays places, x.skippedOver scope.context places, u.skip_eq scope places x,
    (u.skip_eq scope places (x.asked z)).trans (congrArg _ (skippedOver_asked z scope.context places)),
    x.skippedOver_resolver scope.context places⟩

theorem levels_skipUntil (scope : Scope) (sync : KindSet) :
    Levels n (u.skipUntil scope sync) ((u.sighted l).skipUntil scope sync) := by
  unfold skipUntil
  exact levels_get (fun x => u.levels_skip l n scope _) fun _ _ => rfl

theorem levels_skipOne (scope : Scope) : Levels n (u.skipOne scope) ((u.sighted l).skipOne scope) := by
  unfold skipOne
  exact levels_get (fun x => u.levels_skip l n scope _) fun _ _ => rfl

theorem levels_recover (scope : Scope) (r : Rule) (b : Builder) :
    Levels n (u.recover scope r b) ((u.sighted l).recover scope r b) := by
  unfold recover
  exact (u.levels_skipUntil l n scope _).bind fun _ => levels_pure _

theorem levels_expectEnd (scope : Scope) (r : Rule) (b : Builder) :
    Levels n (u.expectEnd scope r b) ((u.sighted l).expectEnd scope r b) := by
  unfold expectEnd
  refine (u.levels_atEnd l n).bind fun d => .ite (levels_pure b) ?_
  exact (u.levels_report l n _ r _).bind fun _ => (u.levels_skipUntil l n scope endKinds).bind fun _ => levels_pure _

theorem levels_expectComment (scope : Scope) (b : Builder) :
    Levels n (u.expectComment scope b) ((u.sighted l).expectComment scope b) := by
  unfold expectComment
  refine levels_get (fun x => ?_) fun _ _ => rfl
  rw [sighted_stream]
  rcases u.stream.comment? x.pos with _ | i
  · exact (u.levels_report l n _ scope.rule _).bind fun _ => levels_pure _
  · exact (levels_moveTo n _).bind fun _ => (levels_note n _).bind fun _ =>
      (levels_setRecovering n _).bind fun _ => levels_pure _

theorem levels_eat (set : KindSet) (b : Builder) : Levels n (u.eat set b) ((u.sighted l).eat set b) := by
  unfold eat
  refine levels_get (fun x => ?_) fun _ _ => rfl
  refine .ite (levels_pure none) ?_
  rw [sighted_stream]
  rcases u.stream.advance x.pos with _ | ⟨t, pos⟩
  · exact levels_pure none
  · exact (levels_moveTo n _).bind fun _ => (levels_note n _).bind fun _ =>
      (levels_setRecovering n _).bind fun _ => levels_pure _

theorem levels_expect (scope : Scope) (set : KindSet) (b : Builder) :
    Levels n (u.expect scope set b) ((u.sighted l).expect scope set b) := by
  unfold expect
  refine .ite (u.levels_expectEnd l n scope scope.rule b) ?_
  refine (u.levels_eat l n set b).bind fun b? => ?_
  rcases b? with _ | b'
  · refine (u.levels_kind l n).bind fun k => (u.levels_report l n _ scope.rule set).bind fun _ => ?_
    refine (u.levels_skipUntil l n scope _).bind fun skipped => (u.levels_eat l n set _).bind fun b? => ?_
    rcases b? with _ | b'
    · exact (levels_setRecovering n true).bind fun _ => levels_pure _
    · exact levels_pure b'
  · exact levels_pure b'

theorem levels_checkCancelled : Levels n u.checkCancelled (u.sighted l).checkCancelled := by
  have heq : ∀ x, u.checkCancelled x = if u.settings.isCancelled x.checks x.sent.length then
      .error .cancelled x.checked else .ok () x.checked := by
    intro x
    unfold checkCancelled
    simp only [bind_apply, get_apply]
    dsimp only [set, MonadStateOf.set, EStateM.set]
    split <;> rfl
  intro x y hxy
  have hchecked : Ample n x.checked y.checked := ⟨hxy.left, hxy.right, congrArg Session.checked hxy.same⟩
  change Level n _ (u.checkCancelled y)
  rw [heq x, heq y, hxy.same]
  change Level n _ (if u.settings.isCancelled x.checks x.sent.length then _ else _)
  rw [hxy.same] at hchecked
  split
  · exact .error hchecked
  · exact .ok hchecked

variable {u n}

theorem levels_decide (hn : u.stream.countDefault ≤ n) (scope : Scope) :
    Levels n (u.decide scope) ((u.sighted l).decide scope) := by
  intro x y hxy
  have hlevel := Resolver.decide_limited (g := u.grammar) (Nat.le_trans hn hxy.left) (Nat.le_trans hn hxy.right)
    x.pos scope.rule (u.grammar.choices scope.rule) scope.follow scope.comments
  have hleft := Resolver.limit_decide (g := u.grammar) (s := u.stream) (z := x.resolver) x.pos scope.rule
    (u.grammar.choices scope.rule) scope.follow scope.comments
  change Level n _ (u.decide scope y)
  rw [decide_eq, decide_eq, hxy.same]
  dsimp only
  change Level n _ (.ok (Resolver.decide u.grammar u.stream (x.resolver.limited y.resolver.limit) x.pos _ _ _ _).1
    (x.asked (Resolver.decide u.grammar u.stream (x.resolver.limited y.resolver.limit) x.pos _ _ _ _).2))
  rw [hlevel]
  exact .ok ⟨hleft ▸ hxy.left, hxy.right, rfl⟩

theorem levels_enter (hn : u.stream.countDefault ≤ n) (scope : Scope) (e : Element) :
    Levels n (u.enter scope e) ((u.sighted l).enter scope e) := by
  intro x y hxy
  have hlevel := Resolver.enter_limited (g := u.grammar) (Nat.le_trans hn hxy.left) (Nat.le_trans hn hxy.right)
    x.pos e scope.follow scope.comments
  have hleft := Resolver.limit_enter (g := u.grammar) (s := u.stream) (z := x.resolver) x.pos e scope.follow
    scope.comments
  rcases hd : x.resolver.enter u.grammar u.stream x.pos e scope.follow scope.comments with ⟨d, z⟩
  rw [hd] at hlevel hleft
  have hnext : Ample n (x.asked z) (x.asked (z.limited y.resolver.limit)) :=
    ⟨hleft ▸ hxy.left, hxy.right, rfl⟩
  have hy : y.resolver.enter u.grammar u.stream y.pos e scope.follow scope.comments =
      (d, z.limited y.resolver.limit) := by
    rw [hxy.same]
    exact hlevel
  have hasked : ∀ w, y.asked w = x.asked w := fun w => congrArg (·.asked w) hxy.same
  change Level n _ (u.enter scope e y)
  rw [enter_eq, enter_eq, hd, hy]
  dsimp only
  rw [hasked]
  cases d with
  | error f => exact .error hnext
  | ok b => exact .ok hnext

theorem levels_enterItem (hn : u.stream.countDefault ≤ n) (scope : Scope) (e : Element) (need : Nat) :
    Levels n (u.enterItem scope e need) ((u.sighted l).enterItem scope e need) := by
  unfold enterItem
  exact .ite (levels_pure true) (levels_enter l hn scope e)

end

/-! ### Rules -/

def CallLevels (n : Nat) (call call' : Call) : Prop :=
  ∀ r level scope b, Levels n (call r level scope b) (call' r level scope b)

section

variable {u : Setup} {l n : Nat} {call call' : Call}

theorem levels_items (hn : u.stream.countDefault ≤ n) {item item' : Scope → Builder → Action Builder}
    (hitem : ∀ scope b, Levels n (item scope b) (item' scope b)) (e : Element) (resync : Bool) (scope : Scope)
    (rounds need : Nat) (b : Builder) :
    Levels n (u.items item e resync scope rounds need b) ((u.sighted l).items item' e resync scope rounds need b) := by
  induction rounds generalizing need b with
  | zero => exact levels_throw _
  | succ rounds ih =>
    have hagain : ∀ (start need : Nat) (b : Builder),
        Levels n (get >>= fun x => note (.again start x.pos) >>= fun _ => u.items item e resync scope rounds need b)
          (get >>= fun x => note (.again start x.pos) >>= fun _ =>
            (u.sighted l).items item' e resync scope rounds need b) := by
      intro start need b
      exact levels_get (fun x => (levels_note n _).bind fun _ => ih need b) fun _ _ => rfl
    unfold items
    refine (u.levels_checkCancelled l n).bind fun _ => levels_get (fun x => ?_) fun _ _ => rfl
    refine (levels_enterItem l hn scope e need).bind fun d => ?_
    cases d with
    | true =>
      refine (hitem _ b).bind fun c => levels_get (fun y => .ite ?_ (hagain _ _ _)) fun _ _ => rfl
      refine (u.levels_kind l n).bind fun k => .ite (levels_pure c) ?_
      exact (u.levels_report l n _ _ _).bind fun _ => (u.levels_skipOne l n scope).bind fun _ => hagain _ _ _
    | false =>
      refine (u.levels_lookahead l n scope).bind fun k => .ite (levels_pure b) ?_
      exact (u.levels_report l n _ _ _).bind fun _ => (u.levels_skipUntil l n scope _).bind fun _ => hagain _ _ _

mutual

theorem levels_element (hn : u.stream.countDefault ≤ n) (hcall : CallLevels n call call') :
    ∀ (e : Element) (scope : Scope) (b : Builder),
    Levels n (u.element call e scope b) ((u.sighted l).element call' e scope b)
  | .token k, scope, b | .relation k _, scope, b => by
    unfold element
    exact u.levels_expect l n scope (.single k) b
  | .oneOf ks, scope, b => by
    unfold element
    exact u.levels_expect l n scope ks b
  | .comment, scope, b => by
    unfold element
    exact u.levels_expectComment l n scope b
  | .rule r, scope, b => by
    unfold element
    exact hcall r 0 scope b
  | .ruleAt r level, scope, b => by
    unfold element
    exact hcall r level scope b
  | .optional e, scope, b => by
    unfold element
    exact (levels_enter l hn scope e).bind fun d => .ite (levels_element hn hcall e scope b) (levels_pure b)
  | .repeated e least resync, scope, b => by
    unfold element
    exact levels_items hn (levels_element hn hcall e) e resync scope _ least b
  | .seq es, scope, b => by
    unfold element
    exact levels_row hn hcall es scope b
  | .labeled name many e, scope, b => by
    unfold element
    exact (levels_element hn hcall e scope b).bind fun _ => levels_pure _

theorem levels_row (hn : u.stream.countDefault ≤ n) (hcall : CallLevels n call call') :
    ∀ (es : List Element) (scope : Scope) (b : Builder),
    Levels n (u.row call es scope b) ((u.sighted l).row call' es scope b)
  | [], scope, b => by
    unfold row
    exact levels_pure b
  | e :: es, scope, b => by
    unfold row
    exact (levels_element hn hcall e _ b).bind fun c => levels_row hn hcall es scope c

end

variable (hn : u.stream.countDefault ≤ n) (hcall : CallLevels n call call')
include hn hcall

theorem levels_body (scope : Scope) (b : Builder) :
    Levels n (u.body call scope b) ((u.sighted l).body call' scope b) := by
  unfold body
  refine (levels_note n _).bind fun _ => (levels_decide l hn scope).bind fun d => ?_
  rcases d with f | i
  · cases f with
    | noAlternative r p offset expected k =>
      exact (u.levels_report l n _ _ _).bind fun _ => u.levels_recover l n scope scope.rule b
    | _ => exact levels_throw _
  · exact levels_row hn hcall _ scope b

theorem levels_operation (tier : Tier) (r : Rule) (scope : Scope) (left : Node) :
    Levels n (u.operation call tier r scope left) ((u.sighted l).operation call' tier r scope left) := by
  unfold operation
  refine levels_get (fun x => ?_) fun _ _ => rfl
  rw [sighted_stream]
  rcases u.stream.advance x.pos with f | ⟨operator, pos⟩
  · exact levels_throw f
  · refine (levels_moveTo n _).bind fun _ => (levels_note n _).bind fun _ => ?_
    dsimp only
    split
    · exact (hcall _ _ _ _).bind fun _ => levels_pure _
    · exact (levels_body hn hcall _ _).bind fun _ => levels_pure _
    · exact (levels_body hn hcall _ _).bind fun _ => levels_pure _

theorem levels_operations (table : Table) (level : Nat) (scope : Scope) (rounds : Nat) (left : Node) :
    Levels n (u.operations call table level scope rounds left)
      ((u.sighted l).operations call' table level scope rounds left) := by
  induction rounds generalizing left with
  | zero => exact levels_throw _
  | succ rounds ih =>
    unfold operations
    refine (u.levels_kind l n).bind fun k => ?_
    split
    · exact levels_pure left
    · refine .ite (levels_pure left) ?_
      exact (u.levels_checkCancelled l n).bind fun _ => (levels_operation hn hcall _ _ _ _).bind ih

theorem levels_climb (table : Table) (level : Nat) (scope : Scope) :
    Levels n (u.climb call table level scope) ((u.sighted l).climb call' table level scope) := by
  unfold climb operand
  refine ((levels_body hn hcall _ _).bind fun _ => levels_pure _).bind fun left => ?_
  exact levels_operations hn hcall table level _ _ left

end

theorem levels_call {u : Setup} {l n : Nat} (hn : u.stream.countDefault ≤ n) (depth : Nat) :
    CallLevels n (u.call depth) ((u.sighted l).call depth) := by
  induction depth with
  | zero =>
    intro r level scope b
    unfold call
    refine (levels_note n _).bind fun _ => (u.levels_checkCancelled l n).bind fun _ => ?_
    exact (u.levels_report l n _ r _).bind fun _ => u.levels_recover l n scope r b
  | succ depth ih =>
    intro r level scope b
    unfold call
    refine (levels_note n _).bind fun _ => (u.levels_checkCancelled l n).bind fun _ => ?_
    refine (levels_note n _).bind fun _ => ?_
    rw [sighted_grammar]
    rcases u.grammar.table? r with _ | table
    · exact .ite (levels_body hn ih _ _) ((levels_body hn ih _ _).bind fun _ => levels_pure _)
    · exact (levels_climb hn ih _ _ _).bind fun _ => levels_pure _

theorem levels_root {u : Setup} {l n : Nat} (hn : u.stream.countDefault ≤ n) (r : Rule) :
    Levels n (u.root r) ((u.sighted l).root r) := by
  unfold root
  refine (levels_call hn _ r 0 _ _).bind fun b => ?_
  exact (u.levels_expectEnd l n _ r _).bind fun _ => levels_pure _

end Setup

/-- As long as a parse may look at as many tokens as there are, it does not matter how many it may look at. -/
theorem parseTokens_ample {r : Rule} {ts : List Token} {settings : Settings} {limit : Nat}
    (h : (ts.countP fun t => t.channel = .default) ≤ settings.lookahead)
    (hl : (ts.countP fun t => t.channel = .default) ≤ limit) :
    parseTokens r ts { settings with lookahead := limit } = parseTokens r ts settings := by
  have hample : Setup.Ample (ts.countP fun t => t.channel = .default) (.start settings)
      (.start { settings with lookahead := limit }) :=
    ⟨Nat.le_trans h (Nat.le_max_left _ 1), Nat.le_trans hl (Nat.le_max_left _ 1), rfl⟩
  have hroot := Setup.levels_root (u := .ofTokens ts settings) (l := limit) (Nat.le_refl _) r _ _ hample
  rcases hres : (Setup.ofTokens ts settings).root r (.start settings) with ⟨m, x⟩ | ⟨f, x⟩ <;>
    rcases hres' : ((Setup.ofTokens ts settings).sighted limit).root r
      (.start { settings with lookahead := limit }) with ⟨m', y⟩ | ⟨f', y⟩ <;>
    rw [hres, hres'] at hroot
  · cases hroot with
    | ok hxy =>
      refine (parseTokens_of_ok hres').trans ?_
      rw [parseTokens_of_ok hres, hxy.same]
      rfl
  · cases hroot
  · cases hroot
  · cases hroot with
    | error hxy =>
      refine (parseTokens_of_error hres').trans ?_
      rw [parseTokens_of_error hres, hxy.same]
      rfl

namespace Resolver

/-- A decision whose trials find the limit reached nowhere is final: with more tokens to look at it is the same,
whether it chooses an alternative or enters an element. So a parse that may look at as many tokens as there
are gives the tree and the errors that it gives if it may look at more. -/
theorem final_of_clear :
    (∀ (g : Grammar) (s : Stream) (z : Resolver) (limit pos : Nat) (r : Rule) (candidates : List Nat)
        (follow : KindSet) (c : Bool), z.limit ≤ limit → z.DecidesClear g s pos r candidates follow c →
      (z.limited limit).decide g s pos r candidates follow c =
        ((z.decide g s pos r candidates follow c).1,
          (z.decide g s pos r candidates follow c).2.limited limit)) ∧
    (∀ (g : Grammar) (s : Stream) (z : Resolver) (limit pos : Nat) (e : Element) (follow : KindSet) (c : Bool),
      z.limit ≤ limit → z.EntersClear g s pos e follow c →
      (z.limited limit).enter g s pos e follow c =
        ((z.enter g s pos e follow c).1, (z.enter g s pos e follow c).2.limited limit)) ∧
    ∀ (r : Rule) (ts : List Token) (settings : Settings) (limit : Nat),
      (ts.countP fun t => t.channel = .default) ≤ settings.lookahead →
      (ts.countP fun t => t.channel = .default) ≤ limit →
      parseTokens r ts { settings with lookahead := limit } = parseTokens r ts settings := by
  refine ⟨?_, ?_, ?_⟩
  · intro g s z limit pos r candidates follow c hle h
    exact decide_limited_of_clear hle h
  · intro g s z limit pos e follow c hle h
    exact enter_limited_of_clear hle h
  · intro r ts settings limit h hl
    exact parseTokens_ample h hl

/-- Six tokens tell the two spellings of a relationship apart, so more of them choose the same. -/
theorem final_of_clear_subtype :
    let text := scan "subtype a specializes b; class B; class C;"
    let s := Stream.ofTokens text
    let z := Resolver.make 6 true
    (z.limited 40).decide kerml s 0 .subclassificationDeclaration (kerml.choices .subclassificationDeclaration) ∅
        false =
      ((z.decide kerml s 0 .subclassificationDeclaration (kerml.choices .subclassificationDeclaration) ∅ false).1,
        (z.decide kerml s 0 .subclassificationDeclaration (kerml.choices .subclassificationDeclaration) ∅
          false).2.limited 40) ∧
    (z.limited 40).enter kerml s 1 (.rule .qualifiedName) (.single .ident) false =
      ((z.enter kerml s 1 (.rule .qualifiedName) (.single .ident) false).1,
        (z.enter kerml s 1 (.rule .qualifiedName) (.single .ident) false).2.limited 40) ∧
    parseTokens .rootNamespace text { Settings.standard with lookahead := 40 } =
      parseTokens .rootNamespace text .standard := by
  intro text s z
  obtain ⟨hdecide, henter, hparse⟩ := final_of_clear
  refine ⟨hdecide kerml s z 40 0 _ _ _ _ (by decide) ?_, henter kerml s z 40 1 _ _ _ (by decide) ?_,
    hparse _ text .standard 40 (by decide +kernel) (by decide +kernel)⟩
  · have hv : (kerml.choices .subclassificationDeclaration).filter (fun i => viable kerml (s.lookahead 0 false) ∅
        (elements kerml .subclassificationDeclaration i)) = [0, 1] := by decide +kernel
    rw [DecidesClear, hv]
    exact (clearAll_iff (Memo.holds_empty _)).2 (by decide +kernel)
  · intro _ _
    exact ((Recognizer.clears_tryElement _ _ _).iff (.start 1 .empty) (Memo.holds_empty _)).2 (by decide +kernel)

end Resolver

end KermlText
