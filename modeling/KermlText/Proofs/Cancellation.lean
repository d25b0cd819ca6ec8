import KermlText.Proofs.Invariants

/-! Parses that are called off. Only a check reads the signal, so up to the check that finds it set a parse
does what it does without a signal, and there it stops. What it has sent by then is the beginning of what
it sends without a signal, since nothing that was sent is ever taken back; and so it is with what it has
done. -/

namespace KermlText

/-- The same settings, with nothing that could call a parse off. -/
def Settings.unsignalled (s : Settings) : Settings := { s with cancel := none }

/-- What leads from `x` to `y` takes nothing back of what was sent and of what is on record. -/
structure Session.Grows (x y : Session) : Prop where
  sent : x.sent <+: y.sent
  journal : x.journal <:+ y.journal

namespace Session.Grows

variable {x y z : Session}

theorem refl (x : Session) : x.Grows x := ⟨List.prefix_refl _, List.suffix_refl _⟩

theorem trans (h1 : x.Grows y) (h2 : y.Grows z) : x.Grows z :=
  ⟨h1.sent.trans h2.sent, h1.journal.trans h2.journal⟩

theorem noted (x : Session) (e : Event) : x.Grows (x.noted e) :=
  ⟨List.prefix_refl _, List.suffix_cons _ _⟩

theorem matchedAt (x : Session) (place : Nat) : x.Grows (x.matchedAt place) :=
  ⟨List.prefix_refl _, List.suffix_cons _ _⟩

theorem skippedOver (x : Session) (context : KindSet) (places : List Nat) :
    x.Grows (x.skippedOver context places) := by
  unfold Session.skippedOver
  split
  · exact .refl x
  · exact ⟨List.prefix_refl _, List.suffix_append _ _⟩

theorem reported (u : Setup) (code : Code) (r : Rule) (expected : KindSet) (x : Session) :
    x.Grows (u.reported code r expected x) := by
  unfold Setup.reported
  split
  · exact noted x _
  · split
    · exact .refl x
    · exact ⟨List.prefix_append _ _, List.suffix_cons _ _⟩

theorem missed (u : Setup) (scope : Scope) (set : KindSet) (x : Session) :
    x.Grows (u.missed scope set x) :=
  (reported u _ _ _ x).trans (skippedOver _ _ _)

end Session.Grows

namespace Setup

open Session

/-- The same parse, with nothing that could call it off. -/
def unsignalled (u : Setup) : Setup := { u with settings := u.settings.unsignalled }

@[simp] theorem grammar_unsignalled (u : Setup) : u.unsignalled.grammar = u.grammar := rfl

@[simp] theorem stream_unsignalled (u : Setup) : u.unsignalled.stream = u.stream := rfl

@[simp] theorem maxDepth_unsignalled (u : Setup) :
    u.unsignalled.settings.maxDepth = u.settings.maxDepth := rfl

/-- The session of a check that found the signal set. -/
def CalledOff (u : Setup) (y : Session) : Prop :=
  ∃ signal checks, u.settings.cancel = some signal ∧ y.checks = checks + 1 ∧
    signal checks y.sent.length = true

/-- The action adds to what was sent and done before. -/
def Adds {α : Type} (m : Action α) : Prop := ∀ x : Session, x.Grows (after m x)

/-- The action `m` does what `m'` does, or a check in it calls the parse off, and then it has sent and done a
part of what `m'` sends and does. -/
structure Stops (u : Setup) {α : Type} (m m' : Action α) : Prop where
  adds : Adds m'
  grows : ∀ x, m x = m' x ∨
    ∃ y, m x = .error .cancelled y ∧ u.CalledOff y ∧ y.Grows (after m' x)

/-! ### Actions one behind the other -/

section

variable {α β : Type} {m m' : Action α} {k k' : α → Action β}

theorem after_ok {x y : Session} {a : α} (h : m x = .ok a y) : after m x = y := by
  unfold after
  rw [h]

theorem adds_of_ok (h : ∀ x, ∃ a y, m x = .ok a y ∧ x.Grows y) : Adds m := by
  intro x
  obtain ⟨a, y, hy, hs⟩ := h x
  rwa [after_ok hy]

theorem Adds.bind (hm : Adds m) (hk : ∀ a, Adds (k a)) : Adds (m >>= k) :=
  fun x => holds_bind (p := x.Grows) (hm x) fun a y _ h => h.trans (hk a y)

variable {u : Setup}

/-- An action without a check is not called off. -/
theorem Adds.stops (h : Adds m) : u.Stops m m := ⟨h, fun _ => .inl rfl⟩

theorem Stops.bind (hm : u.Stops m m') (hk : ∀ a, u.Stops (k a) (k' a)) :
    u.Stops (m >>= k) (m' >>= k') := by
  refine ⟨hm.adds.bind fun a => (hk a).adds, fun x => ?_⟩
  rcases hm.grows x with he | ⟨y, hy, hoff, hs⟩
  · rw [bind_apply, bind_apply, he]
    rcases hr : m' x with ⟨a, z⟩ | ⟨f, z⟩
    · -- the first action is done, so it is up to the second
      refine (hk a).grows z |>.imp id fun ⟨y, hy, hoff, hs⟩ => ⟨y, hy, hoff, ?_⟩
      rwa [after_bind_ok hr]
    · exact .inl rfl
  · refine .inr ⟨y, by rw [bind_apply, hy], hoff, hs.trans ?_⟩
    exact holds_bind (p := (after m' x).Grows) (.refl _)
      fun a z hz _ => by
        rw [after_ok hz]
        exact (hk a).adds z

theorem Stops.ite {c : Prop} {d d' : Decidable c} {l l' : Action α} (hm : u.Stops m m') (hl : u.Stops l l') :
    u.Stops (@ite _ c d m l) (@ite _ c d' m' l') := by
  by_cases hc : c
  · rwa [if_pos hc, if_pos hc]
  · rwa [if_neg hc, if_neg hc]

theorem Stops.same_or (h : u.Stops m m') (x : Session) : m x = m' x ∨
    ∃ y, m x = .error .cancelled y ∧ u.CalledOff y ∧ y.sent <+: (after m' x).sent :=
  (h.grows x).imp id fun ⟨y, hy, hoff, hg⟩ => ⟨y, hy, hoff, hg.sent⟩

end

/-! ### Steps -/

section

variable (u : Setup)

theorem adds_pure {α : Type} (a : α) : Adds (pure a : Action α) := fun x => .refl x

theorem adds_throw {α : Type} (f : Failure) : Adds (throw f : Action α) := fun x => .refl x

theorem adds_get : Adds (get : Action Session) := fun x => .refl x

theorem adds_note (e : Event) : Adds (note e) := fun x => .noted x e

theorem adds_moveTo (place : Nat) : Adds (moveTo place) :=
  fun _ => ⟨List.prefix_refl _, List.suffix_refl _⟩

theorem adds_kind : Adds u.kind := fun x => .refl x

theorem adds_lookahead (scope : Scope) : Adds (u.lookahead scope) := fun x => .refl x

theorem adds_decide (scope : Scope) : Adds (u.decide scope) :=
  adds_of_ok fun x => ⟨_, _, decide_eq scope x, ⟨List.prefix_refl _, List.suffix_refl _⟩⟩

theorem adds_enter (scope : Scope) (e : Element) : Adds (u.enter scope e) := by
  intro x
  unfold after
  rw [enter_eq]
  dsimp only
  rcases (x.resolver.enter u.grammar u.stream x.pos e scope.follow scope.comments).1 with _ | _ <;>
    exact ⟨List.prefix_refl _, List.suffix_refl _⟩

theorem adds_enterItem (scope : Scope) (e : Element) (need : Nat) :
    Adds (u.enterItem scope e need) := by
  unfold enterItem
  split
  · exact adds_pure true
  · exact u.adds_enter scope e

theorem adds_report (code : Code) (r : Rule) (expected : KindSet) : Adds (u.report code r expected) :=
  adds_of_ok fun x => ⟨_, _, u.report_eq code r expected x, .reported u code r expected x⟩

theorem adds_skipUntil (scope : Scope) (sync : KindSet) : Adds (u.skipUntil scope sync) :=
  adds_of_ok fun x => ⟨_, _, u.skipUntil_eq scope sync x, .skippedOver x _ _⟩

theorem adds_skipOne (scope : Scope) : Adds (u.skipOne scope) :=
  adds_of_ok fun x => ⟨_, _, u.skipOne_eq scope x, .skippedOver x _ _⟩

theorem adds_recover (scope : Scope) (r : Rule) (b : Builder) : Adds (u.recover scope r b) :=
  (u.adds_skipUntil scope _).bind fun _ => adds_pure _

theorem adds_expectEnd (scope : Scope) (r : Rule) (b : Builder) : Adds (u.expectEnd scope r b) := by
  unfold expectEnd
  refine (show Adds u.atEnd from fun x => .refl x).bind fun d => ?_
  cases d with
  | true => exact adds_pure b
  | false =>
    exact (u.adds_report _ _ _).bind fun _ => (u.adds_skipUntil scope endKinds).bind fun _ => adds_pure _

theorem adds_expectComment (scope : Scope) (b : Builder) : Adds (u.expectComment scope b) := by
  intro x
  have he := u.expectComment_eq scope b x
  split at he
  · rw [after_ok he]
    exact .matchedAt x _
  · rw [after_ok he]
    exact .reported u _ _ _ x

variable {u}

theorem adds_expect (hu : u.Regular) (scope : Scope) (set : KindSet) (b : Builder) :
    Adds (u.expect scope set b) := by
  by_cases hset : set = endKinds
  · unfold expect
    rw [if_pos hset]
    exact u.adds_expectEnd scope scope.rule b
  · intro x
    have hs := Grows.missed u scope set x
    have he := expect_eq hu scope set b x
    rw [if_neg hset] at he
    split at he
    · rw [after_ok he]
      exact .matchedAt x _
    · dsimp only at he
      split at he
      · rw [after_ok he]
        exact hs.trans (.matchedAt _ _)
      · rw [after_ok he]
        exact ⟨hs.sent, hs.journal⟩

/-- A check goes on, or it finds the signal set. -/
theorem stops_checkCancelled : u.Stops u.checkCancelled u.unsignalled.checkCancelled := by
  have hchecked : ∀ x, u.unsignalled.checkCancelled x = .ok () x.checked := fun x => by
    unfold checkCancelled
    simp only [bind_apply, get_apply, Settings.isCancelled, unsignalled, Settings.unsignalled]
    rfl
  refine ⟨adds_of_ok fun x => ⟨(), x.checked, hchecked x, ⟨List.prefix_refl _, List.suffix_refl _⟩⟩, fun x => ?_⟩
  rw [hchecked x]
  have hd : u.checkCancelled x =
      if u.settings.isCancelled x.checks x.sent.length then .error .cancelled x.checked
      else .ok () x.checked := by
    unfold checkCancelled
    simp only [bind_apply, get_apply]
    dsimp only [set, MonadStateOf.set, EStateM.set]
    split <;> rfl
  rw [hd]
  rcases hc : u.settings.isCancelled x.checks x.sent.length with _ | _
  · exact .inl rfl
  · obtain ⟨signal, hsignal, hset⟩ := (Option.any_eq_true _ _).1 hc
    have hlast := after_ok (hchecked x)
    exact .inr ⟨x.checked, rfl, ⟨signal, x.checks, hsignal, rfl, hset⟩, hlast ▸ .refl _⟩

end

/-! ### Rules -/

/-- Calls of a rule are called off, or not. -/
def CallStops (u : Setup) (call call' : Call) : Prop :=
  ∀ r level scope b, u.Stops (call r level scope b) (call' r level scope b)

section

variable {u : Setup} {call call' : Call}

theorem stops_items {item item' : Scope → Builder → Action Builder}
    (hitem : ∀ scope b, u.Stops (item scope b) (item' scope b)) (e : Element) (resync : Bool)
    (scope : Scope) (rounds need : Nat) (b : Builder) :
    u.Stops (u.items item e resync scope rounds need b)
      (u.unsignalled.items item' e resync scope rounds need b) := by
  induction rounds generalizing need b with
  | zero => exact (adds_throw _).stops
  | succ rounds ih =>
    unfold items
    refine stops_checkCancelled.bind fun _ => adds_get.stops.bind fun x => ?_
    refine (u.adds_enterItem scope e need).stops.bind fun d => ?_
    cases d with
    | true =>
      refine (hitem _ b).bind fun c => adds_get.stops.bind fun y => ?_
      dsimp only
      split
      · refine u.adds_kind.stops.bind fun k => ?_
        split
        · exact (adds_pure c).stops
        · refine (u.adds_report _ _ _).stops.bind fun _ => (u.adds_skipOne scope).stops.bind fun _ => ?_
          exact adds_get.stops.bind fun z => (adds_note _).stops.bind fun _ => ih _ _
      · exact adds_get.stops.bind fun z => (adds_note _).stops.bind fun _ => ih _ _
    | false =>
      refine (u.adds_lookahead scope).stops.bind fun k => .ite (adds_pure b).stops ?_
      refine (u.adds_report _ _ _).stops.bind fun _ => (u.adds_skipUntil scope _).stops.bind fun _ => ?_
      exact adds_get.stops.bind fun z => (adds_note _).stops.bind fun _ => ih _ _

mutual

theorem stops_element (hu : u.Regular) (hcall : u.CallStops call call') :
    ∀ (e : Element) (scope : Scope) (b : Builder),
      u.Stops (u.element call e scope b) (u.unsignalled.element call' e scope b)
  | .token k, scope, b | .relation k _, scope, b => by
    unfold element
    exact (adds_expect hu scope (.single k) b).stops
  | .oneOf ks, scope, b => by
    unfold element
    exact (adds_expect hu scope ks b).stops
  | .comment, scope, b => by
    unfold element
    exact (u.adds_expectComment scope b).stops
  | .rule r, scope, b => by
    unfold element
    exact hcall r 0 scope b
  | .ruleAt r level, scope, b => by
    unfold element
    exact hcall r level scope b
  | .optional e, scope, b => by
    unfold element
    refine (u.adds_enter scope e).stops.bind fun d => ?_
    cases d with
    | true => exact stops_element hu hcall e scope b
    | false => exact (adds_pure b).stops
  | .repeated e least resync, scope, b => by
    unfold element
    exact stops_items (stops_element hu hcall e) e resync scope _ least b
  | .seq es, scope, b => by
    unfold element
    exact stops_row hu hcall es scope b
  | .labeled name many e, scope, b => by
    unfold element
    exact (stops_element hu hcall e scope b).bind fun _ => (adds_pure _).stops

theorem stops_row (hu : u.Regular) (hcall : u.CallStops call call') :
    ∀ (es : List Element) (scope : Scope) (b : Builder),
      u.Stops (u.row call es scope b) (u.unsignalled.row call' es scope b)
  | [], scope, b => by
    unfold row
    exact (adds_pure b).stops
  | e :: es, scope, b => by
    unfold row
    exact (stops_element hu hcall e _ b).bind fun c => stops_row hu hcall es scope c

end

variable (hu : u.Regular) (hcall : u.CallStops call call')
include hu hcall

theorem stops_body (scope : Scope) (b : Builder) :
    u.Stops (u.body call scope b) (u.unsignalled.body call' scope b) := by
  unfold body
  refine (adds_note _).stops.bind fun _ => (u.adds_decide scope).stops.bind fun d => ?_
  rcases d with f | i
  · cases f with
    | noAlternative r p offset expected k =>
      exact (u.adds_report _ _ _).stops.bind fun _ => (u.adds_recover scope scope.rule b).stops
    | _ => exact (adds_throw _).stops
  · exact stops_row hu hcall _ scope b

theorem stops_operation (tier : Tier) (r : Rule) (scope : Scope) (left : Node) :
    u.Stops (u.operation call tier r scope left) (u.unsignalled.operation call' tier r scope left) := by
  unfold operation
  refine adds_get.stops.bind fun x => ?_
  rw [stream_unsignalled]
  split
  · exact (adds_throw _).stops
  · refine (adds_moveTo _).stops.bind fun _ => (adds_note _).stops.bind fun _ => ?_
    dsimp only
    split
    · exact (hcall _ _ _ _).bind fun _ => (adds_pure _).stops
    · exact (stops_body hu hcall _ _).bind fun _ => (adds_pure _).stops
    · exact (stops_body hu hcall _ _).bind fun _ => (adds_pure _).stops

theorem stops_operations (table : Table) (level : Nat) (scope : Scope) (rounds : Nat) (left : Node) :
    u.Stops (u.operations call table level scope rounds left)
      (u.unsignalled.operations call' table level scope rounds left) := by
  induction rounds generalizing left with
  | zero => exact (adds_throw _).stops
  | succ rounds ih =>
    unfold operations
    refine u.adds_kind.stops.bind fun k => ?_
    split
    · exact (adds_pure left).stops
    · split
      · exact (adds_pure left).stops
      · exact stops_checkCancelled.bind fun _ => (stops_operation hu hcall _ _ _ _).bind ih

theorem stops_climb (table : Table) (level : Nat) (scope : Scope) :
    u.Stops (u.climb call table level scope) (u.unsignalled.climb call' table level scope) := by
  unfold climb operand
  refine ((stops_body hu hcall _ _).bind fun _ => (adds_pure _).stops).bind fun left => ?_
  exact stops_operations hu hcall table level _ _ left

end

theorem stops_call {u : Setup} (hu : u.Regular) (n : Nat) : u.CallStops (u.call n) (u.unsignalled.call n) := by
  induction n with
  | zero =>
    intro r level scope b
    unfold call
    refine (adds_note _).stops.bind fun _ => stops_checkCancelled.bind fun _ => ?_
    exact (u.adds_report _ _ _).stops.bind fun _ => (u.adds_recover scope r b).stops
  | succ n ih =>
    intro r level scope b
    unfold call
    refine (adds_note _).stops.bind fun _ => stops_checkCancelled.bind fun _ => ?_
    refine (adds_note _).stops.bind fun _ => ?_
    simp only [grammar_unsignalled]
    split
    · exact (stops_climb hu ih _ _ _).bind fun _ => (adds_pure _).stops
    · exact .ite (stops_body hu ih _ _) ((stops_body hu ih _ _).bind fun _ => (adds_pure _).stops)

theorem stops_root {u : Setup} (hu : u.Regular) (r : Rule) : u.Stops (u.root r) (u.unsignalled.root r) := by
  unfold root
  refine (stops_call hu _ r 0 _ _).bind fun b => ?_
  exact (u.adds_expectEnd _ r _).stops.bind fun _ => (adds_pure _).stops

/-- Where a parse ends, called off or not, it has sent and done a part of what it sends and does without a
signal. -/
theorem grows_last {u : Setup} (hu : u.Regular) (r : Rule) : (u.last r).Grows (u.unsignalled.last r) := by
  have hlast : ∀ v : Setup, v.last r = after (v.root r) (.start v.settings) := fun v => by
    unfold last after run
    rcases v.root r (.start v.settings) with ⟨n, x⟩ | ⟨f, x⟩ <;> rfl
  rw [hlast, hlast]
  rcases (stops_root hu r).grows (.start u.settings) with he | ⟨y, hy, -, hg⟩
  · rw [show after (u.root r) (.start u.settings) = after (u.unsignalled.root r) (.start u.settings) by
      unfold after; rw [he]]
    exact .refl _
  · have hy' : after (u.root r) (.start u.settings) = y := by
      unfold after; rw [hy]
    exact hy' ▸ hg

/-- All errors on the list were sent, and no others. -/
theorem keeps_sent (u : Setup) : u.Keeps fun x => x.sent = x.errors where
  called h := h
  opened h := h
  asked h := h
  again _ h := h
  checked h := h
  decided _ h := h
  matched _ _ h := h
  operated _ _ h := h
  skipped context sync n h := by simpa using h
  reported code r expected h := by
    unfold reported
    split
    · exact h
    · split
      · exact h
      · exact congrArg (· ++ _) h
  recovers h := h

end Setup

/-- A parse gives the tree and the errors that it gives without a signal; or it is called off, at a check
that found the signal set, and the errors it has sent are the first of those it reports without a signal. A
signal may depend on how many checks and reports were made before, so it stands for all that can set the
flag: the caller in advance, whoever receives the errors, or another thread between two checks. -/
theorem parseTokens_all_or_nothing (r : Rule) (ts : List Token) (settings : Settings) :
    ∃ p, parseTokens r ts settings.unsignalled = (.ok p, p.errors) ∧
      (parseTokens r ts settings = (.ok p, p.errors) ∨
        ∃ sent signal checks, parseTokens r ts settings = (.error .cancelled, sent) ∧ sent <+: p.errors ∧
          settings.cancel = some signal ∧ signal checks sent.length = true ∧
          ((Setup.ofTokens ts settings).last r).checks = checks + 1) := by
  have hu := regular_ofTokens ts settings.unsignalled
  have hstops := (Setup.stops_root (regular_ofTokens ts settings) r).same_or (.start settings)
  have hsent := (Setup.keeps_sent (Setup.ofTokens ts settings.unsignalled)).last hu rfl r
  obtain ⟨p, hp⟩ := parseTokens_answers r ts (show settings.unsignalled.cancel = none from rfl)
  rcases hrun : (Setup.ofTokens ts settings.unsignalled).run r with ⟨n, x⟩ | ⟨f, x⟩
  · rw [Setup.last, hrun] at hsent
    dsimp only at hsent
    refine ⟨⟨n, x.errors⟩, by rw [parseTokens_of_ok hrun, hsent], ?_⟩
    rcases hstops with he | ⟨y, hy, ⟨signal, checks, hsignal, hchecks, hset⟩, hs⟩
    · -- nothing was called off, so both runs are one
      have hsame : (Setup.ofTokens ts settings).run r = .ok n x := he.trans hrun
      exact .inl (by rw [parseTokens_of_ok hsame, hsent])
    · have hoff : (Setup.ofTokens ts settings).run r = .error .cancelled y := hy
      have hx : Session.after ((Setup.ofTokens ts settings).unsignalled.root r) (.start settings) = x :=
        Setup.after_ok hrun
      rw [hx, hsent] at hs
      refine .inr ⟨y.sent, signal, checks, parseTokens_of_error hoff, hs, hsignal, hset, ?_⟩
      rw [Setup.last, hoff]
      exact hchecks
  · rw [parseTokens_of_error hrun] at hp
    cases hp

end KermlText
