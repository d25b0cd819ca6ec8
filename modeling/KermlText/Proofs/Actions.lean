import KermlText.Parse
import KermlText.Proofs.Decisions

/-! What the single steps of a parse do. Most of them cannot fail, and the session behind them is a
function of the one before: such a step has an equation. The others ask the resolver, or ask whether
the parse is called off. Being called off is the only way in which a parse ends without an answer. -/

namespace KermlText

/-! ### Skipped tokens -/

namespace Stream

variable (s : Stream)

/-- Whether a token of a kind in `set` stands at `pos`. -/
def stands (pos : Nat) (set : KindSet) : Bool := s.kind pos != .eof && set.contains (s.kind pos)

variable {s}

theorem not_atEnd_of_stands (hs : s.eof.kind = .eof) {pos : Nat} {set : KindSet}
    (h : s.stands pos set = true) : s.atEnd pos = false := by
  simp only [stands, Bool.and_eq_true, bne_iff_ne] at h
  exact not_atEnd_of_kind hs h.1

/-- Nothing is skipped at the end, or where the first token is wanted. -/
theorem placesUpTo_eq_nil {sync : KindSet} {n pos : Nat} (hn : n ≠ 0) :
    s.placesUpTo sync n pos = [] ↔ s.atEnd pos = true ∨ sync.contains (s.kind pos) = true := by
  obtain ⟨n, rfl⟩ := Nat.exists_eq_succ_of_ne_zero hn
  unfold placesUpTo
  rcases he : s.atEnd pos with _ | _
  · rw [s.next?_of_not_atEnd he]
    simp
  · simp [s.next?_of_atEnd he]

theorem lookahead_eq_kind {pos : Nat} {c : Bool} (h : s.lookahead pos c ≠ .blockComment) :
    s.lookahead pos c = s.kind pos := by
  unfold lookahead at h ⊢
  split
  · rename_i hc
    exact absurd (if_pos hc) h
  · rfl

variable (s)

/-- Places are skipped one behind the other, so the last of them is where the skipping ends. -/
theorem kept_placesUpTo {sync : KindSet} {n pos last : Nat} (hp : pos ≤ s.size)
    (h : (s.placesUpTo sync n pos).getLast? = some last) :
    s.Kept pos ((s.placesUpTo sync n pos).map s.token) (last + 1) := by
  induction n generalizing pos with
  | zero => simp [placesUpTo] at h
  | succ n ih =>
    unfold placesUpTo at h ⊢
    rcases he : s.atEnd pos with _ | _
    · rw [s.next?_of_not_atEnd he] at h ⊢
      dsimp only at h ⊢
      split at h
      · simp at h
      · rename_i hk
        rw [if_neg hk]
        have hc := Kept.current hp he
        rcases hr : (s.placesUpTo sync n (s.settle pos + 1)).getLast? with _ | l
        · rw [List.getLast?_eq_none_iff] at hr
          rw [hr] at h ⊢
          simp only [List.getLast?_singleton, Option.some.injEq] at h
          exact h ▸ hc
        · rw [List.getLast?_cons, hr] at h
          simp only [Option.getD_some, Option.some.injEq] at h
          subst h
          exact hc.trans (ih hc.le_size hr)
    · simp [s.next?_of_atEnd he] at h

/-- Only tokens of the default channel are skipped. -/
theorem channel_of_mem_placesUpTo {sync : KindSet} {n pos i : Nat}
    (h : i ∈ s.placesUpTo sync n pos) : (s.token i).channel = .default := by
  induction n generalizing pos with
  | zero => simp [placesUpTo] at h
  | succ n ih =>
    unfold placesUpTo at h
    rcases he : s.atEnd pos with _ | _
    · rw [s.next?_of_not_atEnd he] at h
      dsimp only at h
      split at h
      · simp at h
      · rcases List.mem_cons.1 h with rfl | h
        · exact s.channel_settle (s.settle_lt_of_not_atEnd he)
        · exact ih h
    · simp [s.next?_of_atEnd he] at h

end Stream

/-! ### Sessions -/

namespace Session

/-- The session when the token at `place` has been taken. -/
def matchedAt (x : Session) (place : Nat) : Session :=
  { x with pos := place + 1, recovering := false, journal := .matched place :: x.journal }

/-- The session when the tokens at `places` have been skipped. -/
def skippedOver (x : Session) (context : KindSet) (places : List Nat) : Session :=
  match places.getLast? with
  | none => x
  | some last =>
    { x with
      pos := last + 1
      journal := (places.map fun i => Event.skipped i context).reverse ++ x.journal }

variable (x : Session) (context : KindSet) (places : List Nat)

@[simp] theorem skippedOver_nil : x.skippedOver context [] = x := rfl

@[simp] theorem skippedOver_errors : (x.skippedOver context places).errors = x.errors := by
  unfold skippedOver; split <;> rfl

@[simp] theorem skippedOver_sent : (x.skippedOver context places).sent = x.sent := by
  unfold skippedOver; split <;> rfl

@[simp] theorem skippedOver_recovering :
    (x.skippedOver context places).recovering = x.recovering := by
  unfold skippedOver; split <;> rfl

@[simp] theorem skippedOver_resolver : (x.skippedOver context places).resolver = x.resolver := by
  unfold skippedOver; split <;> rfl

/-- Skipping moves on if it skips anything. -/
theorem lt_skippedOver {s : Stream} {x : Session} (hx : x.pos ≤ s.size) {sync : KindSet} {n : Nat}
    (h : s.placesUpTo sync n x.pos ≠ []) :
    x.pos < (x.skippedOver context (s.placesUpTo sync n x.pos)).pos := by
  unfold skippedOver
  split
  · rename_i hl
    exact absurd (List.getLast?_eq_none_iff.1 hl) h
  · rename_i last hl
    have hk := s.kept_placesUpTo hx hl
    rcases Nat.eq_or_lt_of_le hk.le with he | hlt
    · rw [← he] at hk
      exact absurd (List.map_eq_nil_iff.1 hk.eq_nil) h
    · exact hlt

/-- The two sessions stand at the same place and have reported the same. -/
structure Alike (x y : Session) : Prop where
  pos : y.pos = x.pos
  errors : y.errors = x.errors
  sent : y.sent = x.sent
  recovering : y.recovering = x.recovering

namespace Alike

variable {x : Session}

theorem refl : x.Alike x := ⟨rfl, rfl, rfl, rfl⟩

theorem trans {y z : Session} (h1 : x.Alike y) (h2 : y.Alike z) : x.Alike z :=
  ⟨h2.pos.trans h1.pos, h2.errors.trans h1.errors, h2.sent.trans h1.sent,
    h2.recovering.trans h1.recovering⟩

end Alike

/-- The session when it was asked whether the parse is called off. -/
def checked (x : Session) : Session := { x with checks := x.checks + 1 }

/-- The session behind a question to the resolver. -/
def asked (x : Session) (z : Resolver) : Session := { x with resolver := z }

/-- The session with one more event on record. -/
def noted (x : Session) (e : Event) : Session := { x with journal := e :: x.journal }

theorem note_eq (e : Event) : note e x = .ok () (x.noted e) := rfl

theorem alike_noted (e : Event) : x.Alike (x.noted e) := ⟨rfl, rfl, rfl, rfl⟩

@[simp] theorem noted_pos (e : Event) : (x.noted e).pos = x.pos := rfl

@[simp] theorem noted_errors (e : Event) : (x.noted e).errors = x.errors := rfl

@[simp] theorem noted_resolver (e : Event) : (x.noted e).resolver = x.resolver := rfl

theorem alike_checked : x.Alike x.checked := ⟨rfl, rfl, rfl, rfl⟩

theorem alike_asked (z : Resolver) : x.Alike (x.asked z) := ⟨rfl, rfl, rfl, rfl⟩

end Session

namespace Setup

open Session

/-- What a parse counts on: the mark for the end is one, and trials make progress. -/
structure Regular (u : Setup) : Prop where
  eof : u.stream.eof.kind = .eof
  founded : u.grammar.Founded

variable (u : Setup)

/-! ### How an action ends -/

theorem bind_apply {α β : Type} (m : Action α) (k : α → Action β) (x : Session) :
    (m >>= k) x =
      match m x with
      | .ok a y => k a y
      | .error f y => .error f y := by
  simp only [bind, EStateM.bind]
  cases m x <;> rfl

theorem get_apply (x : Session) : (get : Action Session) x = .ok x x := rfl

theorem pure_apply {α : Type} (a : α) (x : Session) : (pure a : Action α) x = .ok a x := rfl

theorem bind_ok {α β : Type} {m : Action α} {k : α → Action β} {x y : Session} {a : α} (h : m x = .ok a y) :
    (m >>= k) x = k a y := by
  rw [bind_apply, h]

theorem moveTo_eq (place : Nat) (x : Session) : moveTo place x = .ok () { x with pos := place } := rfl

theorem kind_eq (x : Session) : u.kind x = .ok (u.stream.kind x.pos) x := rfl

theorem lookahead_eq (scope : Scope) (x : Session) :
    u.lookahead scope x = .ok (u.stream.lookahead x.pos scope.comments) x := rfl

/-- The action ends as `post` says, unless the parse is called off. -/
def Ends {α : Type} (m : Action α) (x : Session) (post : α → Session → Prop) : Prop :=
  match m x with
  | .ok a y => post a y
  | .error f _ => f = .cancelled ∧ u.settings.cancel ≠ none

variable {u}

theorem ends_ok {α : Type} {m : Action α} {x y : Session} {a : α} (h : m x = .ok a y)
    {post : α → Session → Prop} : u.Ends m x post ↔ post a y := by
  unfold Ends; rw [h]

@[simp] theorem ends_pure {α : Type} (a : α) (x : Session) (post : α → Session → Prop) :
    u.Ends (pure a) x post ↔ post a x := Iff.rfl

@[simp] theorem ends_get (x : Session) (post : Session → Session → Prop) :
    u.Ends get x post ↔ post x x := Iff.rfl

@[simp] theorem ends_bind {α β : Type} (m : Action α) (k : α → Action β) (x : Session)
    (post : β → Session → Prop) :
    u.Ends (m >>= k) x post ↔ u.Ends m x fun a y => u.Ends (k a) y post := by
  unfold Ends
  rw [bind_apply]
  cases m x <;> rfl

@[simp] theorem ends_kind (x : Session) (post : Kind → Session → Prop) :
    u.Ends u.kind x post ↔ post (u.stream.kind x.pos) x := Iff.rfl

@[simp] theorem ends_lookahead (scope : Scope) (x : Session) (post : Kind → Session → Prop) :
    u.Ends (u.lookahead scope) x post ↔ post (u.stream.lookahead x.pos scope.comments) x := Iff.rfl

@[simp] theorem ends_moveTo (place : Nat) (x : Session) (post : Unit → Session → Prop) :
    u.Ends (moveTo place) x post ↔ post () { x with pos := place } := Iff.rfl

@[simp] theorem ends_note (e : Event) (x : Session) (post : Unit → Session → Prop) :
    u.Ends (note e) x post ↔ post () (x.noted e) := Iff.rfl

theorem Ends.imp {α : Type} {m : Action α} {x : Session} {p q : α → Session → Prop}
    (h : u.Ends m x p) (hpq : ∀ a y, m x = .ok a y → p a y → q a y) : u.Ends m x q := by
  unfold Ends at *
  split
  · rename_i a y he
    rw [he] at h
    exact hpq a y he h
  · rename_i he
    rw [he] at h
    exact h

variable (u)

/-! ### Reports -/

/-- The session after a report. -/
def reported (code : Code) (rule : Rule) (expected : KindSet) (x : Session) : Session :=
  if x.recovering then x.noted .suppressed
  else if u.settings.maxErrors.any (fun n => n ≤ x.errors.length) then x
  else
    let found := u.stream.current x.pos
    let e := SyntaxError.make (if found.kind = .error then .invalidToken else code) rule found expected
    { x with
      errors := x.errors ++ [e]
      sent := x.sent ++ [e]
      recovering := true
      journal := .reported :: x.journal }

theorem report_eq (code : Code) (rule : Rule) (expected : KindSet) (x : Session) :
    u.report code rule expected x = .ok () (u.reported code rule expected x) := by
  unfold report reported
  simp only [bind_apply, get_apply]
  split
  · rfl
  · split <;> rfl

section

variable (code : Code) (rule : Rule) (expected : KindSet) (x : Session)

@[simp] theorem ends_report (post : Unit → Session → Prop) :
    u.Ends (u.report code rule expected) x post ↔ post () (u.reported code rule expected x) :=
  ends_ok (u.report_eq code rule expected x)

@[simp] theorem reported_pos : (u.reported code rule expected x).pos = x.pos := by
  unfold reported
  split
  · rfl
  · split <;> rfl

@[simp] theorem reported_resolver : (u.reported code rule expected x).resolver = x.resolver := by
  unfold reported
  split
  · rfl
  · split <;> rfl

theorem errors_prefix_reported : x.errors <+: (u.reported code rule expected x).errors := by
  unfold reported
  split
  · exact List.prefix_refl _
  · split
    · exact List.prefix_refl _
    · exact List.prefix_append _ _

/-- A parse that may report nothing reports nothing. -/
theorem errors_reported_of_mute (h : u.settings.maxErrors = some 0) :
    (u.reported code rule expected x).errors = x.errors := by
  unfold reported
  split
  · rfl
  · rw [if_pos (by simp [h])]

end

/-! ### Taking and skipping tokens -/

/-- The node of the skipped tokens at `places`. -/
def strays (places : List Nat) : Option Node :=
  if places = [] then none
  else some (.mk .error (places.map fun i => .token (u.stream.token i)) [] true)

@[simp] theorem strays_nil : u.strays [] = none := rfl

/-- What is skipped up to a kind in `sync`. -/
def passed (sync : KindSet) (x : Session) : List Nat :=
  u.stream.placesUpTo sync u.stream.size x.pos

@[simp] theorem passed_reported (sync : KindSet) (code : Code) (rule : Rule) (expected : KindSet)
    (x : Session) : u.passed sync (u.reported code rule expected x) = u.passed sync x := by
  simp [passed]

theorem skip_eq (scope : Scope) (places : List Nat) (x : Session) :
    u.skip scope places x = .ok (u.strays places) (x.skippedOver scope.context places) := by
  unfold skip strays skippedOver
  rcases h : places.getLast? with _ | last
  · rw [List.getLast?_eq_none_iff] at h
    simp [h]
    rfl
  · have hne : places ≠ [] := fun h0 => by simp [h0] at h
    rw [if_neg hne]
    rfl

theorem skipUntil_eq (scope : Scope) (sync : KindSet) (x : Session) :
    u.skipUntil scope sync x =
      .ok (u.strays (u.passed sync x)) (x.skippedOver scope.context (u.passed sync x)) :=
  u.skip_eq scope (u.passed sync x) x

theorem skipOne_eq (scope : Scope) (x : Session) :
    u.skipOne scope x =
      .ok (u.strays (u.stream.placesUpTo ∅ 1 x.pos))
        (x.skippedOver scope.context (u.stream.placesUpTo ∅ 1 x.pos)) := by
  have h : u.stream.placesUpTo ∅ 1 x.pos =
      if u.stream.atEnd x.pos then [] else [u.stream.settle x.pos] := by
    unfold Stream.placesUpTo
    rcases he : u.stream.atEnd x.pos with _ | _
    · simp [u.stream.next?_of_not_atEnd he, Stream.placesUpTo]
    · simp [u.stream.next?_of_atEnd he]
  rw [h]
  exact u.skip_eq scope _ x

@[simp] theorem ends_skipUntil (scope : Scope) (sync : KindSet) (x : Session)
    (post : Option Node → Session → Prop) :
    u.Ends (u.skipUntil scope sync) x post ↔
      post (u.strays (u.passed sync x)) (x.skippedOver scope.context (u.passed sync x)) :=
  ends_ok (u.skipUntil_eq scope sync x)

@[simp] theorem ends_skipOne (scope : Scope) (x : Session) (post : Option Node → Session → Prop) :
    u.Ends (u.skipOne scope) x post ↔
      post (u.strays (u.stream.placesUpTo ∅ 1 x.pos))
        (x.skippedOver scope.context (u.stream.placesUpTo ∅ 1 x.pos)) :=
  ends_ok (u.skipOne_eq scope x)

variable {u}

theorem eat_eq (hu : u.Regular) (set : KindSet) (b : Builder) (x : Session) :
    u.eat set b x =
      if u.stream.stands x.pos set then
        .ok (some (b.pushToken (u.stream.current x.pos))) (x.matchedAt (u.stream.settle x.pos))
      else .ok none x := by
  have hi : (u.stream.kind x.pos = .eof || !set.contains (u.stream.kind x.pos)) =
      !u.stream.stands x.pos set := by
    unfold Stream.stands
    by_cases h : u.stream.kind x.pos = .eof <;> simp [h]
  unfold eat
  simp only [bind_apply, get_apply, hi]
  rcases h : u.stream.stands x.pos set with _ | _
  · simp
    rfl
  · have he := Stream.not_atEnd_of_stands hu.eof h
    simp [Stream.advance, u.stream.next?_of_not_atEnd he]
    rfl

/-- The end of input is there, or the rest is an error. -/
theorem expectEnd_eq (scope : Scope) (rule : Rule) (b : Builder) (x : Session) :
    u.expectEnd scope rule b x =
      if u.stream.atEnd x.pos then .ok b x
      else
        .ok (b.pushNode? (u.strays (u.passed endKinds x)))
          ((u.reported .trailingInput rule endKinds x).skippedOver scope.context
            (u.passed endKinds x)) := by
  unfold expectEnd atEnd
  simp only [bind_apply, get_apply, pure_apply]
  split
  · rfl
  · simp only [bind_apply, pure_apply, report_eq, skipUntil_eq, passed_reported]

/-- The session when a token of a kind in `set` was missing and what stands in front of the next
place to go on was skipped. -/
def missed (u : Setup) (scope : Scope) (set : KindSet) (x : Session) : Session :=
  (u.reported (missing set (u.stream.kind x.pos)) scope.rule set x).skippedOver scope.context
    (u.passed (set ∪ scope.follow ∪ scope.context ∪ endKinds) x)

/-- A wanted token is there, or it is behind the skipped ones, or it counts as if it had been
there. -/
theorem expect_eq (hu : u.Regular) (scope : Scope) (set : KindSet) (b : Builder) (x : Session) :
    u.expect scope set b x =
      if set = endKinds then u.expectEnd scope scope.rule b x
      else if u.stream.stands x.pos set then
        .ok (b.pushToken (u.stream.current x.pos)) (x.matchedAt (u.stream.settle x.pos))
      else
        let b' := b.markError.pushNode?
          (u.strays (u.passed (set ∪ scope.follow ∪ scope.context ∪ endKinds) x))
        let y := u.missed scope set x
        if u.stream.stands y.pos set then
          .ok (b'.pushToken (u.stream.current y.pos)) (y.matchedAt (u.stream.settle y.pos))
        else .ok b' { y with recovering := true } := by
  unfold expect
  split
  · rfl
  · simp only [bind_apply, eat_eq hu]
    rcases h : u.stream.stands x.pos set with _ | _
    · simp only [Bool.false_eq_true, if_false, kind, bind_apply, get_apply, pure_apply, report_eq,
        skipUntil_eq, passed_reported, eat_eq hu]
      rcases hy : u.stream.stands (u.missed scope set x).pos set with _ | _
      · rw [missed] at hy ⊢
        simp only [hy]
        rfl
      · rw [missed] at hy ⊢
        simp only [hy]
        rfl
    · rfl

theorem recover_eq (scope : Scope) (rule : Rule) (b : Builder) (x : Session) :
    u.recover scope rule b x =
      let places := u.passed (scope.follow ∪ u.grammar.follow rule ∪ scope.context ∪ endKinds) x
      .ok (b.pushNode? (u.strays places)).markError (x.skippedOver scope.context places) := by
  unfold recover
  simp only [bind_apply, skipUntil_eq, pure_apply]

theorem expectComment_eq (scope : Scope) (b : Builder) (x : Session) :
    u.expectComment scope b x =
      match u.stream.comment? x.pos with
      | some i => .ok (b.pushToken (u.stream.token i)) (x.matchedAt i)
      | none => .ok b.markError (u.reported .missingToken scope.rule (.single .blockComment) x) := by
  unfold expectComment
  simp only [bind_apply, get_apply]
  rcases u.stream.comment? x.pos with _ | i
  · simp only [bind_apply, pure_apply, report_eq]
  · rfl

/-! ### Questions -/

theorem ends_checkCancelled (x : Session) {post : Unit → Session → Prop} (h : post () x.checked) :
    u.Ends u.checkCancelled x post := by
  unfold Ends checkCancelled
  simp only [bind_apply, get_apply]
  dsimp only [set, MonadStateOf.set, EStateM.set]
  rcases hc : u.settings.isCancelled x.checks x.sent.length with _ | _
  · exact h
  · refine ⟨rfl, fun hn => ?_⟩
    simp [Settings.isCancelled, hn] at hc

theorem checkCancelled_ok {x y : Session} (h : u.checkCancelled x = .ok () y) : y = x.checked := by
  have he : u.Ends u.checkCancelled x fun _ z => z = x.checked := ends_checkCancelled x rfl
  exact (ends_ok h).1 he

theorem decide_eq (scope : Scope) (x : Session) :
    u.decide scope x =
      let d := x.resolver.decide u.grammar u.stream x.pos scope.rule (u.grammar.choices scope.rule)
        scope.follow scope.comments
      .ok d.1 (x.asked d.2) := rfl

theorem enter_eq (scope : Scope) (e : Element) (x : Session) :
    u.enter scope e x =
      let d := x.resolver.enter u.grammar u.stream x.pos e scope.follow scope.comments
      match d.1 with
      | .ok b => .ok b (x.asked d.2)
      | .error f => .error f (x.asked d.2) := by
  unfold enter
  simp only [bind_apply, get_apply]
  dsimp only [set, MonadStateOf.set, EStateM.set]
  rcases (x.resolver.enter u.grammar u.stream x.pos e scope.follow scope.comments).1 with _ | _ <;> rfl

theorem enter_ok {scope : Scope} {e : Element} {x y : Session} {b : Bool}
    (h : u.enter scope e x = .ok b y) :
    (x.resolver.enter u.grammar u.stream x.pos e scope.follow scope.comments).1 = .ok b ∧
      y = x.asked (x.resolver.enter u.grammar u.stream x.pos e scope.follow scope.comments).2 := by
  rw [enter_eq] at h
  dsimp only at h
  split at h
  · rename_i he
    cases h
    exact ⟨he, rfl⟩
  · cases h

/-- An item is entered unasked where more of them are wanted. -/
theorem enterItem_ok {scope : Scope} {e : Element} {need : Nat} {x y : Session} {b : Bool}
    (h : u.enterItem scope e need x = .ok b y) :
    0 < need ∧ b = true ∧ y = x ∨ need = 0 ∧ u.enter scope e x = .ok b y := by
  unfold enterItem at h
  split at h
  · cases h
    exact .inl ⟨‹_›, rfl, rfl⟩
  · exact .inr ⟨by omega, h⟩

theorem enter_of_not_enterItem {scope : Scope} {e : Element} {need : Nat} {x y : Session}
    (h : u.enterItem scope e need x = .ok false y) : need = 0 ∧ u.enter scope e x = .ok false y := by
  rcases enterItem_ok h with ⟨-, hb, -⟩ | h
  · cases hb
  · exact h

theorem decide_answers (hu : u.Regular) (scope : Scope) {x : Session}
    (hz : x.resolver.Valid u.grammar) (hx : x.pos ≤ u.stream.size) :
    ∃ d y, u.decide scope x = .ok d y ∧ Resolver.Answers u.grammar scope.rule d :=
  ⟨_, _, decide_eq scope x,
    (Resolver.decide_answers hu.eof hu.founded hz hx scope.rule scope.follow scope.comments).1⟩

theorem enter_answers (hu : u.Regular) (scope : Scope) {e : Element}
    (he : e.founded u.grammar.solid = true) {x : Session} (hx : x.pos ≤ u.stream.size) :
    ∃ b y, u.enter scope e x = .ok b y := by
  obtain ⟨b, hb⟩ := Resolver.enter_answers hu.eof hu.founded x.resolver hx he scope.follow
    scope.comments
  refine ⟨b, x.asked (x.resolver.enter u.grammar u.stream x.pos e scope.follow scope.comments).2, ?_⟩
  rw [enter_eq]
  dsimp only
  rw [hb]

theorem enterItem_answers (hu : u.Regular) (scope : Scope) {e : Element}
    (he : e.founded u.grammar.solid = true) (need : Nat) {x : Session}
    (hx : x.pos ≤ u.stream.size) : ∃ b y, u.enterItem scope e need x = .ok b y := by
  unfold enterItem
  split
  · exact ⟨true, x, rfl⟩
  · exact enter_answers hu scope he hx

theorem expect_answers (hu : u.Regular) (scope : Scope) (set : KindSet) (b : Builder) (x : Session) :
    ∃ b' x', u.expect scope set b x = .ok b' x' := by
  rw [expect_eq hu]
  split
  · rw [expectEnd_eq]
    split <;> exact ⟨_, _, rfl⟩
  · split
    · exact ⟨_, _, rfl⟩
    · dsimp only
      split <;> exact ⟨_, _, rfl⟩

theorem recover_answers (scope : Scope) (r : Rule) (b : Builder) (x : Session) :
    ∃ b' x', u.recover scope r b x = .ok b' x' :=
  ⟨_, _, recover_eq scope r b x⟩

theorem expectComment_answers (scope : Scope) (b : Builder) (x : Session) :
    ∃ b' x', u.expectComment scope b x = .ok b' x' := by
  rw [expectComment_eq]
  split <;> exact ⟨_, _, rfl⟩

end Setup

end KermlText
