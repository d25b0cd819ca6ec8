import KermlText.Proofs.Answers
import KermlText.Proofs.TwinDecisions

/-! Two parses in step. If every single step of them keeps a relation between their sessions, and what
they see and decide is the same on both sides, they build the same tree. -/

namespace KermlText

namespace Setup

open Session

/-- Both actions come to the same answer in sessions that are in step. One that does not end says
nothing. -/
inductive Meet (S : Session → Session → Prop) {α : Type} :
    EStateM.Result Failure Session α → EStateM.Result Failure Session α → Prop
  | ok {a : α} {x y : Session} (h : S x y) : Meet S (.ok a x) (.ok a y)
  | endless {x : Session} {r : EStateM.Result Failure Session α} : Meet S (.error .endless x) r
  | endless' {x : Session} {r : EStateM.Result Failure Session α} : Meet S r (.error .endless x)

/-- Steps of `u` and `v` keep sessions in `S`. Comments are looked for only if both see them: if
`sees` holds. -/
structure Mirrors (u v : Setup) (S : Session → Session → Prop) (sees : Prop) : Prop where
  grammar : v.grammar = u.grammar
  depth : v.settings.maxDepth = u.settings.maxDepth
  cancel : u.settings.cancel = none
  cancel' : v.settings.cancel = none
  operators {r table} : u.grammar.table? r = some table → (sees ∨ u.grammar.aware r = false) →
    ∀ {k tier node}, table.lookup k = some (tier, node) → sees ∨ u.grammar.aware node = false
  noted {x y} (e e' : Event) : S x y → S (x.noted e) (y.noted e')
  checked {x y} : S x y → S x.checked y.checked
  recovers {x y} : S x y → S { x with recovering := true } { y with recovering := true }
  place {x y x' y'} : S x y → S x' y' → (y'.pos = y.pos ↔ x'.pos = x.pos)
  kind {x y} : S x y → v.stream.kind y.pos = u.stream.kind x.pos
  lookahead {x y c} : (c = true → sees) → S x y →
    v.stream.lookahead y.pos c = u.stream.lookahead x.pos c
  atEnd {x y} : S x y → v.stream.atEnd y.pos = u.stream.atEnd x.pos
  current {x y} : S x y → u.stream.atEnd x.pos = false → v.stream.current y.pos = u.stream.current x.pos
  matched {x y} : S x y → u.stream.atEnd x.pos = false →
    S (x.matchedAt (u.stream.settle x.pos)) (y.matchedAt (v.stream.settle y.pos))
  operated {x y} : S x y → u.stream.atEnd x.pos = false →
    S (x.operatedAt (u.stream.settle x.pos)) (y.operatedAt (v.stream.settle y.pos))
  noComment {x y} : sees → S x y → u.stream.comment? x.pos = none → v.stream.comment? y.pos = none
  comment {x y i} : sees → S x y → u.stream.comment? x.pos = some i →
    ∃ j, v.stream.comment? y.pos = some j ∧ v.stream.token j = u.stream.token i ∧
      S (x.matchedAt i) (y.matchedAt j)
  reported {x y} (code : Code) (r : Rule) (expected : KindSet) : S x y →
    S (u.reported code r expected x) (v.reported code r expected y)
  strays {x y} (sync : KindSet) : S x y → v.strays (v.passed sync y) = u.strays (u.passed sync x)
  skipped {x y} (context sync : KindSet) : S x y →
    S (x.skippedOver context (u.passed sync x)) (y.skippedOver context (v.passed sync y))
  stray {x y} : S x y →
    v.strays (v.stream.placesUpTo ∅ 1 y.pos) = u.strays (u.stream.placesUpTo ∅ 1 x.pos)
  skippedOne {x y} (context : KindSet) : S x y →
    S (x.skippedOver context (u.stream.placesUpTo ∅ 1 x.pos))
      (y.skippedOver context (v.stream.placesUpTo ∅ 1 y.pos))
  decided {x y r c} (follow : KindSet) : (c = true → sees) → (sees ∨ u.grammar.aware r = false) → S x y →
    let d := x.resolver.decide u.grammar u.stream x.pos r (u.grammar.choices r) follow c
    let d' := y.resolver.decide u.grammar v.stream y.pos r (u.grammar.choices r) follow c
    Resolver.Alike d.1 d'.1 ∧ S (x.asked d.2) (y.asked d'.2) ∧
      ∀ i, d.1 = .ok i → sees ∨ allUnaware u.grammar.aware (Resolver.elements u.grammar r i) = true
  entered {x y e c} (follow : KindSet) : (c = true → sees) → (sees ∨ e.unaware u.grammar.aware = true) → S x y →
    let d := x.resolver.enter u.grammar u.stream x.pos e follow c
    let d' := y.resolver.enter u.grammar v.stream y.pos e follow c
    d.1 = .error .endless ∨ d'.1 = .error .endless ∨
      ∃ b, d.1 = .ok b ∧ d'.1 = .ok b ∧ S (x.asked d.2) (y.asked d'.2)

section

variable {S : Session → Session → Prop} {α β : Type} {m m' : Action α} {k k' : α → Action β}
  {x y : Session}

theorem meet_bind (h : Meet S (m x) (m' y))
    (hk : ∀ a z w, m x = .ok a z → S z w → Meet S (k a z) (k' a w)) :
    Meet S ((m >>= k) x) ((m' >>= k') y) := by
  rw [bind_apply, bind_apply]
  generalize hr : m x = r at h
  generalize m' y = r' at h
  cases h with
  | ok hs => exact hk _ _ _ hr hs
  | endless => exact .endless
  | endless' => exact .endless'

end

namespace Mirrors

variable {u v : Setup} {S : Session → Session → Prop} {sees : Prop} (h : u.Mirrors v S sees)
include h

/-! ### Steps -/

section

variable {x y : Session} (hs : S x y)
include hs

theorem checkCancelled : Meet S (u.checkCancelled x) (v.checkCancelled y) := by
  have hok : ∀ {w : Setup} (x : Session), w.settings.cancel = none →
      w.checkCancelled x = .ok () x.checked := by
    intro w x hw
    unfold Setup.checkCancelled
    simp only [bind_apply, get_apply, Settings.isCancelled, hw]
    rfl
  rw [hok x h.cancel, hok y h.cancel']
  exact .ok (h.checked hs)

theorem enter {scope : Scope} (hc : scope.comments = true → sees) {e : Element}
    (he : sees ∨ e.unaware u.grammar.aware = true) : Meet S (u.enter scope e x) (v.enter scope e y) := by
  rw [enter_eq, enter_eq, h.grammar]
  dsimp only
  rcases h.entered scope.follow hc he hs with hd | hd | ⟨b, hb, hb', hs'⟩
  · rw [hd]
    exact .endless
  · rw [hd]
    exact .endless'
  · rw [hb, hb']
    exact .ok hs'

theorem enterItem {scope : Scope} (hc : scope.comments = true → sees) {e : Element}
    (he : sees ∨ e.unaware u.grammar.aware = true) (need : Nat) :
    Meet S (u.enterItem scope e need x) (v.enterItem scope e need y) := by
  unfold Setup.enterItem
  split
  · exact .ok hs
  · exact h.enter hs hc he

theorem expectEnd (scope : Scope) (r : Rule) (b : Builder) :
    Meet S (u.expectEnd scope r b x) (v.expectEnd scope r b y) := by
  have hsk := h.skipped scope.context endKinds (h.reported .trailingInput r endKinds hs)
  rw [passed_reported, passed_reported] at hsk
  rw [expectEnd_eq, expectEnd_eq, h.atEnd hs, h.strays endKinds hs]
  split
  · exact .ok hs
  · exact .ok hsk

theorem stands (set : KindSet) : v.stream.stands y.pos set = u.stream.stands x.pos set := by
  rw [Stream.stands, Stream.stands, h.kind hs]

theorem missed (scope : Scope) (set : KindSet) : S (u.missed scope set x) (v.missed scope set y) := by
  have hsk := h.skipped scope.context (set ∪ scope.follow ∪ scope.context ∪ endKinds)
    (h.reported (missing set (u.stream.kind x.pos)) scope.rule set hs)
  rw [passed_reported, passed_reported] at hsk
  unfold Setup.missed
  rwa [h.kind hs]

theorem expect (hu : u.Regular) (hv : v.Regular) (scope : Scope) (set : KindSet) (b : Builder) :
    Meet S (u.expect scope set b x) (v.expect scope set b y) := by
  have hm := h.missed hs scope set
  rw [expect_eq hu, expect_eq hv]
  split
  · exact h.expectEnd hs scope scope.rule b
  · rw [h.stands hs set]
    split
    · rename_i hst
      have he := Stream.not_atEnd_of_stands hu.eof hst
      rw [h.current hs he]
      exact .ok (h.matched hs he)
    · dsimp only
      rw [h.stands hm set, h.strays _ hs]
      split
      · rename_i hst
        have he := Stream.not_atEnd_of_stands hu.eof hst
        rw [h.current hm he]
        exact .ok (h.matched hm he)
      · exact .ok (h.recovers hm)

theorem recover (scope : Scope) (r : Rule) (b : Builder) :
    Meet S (u.recover scope r b x) (v.recover scope r b y) := by
  rw [recover_eq, recover_eq, h.grammar]
  dsimp only
  rw [h.strays _ hs]
  exact .ok (h.skipped _ _ hs)

theorem expectComment (hsees : sees) (scope : Scope) (b : Builder) :
    Meet S (u.expectComment scope b x) (v.expectComment scope b y) := by
  rw [expectComment_eq, expectComment_eq]
  rcases hi : u.stream.comment? x.pos with _ | i
  · rw [h.noComment hsees hs hi]
    exact .ok (h.reported _ _ _ hs)
  · obtain ⟨j, hj, ht, hs'⟩ := h.comment hsees hs hi
    rw [hj]
    dsimp only
    rw [ht]
    exact .ok hs'

/-- A list goes round again on both sides, or on neither. -/
theorem items {e : Element} (he : sees ∨ e.unaware u.grammar.aware = true)
    {item item' : Scope → Builder → Action Builder}
    (hitem : ∀ scope b x y, (scope.comments = true → sees) → S x y →
      Meet S (item scope b x) (item' scope b y))
    (resync : Bool) {scope : Scope} (hc : scope.comments = true → sees) (rounds rounds' need : Nat)
    (b : Builder) :
    Meet S (u.items item e resync scope rounds need b x) (v.items item' e resync scope rounds' need b y) := by
  induction rounds generalizing rounds' need b x y with
  | zero => exact .endless
  | succ rounds ih =>
    cases rounds' with
    | zero => exact .endless'
    | succ rounds' =>
      unfold Setup.items
      refine meet_bind (h.checkCancelled hs) fun _ z w _ hs => ?_
      rw [bind_ok (get_apply z), bind_ok (get_apply w)]
      refine meet_bind (h.enterItem hs hc he need) fun d z' w' _ hs' => ?_
      have hwithin : v.within e scope = u.within e scope := by rw [Setup.within, Setup.within, h.grammar]
      rw [h.grammar, hwithin]
      cases d with
      | true =>
        have hc' : (u.within e scope).comments = true → sees := hc
        rw [if_pos rfl, if_pos rfl]
        refine meet_bind (hitem _ b _ _ hc' hs') fun c z'' w'' _ hs'' => ?_
        -- whether the item took anything is the same on both sides
        have hplace := h.place hs hs''
        rw [bind_ok (get_apply z''), bind_ok (get_apply w'')]
        by_cases hpos : z''.pos = z.pos
        · rw [if_pos hpos, if_pos (hplace.2 hpos), bind_ok (kind_eq u z''), bind_ok (kind_eq v w''),
            h.kind hs'']
          split
          · exact .ok hs''
          · have hr := h.reported .unexpectedToken scope.rule (scope.follow ∪ u.grammar.firstOf e) hs''
            have hsk := h.skippedOne scope.context hr
            rw [bind_ok (u.report_eq _ _ _ z''), bind_ok (v.report_eq _ _ _ w''),
              bind_ok (u.skipOne_eq scope _), bind_ok (v.skipOne_eq scope _), h.stray hr,
              bind_ok (get_apply _), bind_ok (get_apply _), bind_ok (note_eq _ _), bind_ok (note_eq _ _)]
            exact ih (h.noted _ _ hsk) _ _ _
        · rw [if_neg hpos, if_neg (mt hplace.1 hpos), bind_ok (get_apply z''), bind_ok (get_apply w''),
            bind_ok (note_eq _ _), bind_ok (note_eq _ _)]
          exact ih (h.noted _ _ hs'') _ _ _
      | false =>
        have hleaves : v.leaves e resync scope = u.leaves e resync scope := by
          funext k
          rw [Setup.leaves, Setup.leaves, h.grammar]
        rw [if_neg Bool.false_ne_true, if_neg Bool.false_ne_true, bind_ok (lookahead_eq u scope z'),
          bind_ok (lookahead_eq v scope w'), h.lookahead hc hs', hleaves]
        split
        · exact .ok hs'
        · have hr := h.reported .unexpectedToken scope.rule (scope.follow ∪ u.grammar.firstOf e) hs'
          have hsk := h.skipped scope.context (scope.follow ∪ u.grammar.firstOf e ∪ endKinds) hr
          rw [bind_ok (u.report_eq _ _ _ z'), bind_ok (v.report_eq _ _ _ w'),
            bind_ok (u.skipUntil_eq scope _ _), bind_ok (v.skipUntil_eq scope _ _), h.strays _ hr,
            bind_ok (get_apply _), bind_ok (get_apply _), bind_ok (note_eq _ _), bind_ok (note_eq _ _)]
          exact ih (h.noted _ _ hsk) _ _ _

end

/-! ### Rules -/

end Mirrors

/-- Calls of a rule on both sides come to the same. -/
def MeetCalls (u : Setup) (S : Session → Session → Prop) (sees : Prop) (call call' : Call) : Prop :=
  ∀ r level scope b x y, (scope.comments = true → sees) → (sees ∨ u.grammar.aware r = false) → S x y →
    Meet S (call r level scope b x) (call' r level scope b y)

section

variable {u v : Setup} {S : Session → Session → Prop} {sees : Prop} {call call' : Call}

mutual

theorem Mirrors.element (h : u.Mirrors v S sees) (hu : u.Regular) (hv : v.Regular)
    (hcall : u.MeetCalls S sees call call') :
    ∀ e : Element, (sees ∨ e.unaware u.grammar.aware = true) →
      ∀ scope b x y, (scope.comments = true → sees) → S x y →
        Meet S (u.element call e scope b x) (v.element call' e scope b y)
  | .token k, _, scope, b, x, y, _, hs => by
    unfold Setup.element
    exact h.expect hs hu hv _ _ _
  | .relation k _, _, scope, b, x, y, _, hs => by
    unfold Setup.element
    exact h.expect hs hu hv _ _ _
  | .oneOf ks, _, scope, b, x, y, _, hs => by
    unfold Setup.element
    exact h.expect hs hu hv _ _ _
  | .comment, he, scope, b, x, y, _, hs => by
    unfold Setup.element
    exact h.expectComment hs (he.resolve_right (by simp [Element.unaware])) _ _
  | .rule r, he, scope, b, x, y, hc, hs => by
    simp only [Element.unaware, Bool.not_eq_true'] at he
    unfold Setup.element
    exact hcall r 0 scope b x y hc he hs
  | .ruleAt r level, he, scope, b, x, y, hc, hs => by
    simp only [Element.unaware, Bool.not_eq_true'] at he
    unfold Setup.element
    exact hcall r level scope b x y hc he hs
  | .optional e, he, scope, b, x, y, hc, hs => by
    simp only [Element.unaware] at he
    unfold Setup.element
    refine meet_bind (h.enter hs hc he) fun d z w _ hs => ?_
    cases d with
    | true => exact Mirrors.element h hu hv hcall e he scope b z w hc hs
    | false => exact .ok hs
  | .repeated e least resync, he, scope, b, x, y, hc, hs => by
    simp only [Element.unaware] at he
    unfold Setup.element
    exact h.items hs he (Mirrors.element h hu hv hcall e he) resync hc _ _ least b
  | .seq es, he, scope, b, x, y, hc, hs => by
    simp only [Element.unaware] at he
    unfold Setup.element
    exact Mirrors.row h hu hv hcall es he scope b x y hc hs
  | .labeled name many e, he, scope, b, x, y, hc, hs => by
    simp only [Element.unaware] at he
    unfold Setup.element
    exact meet_bind (Mirrors.element h hu hv hcall e he scope b x y hc hs) fun _ _ _ _ hs => .ok hs

theorem Mirrors.row (h : u.Mirrors v S sees) (hu : u.Regular) (hv : v.Regular)
    (hcall : u.MeetCalls S sees call call') :
    ∀ es : List Element, (sees ∨ allUnaware u.grammar.aware es = true) →
      ∀ scope b x y, (scope.comments = true → sees) → S x y →
        Meet S (u.row call es scope b x) (v.row call' es scope b y)
  | [], _, scope, b, x, y, _, hs => by
    unfold Setup.row
    exact .ok hs
  | e :: es, he, scope, b, x, y, hc, hs => by
    have hbefore : v.before es scope = u.before es scope := by rw [before, before, h.grammar]
    simp only [allUnaware, Bool.and_eq_true] at he
    unfold Setup.row
    rw [hbefore]
    refine meet_bind (Mirrors.element h hu hv hcall e (he.imp_right And.left) _ b x y hc hs)
      fun b' z w _ hs => ?_
    exact Mirrors.row h hu hv hcall es (he.imp_right And.right) scope b' z w hc hs

end

namespace Mirrors

variable (h : u.Mirrors v S sees) (hu : u.Regular) (hv : v.Regular) (hcall : u.MeetCalls S sees call call')
  {x y : Session} (hs : S x y)
include h hu hv hcall hs

theorem body (scope : Scope) (hc : scope.comments = true → sees)
    (hr : sees ∨ u.grammar.aware scope.rule = false) (b : Builder) :
    Meet S (u.body call scope b x) (v.body call' scope b y) := by
  have hs' := h.noted (.asked scope.rule scope.follow) (.asked scope.rule scope.follow) hs
  obtain ⟨hd, hs'', hunaware⟩ := h.decided scope.follow hc hr hs'
  unfold Setup.body
  rw [bind_ok (note_eq x _), bind_ok (note_eq y _), bind_ok (decide_eq scope _), bind_ok (decide_eq scope _),
    h.grammar]
  generalize Resolver.decide u.grammar u.stream _ _ _ _ _ _ = d at hd hs'' hunaware ⊢
  generalize Resolver.decide u.grammar v.stream _ _ _ _ _ _ = d' at hd hs'' ⊢
  obtain ⟨d, z⟩ := d
  obtain ⟨d', z'⟩ := d'
  dsimp only at hd hs'' hunaware ⊢
  cases hd with
  | ok i => exact h.row hu hv hcall _ (hunaware i rfl) scope b _ _ hc hs''
  | none =>
    dsimp only
    rw [bind_ok (u.report_eq _ _ _ _), bind_ok (v.report_eq _ _ _ _)]
    exact h.recover (h.reported _ _ _ hs'') _ _ _

theorem operation {r node : Rule} {tier : Tier} (hr : sees ∨ u.grammar.aware r = false)
    (hnode : sees ∨ u.grammar.aware node = false) {scope : Scope} (hrule : scope.rule = r)
    (hc : scope.comments = true → sees) (left : Node) (he : u.stream.atEnd x.pos = false) :
    Meet S (u.operation call tier node scope left x) (v.operation call' tier node scope left y) := by
  have hs' := h.operated hs he
  unfold Setup.operation
  rw [bind_ok (get_apply x), bind_ok (get_apply y)]
  simp only [Stream.advance, u.stream.next?_of_not_atEnd he,
    v.stream.next?_of_not_atEnd ((h.atEnd hs).trans he), h.current hs he]
  rw [bind_ok (moveTo_eq _ x), bind_ok (moveTo_eq _ y), bind_ok (note_eq _ _), bind_ok (note_eq _ _)]
  rcases tier.form with _ | _ | _
  · exact meet_bind (hcall _ _ _ _ _ _ hc (hrule ▸ hr) hs') fun _ _ _ _ hs => .ok hs
  · exact meet_bind (h.body hu hv hcall hs' { scope with rule := node } hc hnode _) fun _ _ _ _ hs => .ok hs
  · exact meet_bind (h.body hu hv hcall hs' { scope with rule := node } hc hnode _) fun _ _ _ _ hs => .ok hs

theorem operations {r : Rule} {table : Table} (ht : u.grammar.table? r = some table)
    (hr : sees ∨ u.grammar.aware r = false) (scope : Scope) (hrule : scope.rule = r)
    (hc : scope.comments = true → sees) (level rounds rounds' : Nat) (left : Node) :
    Meet S (u.operations call table level scope rounds left x)
      (v.operations call' table level scope rounds' left y) := by
  induction rounds generalizing rounds' left x y with
  | zero => exact .endless
  | succ rounds ih =>
    cases rounds' with
    | zero => exact .endless'
    | succ rounds' =>
      unfold Setup.operations
      rw [bind_ok (kind_eq u x), bind_ok (kind_eq v y), h.kind hs]
      rcases hl : table.lookup (u.stream.kind x.pos) with _ | ⟨tier, node⟩
      · exact .ok hs
      · dsimp only
        split
        · exact .ok hs
        · -- an operator stands here, so this is not the end
          have he : u.stream.atEnd x.pos = false := by
            refine Stream.not_atEnd_of_kind hu.eof fun h => ?_
            simp [h, hu.founded.eof r table ht] at hl
          refine meet_bind (h.checkCancelled hs) fun _ z w hz hs' => ?_
          obtain rfl := checkCancelled_ok hz
          refine meet_bind (h.operation hu hv hcall hs' hr (h.operators ht hr hl) hrule hc left he)
            fun m z w _ hs => ?_
          exact ih hs rounds' m

theorem climb {r : Rule} {table : Table} (ht : u.grammar.table? r = some table)
    (hr : sees ∨ u.grammar.aware r = false) (scope : Scope) (hrule : scope.rule = r)
    (hc : scope.comments = true → sees) (level : Nat) :
    Meet S (u.climb call table level scope x) (v.climb call' table level scope y) := by
  let inner : Scope := { scope with follow := scope.follow ∪ table.operators }
  unfold Setup.climb operand
  refine meet_bind (meet_bind (h.body hu hv hcall hs inner hc (hrule ▸ hr) _) fun _ _ _ _ hs => .ok hs)
    fun left z w _ hs => ?_
  exact h.operations hu hv hcall hs ht hr inner hrule hc level _ _ left

end Mirrors

end

namespace Mirrors

variable {u v : Setup} {S : Session → Session → Prop} {sees : Prop} (h : u.Mirrors v S sees)
  (hu : u.Regular) (hv : v.Regular)
include h hu hv

theorem call (n : Nat) : u.MeetCalls S sees (u.call n) (v.call n) := by
  induction n with
  | zero =>
    intro r level scope b x y hc hr hs
    unfold Setup.call
    rw [bind_ok (note_eq x _), bind_ok (note_eq y _), h.grammar]
    refine meet_bind (h.checkCancelled (h.noted _ _ hs)) fun _ z w _ hs => ?_
    rw [bind_ok (u.report_eq _ _ _ z), bind_ok (v.report_eq _ _ _ w)]
    exact h.recover (h.reported _ _ _ hs) _ _ _
  | succ n ih =>
    intro r level scope b x y hc hr hs
    have hinner : (scope.comments || (u.grammar.definition r).comments) = true → sees := fun hc' => by
      rcases Bool.or_eq_true_iff.1 hc' with hc' | hc'
      · exact hc hc'
      · exact hr.resolve_right fun hr => absurd hc' (Bool.not_eq_true _ ▸ hr)
    unfold Setup.call
    rw [bind_ok (note_eq x _), bind_ok (note_eq y _), h.grammar]
    refine meet_bind (h.checkCancelled (h.noted _ _ hs)) fun _ z w _ hs => ?_
    rw [bind_ok (note_eq z _), bind_ok (note_eq w _)]
    have hs := h.noted (.opened (u.settings.maxDepth - n)) (.opened (v.settings.maxDepth - n)) hs
    rcases ht : u.grammar.table? r with _ | table
    · dsimp only
      split
      · exact h.body hu hv ih hs _ hinner hr _
      · exact meet_bind (h.body hu hv ih hs _ hinner hr _) fun _ _ _ _ hs => .ok hs
    · exact meet_bind (h.climb hu hv ih hs ht hr { scope with rule := r } rfl hc level)
        fun _ _ _ _ hs => .ok hs

theorem root {x y : Session} (hs : S x y) {r : Rule} (hr : sees ∨ u.grammar.aware r = false) :
    Meet S (u.root r x) (v.root r y) := by
  have hscope : v.rootScope r = u.rootScope r := by rw [rootScope, rootScope, h.grammar]
  unfold Setup.root
  rw [h.depth, hscope]
  refine meet_bind (h.call hu hv _ r 0 _ _ x y nofun hr hs) fun b z w _ hs => ?_
  exact meet_bind (h.expectEnd hs _ _ _) fun _ _ _ _ hs => .ok hs

end Mirrors

end Setup

/-- Two parses in step give the same tree, if neither can be called off. -/
theorem parseTokens_meet {S : Session → Session → Prop} {r : Rule} {ts ts' : List Token}
    {settings settings' : Settings} (hc : settings.cancel = none) (hc' : settings'.cancel = none)
    (h : Setup.Meet S ((Setup.ofTokens ts settings).run r) ((Setup.ofTokens ts' settings').run r)) :
    ∃ n x y, S x y ∧ parseTokens r ts settings = (.ok ⟨n, x.errors⟩, x.sent) ∧
      parseTokens r ts' settings' = (.ok ⟨n, y.errors⟩, y.sent) := by
  obtain ⟨p, hp⟩ := parseTokens_answers r ts hc
  obtain ⟨q, hq⟩ := parseTokens_answers r ts' hc'
  generalize hm : (Setup.ofTokens ts settings).run r = m at h
  generalize hm' : (Setup.ofTokens ts' settings').run r = m' at h
  cases h with
  | @ok n x y hs => exact ⟨n, x, y, hs, parseTokens_of_ok hm, parseTokens_of_ok hm'⟩
  | endless =>
    rw [parseTokens_of_error hm] at hp
    cases hp
  | endless' =>
    rw [parseTokens_of_error hm'] at hq
    cases hq

end KermlText
