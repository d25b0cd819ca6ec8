import KermlText.Proofs.Answers

/-! Paths: what a run does to the node in the making, whatever the task. Tokens are taken, comments are
taken where a rule asks for their text, flaws are marked, stray tokens are put aside, children are
labeled, and finished nodes are pushed. A claim about tokens, errors or marks is about these few steps
only. -/

namespace KermlText

/-- The rules whose nodes have the text of a comment as their body. -/
def Rule.takesComment : Rule → Bool
  | .comment | .documentation | .textualRepresentation => true
  | _ => false

mutual

/-- Whether `p` holds of the element and of all elements inside it. -/
def Element.all (p : Element → Bool) : Element → Bool
  | .token k => p (.token k)
  | .oneOf ks => p (.oneOf ks)
  | .relation k r => p (.relation k r)
  | .comment => p .comment
  | .rule r => p (.rule r)
  | .ruleAt r level => p (.ruleAt r level)
  | .optional e => p (.optional e) && e.all p
  | .repeated e least resync => p (.repeated e least resync) && e.all p
  | .seq es => p (.seq es) && rowAll p es
  | .labeled name many e => p (.labeled name many e) && e.all p

def rowAll (p : Element → Bool) : List Element → Bool
  | [] => true
  | e :: es => e.all p && rowAll p es

end

theorem rowAll_iff {p : Element → Bool} {es : List Element} :
    rowAll p es = true ↔ ∀ e ∈ es, e.all p = true := by
  induction es with
  | nil => simp [rowAll]
  | cons e es ih => simp [rowAll, ih]

def Element.isComment : Element → Bool
  | .comment => true
  | _ => false

/-- The element asks for no comment. -/
def Element.silent (e : Element) : Bool := e.all fun e => !e.isComment

def rowSilent (es : List Element) : Bool := rowAll (fun e => !e.isComment) es

namespace Grammar

/-- Whether only the rules that take comments ask for them, and these make nodes of their own. -/
def placesComments (g : Grammar) : Bool :=
  Rule.all.all fun r =>
    if r.takesComment then !(g.definition r).inline && (g.table? r).isNone
    else (g.alternatives r).all fun a => rowSilent a.elements

variable {g : Grammar}

theorem placesComments_inline (h : g.placesComments = true) {r : Rule}
    (hi : (g.definition r).inline = true) : r.takesComment = false := by
  have hr := List.all_eq_true.1 h r (Rule.mem_all r)
  rcases ht : r.takesComment with _ | _
  · rfl
  · simp [ht, hi] at hr

theorem placesComments_elements (h : g.placesComments = true) {r : Rule}
    (ht : r.takesComment = false) (i : Nat) : rowSilent (Resolver.elements g r i) = true := by
  have hr := List.all_eq_true.1 h r (Rule.mem_all r)
  simp only [ht, Bool.false_eq_true, if_false] at hr
  unfold Resolver.elements
  split
  · rename_i a ha
    exact List.all_eq_true.1 hr a (List.mem_of_getElem? ha)
  · rfl

end Grammar

theorem placesComments_kerml : kerml.placesComments = true := by decide +kernel

/-- The task asks for comments only where the rule of the node takes them. -/
def Task.Fits (q : Rule) : Task → Prop
  | .element e _ | .items e _ _ _ => q.takesComment = true ∨ e.silent = true
  | .row es _ => q.takesComment = true ∨ rowSilent es = true
  | .body scope => q.takesComment = true ∨ scope.rule.takesComment = false
  | .call _ _ _ | .operators _ _ _ _ => True

namespace Setup

open Session

variable (u : Setup)

/-- From one session and one node in the making to others. -/
inductive Path : Session → Builder → Session → Builder → Prop
  | refl {x b} : Path x b x b
  | quiet {x₀ b₀ x b y} (h : Path x₀ b₀ x b) (hy : x.Alike y) : Path x₀ b₀ y b
  | take {x₀ b₀ x b y} (h : Path x₀ b₀ x b) (he : u.stream.atEnd x.pos = false)
      (hp : y.pos = u.stream.settle x.pos + 1) (herrors : y.errors = x.errors)
      (hr : y.recovering = true → x.recovering = true) :
      Path x₀ b₀ y (b.pushToken (u.stream.current x.pos))
  | takeComment {x₀ b₀ x b i} (h : Path x₀ b₀ x b) (hi : u.stream.comment? x.pos = some i)
      (hb : b.rule.takesComment = true) :
      Path x₀ b₀ (x.matchedAt i) (b.pushToken (u.stream.token i))
  /-- A report that leaves a mark, and maybe skipped tokens. -/
  | flaw {x₀ b₀ x b} (h : Path x₀ b₀ x b) (code : Code) (r : Rule) (expected context sync : KindSet)
      (n : Nat) (recovering : Bool) :
      Path x₀ b₀
        { (u.reported code r expected x).skippedOver context (u.stream.placesUpTo sync n x.pos) with
          recovering := recovering }
        (b.pushNode? (u.strays (u.stream.placesUpTo sync n x.pos))).markError
  /-- A report that leaves skipped tokens, unless a token that looks like the end is in the way. -/
  | stray {x₀ b₀ x b} (h : Path x₀ b₀ x b) (code : Code) (r : Rule) (expected context sync : KindSet)
      (n : Nat)
      (hne : u.stream.placesUpTo sync n x.pos = [] →
        u.stream.kind x.pos = .eof ∧ u.stream.atEnd x.pos = false) :
      Path x₀ b₀
        ((u.reported code r expected x).skippedOver context (u.stream.placesUpTo sync n x.pos))
        (b.pushNode? (u.strays (u.stream.placesUpTo sync n x.pos)))
  | label {x₀ b₀ x b} (h : Path x₀ b₀ x b) (name : String) (many : Bool) (start : Nat) (tokens : Bool)
      (relation : Option Relation) : Path x₀ b₀ x (b.label name many start tokens relation)
  | node {x₀ b₀ x b y r c m} (h : Path x₀ b₀ x b) (hn : Path x (.start r) y c)
      (hm : m = c.finish ∨ c.single? = some m) : Path x₀ b₀ y (b.pushNode m)

end Setup

namespace Builder

@[simp] theorem pushNode?_rule (b : Builder) (n : Option Node) : (b.pushNode? n).rule = b.rule := by
  cases n <;> rfl

@[simp] theorem pushNode?_children (b : Builder) (n : Option Node) :
    (b.pushNode? n).children = b.children ++ (n.map Child.node).toList := by
  cases n <;> simp [pushNode?, pushNode, push]

theorem pushNode?_markError (b : Builder) (n : Option Node) :
    (b.pushNode? n).markError = b.markError.pushNode? n := by
  cases n <;> rfl

section

variable (b : Builder) (name : String) (many : Bool) (start : Nat) (tokens : Bool)
  (relation : Option Relation)

/-- A label fills a field and does nothing else. -/
theorem label_eq : ∃ fields, b.label name many start tokens relation = { b with fields := fields } := by
  unfold label fill
  dsimp only
  split
  · split <;> exact ⟨_, rfl⟩
  · split
    · exact ⟨_, rfl⟩
    · split
      · exact ⟨_, rfl⟩
      · split <;> exact ⟨_, rfl⟩

@[simp] theorem label_rule : (b.label name many start tokens relation).rule = b.rule := by
  obtain ⟨fields, h⟩ := b.label_eq name many start tokens relation
  rw [h]

@[simp] theorem label_children :
    (b.label name many start tokens relation).children = b.children := by
  obtain ⟨fields, h⟩ := b.label_eq name many start tokens relation
  rw [h]

@[simp] theorem label_error : (b.label name many start tokens relation).error = b.error := by
  obtain ⟨fields, h⟩ := b.label_eq name many start tokens relation
  rw [h]

end

end Builder

namespace Setup

open Session

variable {u : Setup}

/-- A path stays in the node that it started in. -/
theorem Path.rule_eq {x₀ x : Session} {b₀ b : Builder} (h : u.Path x₀ b₀ x b) : b.rule = b₀.rule := by
  induction h with
  | refl => rfl
  | quiet _ _ ih => exact ih
  | take _ _ _ _ _ ih => exact ih
  | takeComment _ _ _ ih => exact ih
  | flaw _ _ _ _ _ _ _ _ ih => simpa [Builder.markError] using ih
  | stray _ _ _ _ _ _ _ _ ih => simpa using ih
  | label _ _ _ _ _ _ ih => simpa using ih
  | node _ _ _ ih _ => exact ih

/-! ### Runs are paths -/

/-- The paths that a run of a task makes longer. Behind an operand the path to it goes on in a node of
its own. -/
def Leads (u : Setup) (x : Session) (b : Builder) (x' : Session) (b' : Builder) : Task → Prop
  | .operators _ _ _ left => ∀ x₀ b₀ y r c, u.Path x₀ b₀ y b → u.Path y (.start r) x c →
      (left = c.finish ∨ c.single? = some left) → u.Path x₀ b₀ x' b'
  | _ => ∀ x₀ b₀, u.Path x₀ b₀ x b → u.Path x₀ b₀ x' b'

namespace Path

variable {x₀ x x' : Session} {b₀ b b' : Builder}

theorem matchedAt (h : u.Path x₀ b₀ x b) (he : u.stream.atEnd x.pos = false) :
    u.Path x₀ b₀ (x.matchedAt (u.stream.settle x.pos)) (b.pushToken (u.stream.current x.pos)) :=
  h.take he rfl rfl fun hr => absurd hr Bool.false_ne_true

theorem expectEnd (h : u.Path x₀ b₀ x b) {scope : Scope} {r : Rule}
    (he : u.expectEnd scope r b x = .ok b' x') : u.Path x₀ b₀ x' b' := by
  rw [expectEnd_eq] at he
  split at he
  · cases he
    exact h
  · rename_i hend
    rw [Bool.not_eq_true] at hend
    cases he
    refine h.stray .trailingInput r endKinds scope.context endKinds u.stream.size fun hp => ?_
    have hsize := u.stream.settle_lt_of_not_atEnd hend
    rw [Stream.placesUpTo_eq_nil (by omega)] at hp
    simpa [hend, endKinds, eq_comm] using hp

theorem expect (h : u.Path x₀ b₀ x b) (hu : u.Regular) {scope : Scope} {set : KindSet}
    (he : u.expect scope set b x = .ok b' x') : u.Path x₀ b₀ x' b' := by
  rw [expect_eq hu] at he
  split at he
  · exact h.expectEnd he
  · split at he
    · rename_i hst
      cases he
      exact h.matchedAt (Stream.not_atEnd_of_stands hu.eof hst)
    · have hm : ∀ recovering, u.Path x₀ b₀ { u.missed scope set x with recovering := recovering }
          (b.markError.pushNode?
            (u.strays (u.passed (set ∪ scope.follow ∪ scope.context ∪ endKinds) x))) := fun recovering => by
        have hf := h.flaw (missing set (u.stream.kind x.pos)) scope.rule set scope.context
          (set ∪ scope.follow ∪ scope.context ∪ endKinds) u.stream.size recovering
        rwa [← passed, Builder.pushNode?_markError] at hf
      dsimp only at he
      split at he
      · rename_i hst
        cases he
        exact (hm (u.missed scope set x).recovering).matchedAt (Stream.not_atEnd_of_stands hu.eof hst)
      · cases he
        exact hm true

theorem expectComment (h : u.Path x₀ b₀ x b) (hb : b.rule.takesComment = true) {scope : Scope}
    (he : u.expectComment scope b x = .ok b' x') : u.Path x₀ b₀ x' b' := by
  rw [expectComment_eq] at he
  split at he
  · rename_i i hi
    cases he
    exact h.takeComment hi hb
  · cases he
    exact h.flaw .missingToken scope.rule (.single .blockComment) ∅ ∅ 0 _

/-- To recover from a report is to mark a flaw. -/
theorem recover (h : u.Path x₀ b₀ x b) {code : Code} {r q : Rule} {expected : KindSet} {scope : Scope}
    (he : u.recover scope r b (u.reported code q expected x) = .ok b' x') : u.Path x₀ b₀ x' b' := by
  rw [recover_eq] at he
  cases he
  rw [passed_reported]
  exact h.flaw code q expected scope.context _ u.stream.size _

/-- An operator takes the operand in front of it into its node. -/
theorem operator {y : Session} {r : Rule} {c : Builder} {left : Node} (q : Rule)
    (h : u.Path y (.start r) x c) (hm : left = c.finish ∨ c.single? = some left)
    (he : u.stream.atEnd x.pos = false) :
    u.Path y (.start q) (x.checked.operatedAt (u.stream.settle x.pos))
      (.operator q left (u.stream.current x.pos)) := by
  have h1 : u.Path y (.start q) x ((Builder.start q).pushLabeledNode "left" left) :=
    (refl.node h hm).label "left" false _ false none
  have h2 : u.Path y (.start q) (x.checked.operatedAt (u.stream.settle x.pos))
      (((Builder.start q).pushLabeledNode "left" left).pushToken (u.stream.current x.pos)) :=
    (h1.quiet x.alike_checked).take he rfl rfl id
  exact h2.label "operator" false _ true none

end Path

theorem enter_alike {x y : Session} {scope : Scope} {e : Element} {d : Bool}
    (h : u.enter scope e x = .ok d y) : x.Alike y := by
  obtain ⟨-, rfl⟩ := enter_ok h
  exact x.alike_asked _

theorem enterItem_alike {x y : Session} {scope : Scope} {e : Element} {need : Nat} {d : Bool}
    (h : u.enterItem scope e need x = .ok d y) : x.Alike y := by
  rcases enterItem_ok h with ⟨-, -, rfl⟩ | ⟨-, h⟩
  · exact .refl
  · exact enter_alike h

theorem decide_alike {x y : Session} {scope : Scope} {d : Except Failure Nat}
    (h : u.decide scope x = .ok d y) : x.Alike y := by
  rw [decide_eq] at h
  cases h
  exact x.alike_asked _

theorem alike_called (x : Session) (r : Rule) (scope : Scope) : x.Alike (x.called r scope) :=
  (x.alike_noted (.called r scope.follow)).trans (alike_checked _)

/-- A run makes every path longer that leads to it. -/
theorem Runs.leads (hu : u.Regular) (hg : u.grammar.placesComments = true) {n : Nat} {task : Task}
    {x x' : Session} {b b' : Builder} (h : u.Runs n task x b x' b') (hf : task.Fits b.rule) :
    u.Leads x b x' b' task := by
  induction h with
  | token h => exact fun x₀ b₀ hp => hp.expect hu h
  | relation h => exact fun x₀ b₀ hp => hp.expect hu h
  | oneOf h => exact fun x₀ b₀ hp => hp.expect hu h
  | comment h =>
    intro x₀ b₀ hp
    refine hp.expectComment ?_ h
    simpa [Task.Fits, Element.silent, Element.all, Element.isComment] using hf
  | rule _ ih => exact ih trivial
  | ruleAt _ ih => exact ih trivial
  | present he _ ih =>
    intro x₀ b₀ hp
    refine ih ?_ x₀ b₀ (hp.quiet (enter_alike he))
    simpa [Task.Fits, Element.silent, Element.all, Element.isComment] using hf
  | absent he => exact fun x₀ b₀ hp => hp.quiet (enter_alike he)
  | repeated _ ih =>
    refine ih ?_
    simpa [Task.Fits, Element.silent, Element.all, Element.isComment] using hf
  | seq _ ih =>
    refine ih ?_
    simpa [Task.Fits, Element.silent, rowSilent, Element.all, Element.isComment] using hf
  | labeled _ ih =>
    refine fun x₀ b₀ hp => (ih ?_ x₀ b₀ hp).label _ _ _ _ _
    simpa [Task.Fits, Element.silent, Element.all, Element.isComment] using hf
  | nil => exact fun x₀ b₀ hp => hp
  | cons _ _ ih1 ih2 =>
    simp only [Task.Fits, rowSilent, rowAll, Bool.and_eq_true] at hf
    have h1 := ih1 (hf.imp_right And.left)
    have hr := (h1 _ _ .refl).rule_eq
    exact fun x₀ b₀ hp => ih2 (hr ▸ hf.imp_right And.right) x₀ b₀ (h1 x₀ b₀ hp)
  | moved he _ _ _ ih1 ih2 =>
    have h1 := ih1 hf
    have hr := (h1 _ _ .refl).rule_eq
    intro x₀ b₀ hp
    have hy := (hp.quiet (alike_checked _)).quiet (enterItem_alike he)
    exact ih2 (hr ▸ hf) x₀ b₀ ((h1 x₀ b₀ hy).quiet (alike_noted _ _))
  | stuck he _ _ _ ih =>
    intro x₀ b₀ hp
    exact ih hf x₀ b₀ ((hp.quiet (alike_checked _)).quiet (enterItem_alike he))
  | freed he _ _ hk hw _ ih1 ih2 =>
    subst hw
    have h1 := ih1 hf
    have hr := (h1 _ _ .refl).rule_eq
    intro x₀ b₀ hp
    have hy := (hp.quiet (alike_checked _)).quiet (enterItem_alike he)
    refine ih2 (by simpa [Task.Fits, hr] using hf) x₀ b₀ (Path.quiet ?_ (alike_noted _ _))
    exact (h1 x₀ b₀ hy).stray _ _ _ _ _ _ fun hn => absurd hn (placesUpTo_ne_nil_of_stops hu hk)
  | ended he _ => exact fun x₀ b₀ hp => (hp.quiet (alike_checked _)).quiet (enterItem_alike he)
  | resumed he hk hw _ ih =>
    subst hw
    intro x₀ b₀ hp
    have hy := (hp.quiet (alike_checked _)).quiet (enterItem_alike he)
    refine ih (by simpa [Task.Fits] using hf) x₀ b₀ (Path.quiet ?_ (alike_noted _ _))
    exact hy.stray _ _ _ _ _ _ fun hn => absurd hn (passed_ne_nil_of_leaves hu hk)
  | chosen hd _ _ ih =>
    intro x₀ b₀ hp
    refine ih ?_ x₀ b₀ ((hp.quiet (alike_noted _ _)).quiet (decide_alike hd))
    exact hf.imp_right fun ht => Grammar.placesComments_elements hg ht _
  | lost hd h =>
    exact fun x₀ b₀ hp => ((hp.quiet (alike_noted _ _)).quiet (decide_alike hd)).recover h
  | refused h => exact fun x₀ b₀ hp => (hp.quiet (alike_called _ _ _)).recover h
  | inlined _ hi _ ih =>
    refine fun x₀ b₀ hp => ih ?_ x₀ b₀ ((hp.quiet (alike_called _ _ _)).quiet (alike_noted _ _))
    exact .inr (Grammar.placesComments_inline hg hi)
  | wrapped _ _ _ ih =>
    intro x₀ b₀ hp
    refine Path.node ?_ (ih (Bool.eq_false_or_eq_true _) _ _ .refl) (.inl rfl)
    exact (hp.quiet (alike_called _ _ _)).quiet (alike_noted _ _)
  | @climbed _ _ _ _ _ _ _ _ c _ _ _ _ _ ih1 ih2 =>
    intro x₀ b₀ hp
    refine ih2 trivial x₀ b₀ _ _ c ?_ (ih1 (Bool.eq_false_or_eq_true _) _ _ .refl) ?_
    · exact (hp.quiet (alike_called _ _ _)).quiet (alike_noted _ _)
    · rcases c.single? with _ | m
      · exact .inl rfl
      · exact .inr rfl
  | done _ => exact fun x₀ b₀ y r c hp hc hm => hp.node hc hm
  | @binary _ _ _ _ _ _ _ _ q _ _ _ _ _ _ _ he _ _ ih1 ih2 =>
    intro x₀ b₀ y r c hp hc hm
    have ho := Path.operator q hc hm he
    exact ih2 trivial x₀ b₀ y _ _ hp ((ih1 trivial _ _ ho).label _ _ _ _ _) (.inl rfl)
  | @suffix _ _ _ _ _ _ _ _ q _ _ _ _ _ _ _ he _ _ ih1 ih2 =>
    intro x₀ b₀ y r c hp hc hm
    have ho := Path.operator q hc hm he
    refine ih2 trivial x₀ b₀ y _ _ hp (ih1 ?_ _ _ ho) (.inl rfl)
    rw [ho.rule_eq]
    exact Bool.eq_false_or_eq_true q.takesComment

/-- A whole parse is a path to the node of the rule, and what is left over behind it. -/
theorem Rooted.path (hu : u.Regular) (hg : u.grammar.placesComments = true) {r : Rule} {n : Node}
    {x : Session} (h : u.Rooted r n x) :
    ∃ y b c, u.Path (.start u.settings) (.start r) y b ∧
      u.expectEnd (u.rootScope r) r b.unwrapped y = .ok c x ∧ n = c.finish := by
  obtain ⟨y, b, c, hr, he, hn⟩ := h
  exact ⟨y, b, c, hr.leads hu hg trivial _ _ .refl, he, hn⟩

end Setup

end KermlText
