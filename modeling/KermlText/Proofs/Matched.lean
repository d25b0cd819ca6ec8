import KermlText.Proofs.Acceptance
import KermlText.Proofs.Cascades

/-! Which tokens of a tree were matched. Skipped tokens go into nodes of their own, and into nothing else,
so what stands outside these nodes is what the journal says was matched, in the same order. -/

namespace KermlText

namespace Node

mutual

/-- The tokens of the tree outside its nodes of skipped tokens. -/
def matched : Node → List Token
  | .mk r cs _ _ => if r = .error then [] else matchedOf cs

def matchedOf : List Child → List Token
  | [] => []
  | .token t :: cs => t :: matchedOf cs
  | .node n :: cs => n.matched ++ matchedOf cs

end

theorem matchedOf_append (cs ds : List Child) : matchedOf (cs ++ ds) = matchedOf cs ++ matchedOf ds := by
  induction cs with
  | nil => simp [matchedOf]
  | cons c cs ih => cases c <;> simp [matchedOf, ih]

end Node

namespace Builder

/-- The tokens outside nodes of skipped tokens, if the node in the making is not one itself. -/
def matched (b : Builder) : List Token := Node.matchedOf b.children

@[simp] theorem matched_start (r : Rule) : (start r).matched = [] := rfl

@[simp] theorem matched_pushToken (b : Builder) (t : Token) :
    (b.pushToken t).matched = b.matched ++ [t] := by
  simp [matched, pushToken, push, Node.matchedOf_append, Node.matchedOf]

@[simp] theorem matched_pushNode (b : Builder) (n : Node) :
    (b.pushNode n).matched = b.matched ++ n.matched := by
  simp [matched, pushNode, push, Node.matchedOf_append, Node.matchedOf]

@[simp] theorem matched_markError (b : Builder) : b.markError.matched = b.matched := rfl

@[simp] theorem matched_label (b : Builder) (name : String) (many : Bool) (start : Nat) (tokens : Bool)
    (relation : Option Relation) : (b.label name many start tokens relation).matched = b.matched := by
  simp [matched]

theorem matched_operator (r : Rule) (left : Node) (t : Token) :
    (operator r left t).matched = left.matched ++ [t] := by
  simp [operator, pushLabeledNode, pushLabeledToken]

/-- A node of skipped tokens has matched nothing, and no other node hides what it has. -/
theorem matched_finish {b : Builder} (h : b.rule = .error → b.matched = []) :
    b.finish.matched = b.matched := by
  unfold finish Node.matched
  split
  · rename_i hr
    exact (h hr).symm
  · rfl

theorem matched_of_single? {b : Builder} {n : Node} (h : b.single? = some n) : n.matched = b.matched := by
  simp [matched, (children_of_single? h).1, Node.matchedOf]

theorem matched_unwrapped {b : Builder} (h : b.rule = .error → b.matched = []) :
    b.unwrapped.finish.matched = b.matched := by
  unfold unwrapped
  split
  · rename_i n hn
    rw [finish_reopen, matched_of_single? hn]
  · exact matched_finish h

end Builder

/-! ### The journal -/

namespace Event

def place? : Event → Option Nat
  | .matched i => some i
  | _ => none

theorem isMatch_eq (e : Event) : e.isMatch = e.place?.isSome := by cases e <;> rfl

end Event

namespace Session

/-- The places of the matched tokens, the first one first. -/
def taken (x : Session) : List Nat := (x.journal.filterMap Event.place?).reverse

variable (x : Session)

@[simp] theorem taken_checked : x.checked.taken = x.taken := rfl

@[simp] theorem taken_asked (z : Resolver) : (x.asked z).taken = x.taken := rfl

@[simp] theorem taken_matchedAt (i : Nat) : (x.matchedAt i).taken = x.taken ++ [i] := by
  simp [taken, matchedAt, Event.place?]

@[simp] theorem taken_operatedAt (i : Nat) : (x.operatedAt i).taken = x.taken ++ [i] := by
  simp [taken, operatedAt, Event.place?]

variable {x}

theorem taken_noted {e : Event} (he : e.place? = none) : (x.noted e).taken = x.taken := by
  simp [taken, noted, he]

@[simp] theorem taken_called (r : Rule) (scope : Scope) : (x.called r scope).taken = x.taken := by
  rw [called, taken_checked, taken_noted rfl]

@[simp] theorem taken_reported (u : Setup) (code : Code) (r : Rule) (expected : KindSet) :
    (u.reported code r expected x).taken = x.taken := by
  unfold Setup.reported
  split
  · exact taken_noted rfl
  · split
    · rfl
    · exact taken_noted (e := .reported) rfl

@[simp] theorem taken_skippedOver (context : KindSet) (places : List Nat) :
    (x.skippedOver context places).taken = x.taken := by
  have hnone : (places.map fun i => Event.skipped i context).reverse.filterMap Event.place? = [] := by
    simp [Event.place?]
  unfold skippedOver
  split
  · rfl
  · simp only [taken, List.filterMap_append, hnone, List.nil_append]

/-- The journal counts as many matches as there are places. -/
theorem length_taken : x.taken.length = x.journal.countP Event.isMatch := by
  rw [taken, List.length_reverse, List.length_filterMap_eq_countP]
  exact List.countP_congr fun e _ => by rw [Event.isMatch_eq]

end Session

/-! ### Runs -/

/-- The task is about operators of the grammar, if it is about operators. -/
def Task.Tabled (g : Grammar) : Task → Prop
  | .operators table _ _ _ => ∃ r, g.table? r = some table
  | _ => True

/-- Where the task goes on: an operand that is already there will be a part of the node. -/
def Task.onto (b : Builder) : Task → Builder
  | .operators _ _ _ left => b.pushNode left
  | _ => b

namespace Setup

open Session

/-- What leads from `x` and `b` to `x'` and `b'` puts the tokens that it matches into the node. -/
structure Takes (u : Setup) (x : Session) (b : Builder) (x' : Session) (b' : Builder) : Prop where
  rule : b'.rule = b.rule
  places : ∃ is, x'.taken = x.taken ++ is ∧ b'.matched = b.matched ++ is.map u.stream.token

variable {u : Setup}

@[simp] theorem matched_strays (b : Builder) (places : List Nat) :
    (b.pushNode? (u.strays places)).matched = b.matched := by
  unfold strays
  split
  · rfl
  · simp [Builder.pushNode?, Node.matched]

namespace Takes

variable {x y z x' : Session} {b c d b' : Builder}

theorem refl : u.Takes x b x b := ⟨rfl, [], by simp, by simp⟩

theorem trans (h1 : u.Takes x b y c) (h2 : u.Takes y c z d) : u.Takes x b z d := by
  obtain ⟨is, hx, hb⟩ := h1.places
  obtain ⟨js, hy, hc⟩ := h2.places
  exact ⟨h2.rule.trans h1.rule, is ++ js, by simp [hy, hx], by simp [hc, hb]⟩

/-- A step that matches nothing. -/
theorem still (hx : x'.taken = x.taken) (hr : b'.rule = b.rule) (hb : b'.matched = b.matched) :
    u.Takes x b x' b' :=
  ⟨hr, [], by simpa using hx, by simpa using hb⟩

/-- A step that matches the token at `i`. -/
theorem one {i : Nat} (hx : x'.taken = x.taken ++ [i]) :
    u.Takes x b x' (b.pushToken (u.stream.token i)) :=
  ⟨rfl, [i], hx, by simp⟩

theorem quiet (h : u.Takes y b x' b') (hx : y.taken = x.taken) : u.Takes x b x' b' :=
  (still hx rfl rfl).trans h

/-- Behind an error, with or without skipped tokens. -/
theorem strayed (code : Code) (r : Rule) (expected context : KindSet) (places : List Nat) :
    u.Takes x b ((u.reported code r expected x).skippedOver context places)
      (b.pushNode? (u.strays places)) :=
  still (by simp) (by simp) (by simp)

theorem expectEnd {scope : Scope} {r : Rule} (h : u.expectEnd scope r b x = .ok b' x') :
    u.Takes x b x' b' := by
  rw [expectEnd_eq] at h
  split at h <;> cases h
  · exact refl
  · exact strayed _ _ _ _ _

theorem expect (hu : u.Regular) {scope : Scope} {set : KindSet}
    (h : u.expect scope set b x = .ok b' x') : u.Takes x b x' b' := by
  rw [expect_eq hu] at h
  split at h
  · exact expectEnd h
  · split at h
    · cases h
      exact one (by simp)
    · have hm : ∀ y, y.taken = (u.missed scope set x).taken → u.Takes x b y (b.markError.pushNode?
          (u.strays (u.passed (set ∪ scope.follow ∪ scope.context ∪ endKinds) x))) := fun y hy =>
        still (by simp [hy, missed]) (by simp [Builder.markError]) (by simp)
      dsimp only at h
      split at h <;> cases h
      · exact (hm _ rfl).trans (one (by simp))
      · exact hm _ rfl

theorem expectComment {scope : Scope} (h : u.expectComment scope b x = .ok b' x') :
    u.Takes x b x' b' := by
  rw [expectComment_eq] at h
  split at h <;> cases h
  · exact one (by simp)
  · exact still (by simp) rfl rfl

theorem recover {scope : Scope} {r : Rule} (h : u.recover scope r b x = .ok b' x') :
    u.Takes x b x' b' := by
  rw [recover_eq] at h
  cases h
  exact still (by simp) (by simp [Builder.markError]) (by simp)

theorem label (h : u.Takes x b x' b') (name : String) (many : Bool) (start : Nat) (tokens : Bool)
    (relation : Option Relation) : u.Takes x b x' (b'.label name many start tokens relation) :=
  h.trans (still rfl (by simp) (by simp))

/-- A node that is made from its start on is pushed. -/
theorem node {r : Rule} {m : Node} (h : u.Takes x (.start r) x' c) (hm : m.matched = c.matched) :
    u.Takes x b x' (b.pushNode m) := by
  obtain ⟨is, hx, hc⟩ := h.places
  exact ⟨rfl, is, hx, by simp [hm, hc]⟩

/-- What is read behind an operator goes into the operator's node, with the operand in front. -/
theorem operation {q : Rule} {left : Node} {i : Nat}
    (h : u.Takes (x.checked.operatedAt i) (.operator q left (u.stream.token i)) x' c) {m : Node}
    (hm : m.matched = c.matched) : u.Takes x (b.pushNode left) x' (b.pushNode m) := by
  obtain ⟨is, hx, hc⟩ := h.places
  exact ⟨rfl, i :: is, by simp [hx], by simp [hm, hc, Builder.matched_operator]⟩

end Takes

theorem enter_taken {x y : Session} {scope : Scope} {e : Element} {d : Bool}
    (h : u.enter scope e x = .ok d y) : y.taken = x.taken := by
  obtain ⟨-, rfl⟩ := enter_ok h
  rfl

theorem enterItem_taken {x y : Session} {scope : Scope} {e : Element} {need : Nat} {d : Bool}
    (h : u.enterItem scope e need x.checked = .ok d y) : y.taken = x.taken := by
  rcases enterItem_ok h with ⟨-, -, rfl⟩ | ⟨-, h⟩
  · rfl
  · exact (enter_taken h).trans x.taken_checked

theorem decide_taken {x y : Session} {scope : Scope} {d : Except Failure Nat}
    (h : u.decide scope (x.noted (.asked scope.rule scope.follow)) = .ok d y) : y.taken = x.taken := by
  rw [decide_eq] at h
  cases h
  exact taken_noted rfl

/-! ### No text is a node of skipped tokens -/

section

variable (hg : u.grammar.Readable)
include hg

/-- The rule of skipped tokens has no alternative to read. -/
theorem Runs.body_error {n : Nat} {scope : Scope} {x x' : Session} {b b' : Builder}
    (h : u.Runs n (.body scope) x b x' b') (hr : scope.rule = .error) : b'.matched = b.matched := by
  cases h with
  | chosen _ hi _ =>
    obtain ⟨a, ha, -⟩ := Grammar.mem_choices.1 hi
    simp [hr, hg.error] at ha
  | lost _ h =>
    rw [recover_eq] at h
    cases h
    simp

theorem Runs.call_error (hnone : u.grammar.table? .error = none) {n level : Nat} {scope : Scope}
    {x x' : Session} {b b' : Builder} (h : u.Runs n (.call .error level scope) x b x' b') :
    b'.matched = b.matched := by
  cases h with
  | refused h =>
    rw [recover_eq] at h
    cases h
    simp
  | inlined _ _ h => exact h.body_error hg rfl
  | wrapped _ _ h =>
    have hc := h.body_error hg rfl
    rw [Builder.matched_pushNode, Builder.matched_finish fun _ => hc, hc]
    simp
  | climbed ht _ _ =>
    rw [hnone] at ht
    cases ht

end

theorem table?_error : kerml.table? .error = none := by decide +kernel

/-- A run puts the tokens that it matches into the node in the making, and no others count there. -/
theorem Runs.takes (hu : u.Regular) (hg : u.grammar.Readable) {n : Nat} {task : Task} {x x' : Session}
    {b b' : Builder} (h : u.Runs n task x b x' b') (ht : task.Tabled u.grammar) :
    u.Takes x (task.onto b) x' b' := by
  -- the node of a rule that is read has matched what stands in it
  have hfinish : ∀ {n scope x x' r c}, u.Runs n (.body scope) x (.start r) x' c → scope.rule = r →
      u.Takes x (.start r) x' c → c.finish.matched = c.matched := fun h hr hc =>
    Builder.matched_finish fun he => h.body_error hg (hr.trans (hc.rule.symm.trans he))
  induction h with
  | token h => exact .expect hu h
  | relation h => exact .expect hu h
  | oneOf h => exact .expect hu h
  | comment h => exact .expectComment h
  | rule _ ih => exact ih trivial
  | ruleAt _ ih => exact ih trivial
  | present he _ ih => exact (ih trivial).quiet (enter_taken he)
  | absent he => exact Takes.refl.quiet (enter_taken he)
  | repeated _ ih => exact ih trivial
  | seq _ ih => exact ih trivial
  | labeled _ ih => exact (ih trivial).label _ _ _ _ _
  | nil => exact .refl
  | cons _ _ ih1 ih2 => exact (ih1 trivial).trans (ih2 trivial)
  | moved he _ _ _ ih1 ih2 =>
    exact ((ih1 trivial).quiet (enterItem_taken he)).trans ((ih2 trivial).quiet (taken_noted rfl))
  | stuck he _ _ _ ih => exact (ih trivial).quiet (enterItem_taken he)
  | freed he _ _ _ hw _ ih1 ih2 =>
    subst hw
    have hz := (ih1 trivial).quiet (enterItem_taken he)
    exact (hz.trans (.strayed _ _ _ _ _)).trans ((ih2 trivial).quiet (taken_noted rfl))
  | ended he _ => exact Takes.refl.quiet (enterItem_taken he)
  | resumed he _ hw _ ih =>
    subst hw
    exact ((Takes.strayed _ _ _ _ _).trans ((ih trivial).quiet (taken_noted rfl))).quiet
      (enterItem_taken he)
  | chosen hd _ _ ih => exact (ih trivial).quiet (decide_taken hd)
  | lost hd h => exact (Takes.recover h).quiet ((taken_reported u _ _ _).trans (decide_taken hd))
  | refused h => exact (Takes.recover h).quiet (by simp)
  | inlined _ _ _ ih => exact (ih trivial).quiet ((taken_noted rfl).trans (taken_called _ _))
  | wrapped _ _ h ih =>
    have hc := (ih trivial).quiet ((taken_noted rfl).trans (taken_called _ _))
    exact hc.node (hfinish h rfl (ih trivial))
  | @climbed _ r _ _ _ _ _ _ c _ _ hr h1 _ ih1 ih2 =>
    have hc := (ih1 trivial).quiet ((taken_noted rfl).trans (taken_called _ _))
    refine (hc.node ?_).trans (ih2 ⟨r, hr⟩)
    rcases hs : c.single? with _ | m
    · exact hfinish h1 rfl (ih1 trivial)
    · exact Builder.matched_of_single? hs
  | done _ => exact .refl
  | @binary _ _ _ _ left x _ _ q y c _ _ hl _ _ _ _ _ ih1 ih2 =>
    obtain ⟨r, hr⟩ := ht
    have hc : u.Takes _ (.operator q left (u.stream.current x.pos)) y c := ih1 trivial
    refine (hc.operation ((Builder.matched_finish fun he => ?_).trans (by simp))).trans (ih2 ⟨r, hr⟩)
    rw [Builder.label_rule, hc.rule, Builder.operator_rule] at he
    exact absurd (he ▸ hl) (hg.operators r _ hr _ _)
  | @suffix _ _ _ _ left x _ _ q y c _ _ hl _ _ _ _ _ ih1 ih2 =>
    obtain ⟨r, hr⟩ := ht
    have hc : u.Takes _ (.operator q left (u.stream.current x.pos)) y c := ih1 trivial
    refine (hc.operation (Builder.matched_finish fun he => ?_)).trans (ih2 ⟨r, hr⟩)
    rw [hc.rule, Builder.operator_rule] at he
    exact absurd (he ▸ hl) (hg.operators r _ hr _ _)

/-- The tokens of a tree outside its nodes of skipped tokens are those that its parse matched. -/
theorem Rooted.matched (hu : u.Regular) (hg : u.grammar.Readable)
    (hnone : u.grammar.table? .error = none) {r : Rule} {n : Node} {x : Session} (h : u.Rooted r n x) :
    n.matched = x.taken.map u.stream.token := by
  obtain ⟨y, b, c, hrun, he, rfl⟩ := h
  have htakes := hrun.takes hu hg trivial
  obtain ⟨is, hy, hb⟩ := htakes.places
  have hempty : b.rule = .error → b.matched = [] := fun hr => by
    obtain rfl : r = .error := htakes.rule.symm.trans hr
    exact hrun.call_error hg hnone
  have hbm : b.unwrapped.finish.matched = y.taken.map u.stream.token := by
    rw [Builder.matched_unwrapped hempty, hb, hy]
    rfl
  rw [expectEnd_eq] at he
  split at he <;> cases he
  · exact hbm
  · -- what is left over behind the rule is skipped
    rw [taken_skippedOver, taken_reported, ← hbm]
    simp only [Builder.finish, Node.matched, Builder.pushNode?_rule]
    exact congrArg (ite _ _) (matched_strays _ _)

end Setup

end KermlText
