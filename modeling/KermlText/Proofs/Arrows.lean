import KermlText.Proofs.Acceptance
import KermlText.Proofs.Completeness

/-! Arrows in a tree. Where no bare arrow of the tree stands in front of a brace, a parse that reports
nothing reads its text in the way that is sure to be found again: its derivation has no such arrow either. -/

namespace KermlText

open Grammar

namespace Node

/-- Whether the node is an arrow with neither arguments nor a body. -/
def isBareArrow (n : Node) : Bool :=
  n.rule == .arrowInvocationExpression && !n.hasField "arguments" && !n.hasField "body"

mutual

/-- No bare arrow in the tree stands in front of a brace, where `rest` stands behind the tree. -/
def ClosesArrows (rest : List Token) : Node → Prop
  | .mk r cs fs e =>
    ((mk r cs fs e).isBareArrow = true → nextKind (kindsOf rest) ≠ .lBrace) ∧ AllCloseArrows rest cs

def AllCloseArrows (rest : List Token) : List Child → Prop
  | [] => True
  | .token _ :: cs => AllCloseArrows rest cs
  | .node n :: cs => n.ClosesArrows (tokensOf cs ++ rest) ∧ AllCloseArrows rest cs

end

theorem allCloseArrows_append {rest : List Token} (cs ds : List Child) :
    AllCloseArrows rest (cs ++ ds) ↔ AllCloseArrows (tokensOf ds ++ rest) cs ∧ AllCloseArrows rest ds := by
  induction cs with
  | nil => simp [AllCloseArrows]
  | cons c cs ih => cases c <;> simp [AllCloseArrows, ih, tokensOf_append, and_assoc]

mutual

/-- Where no arrow is bare all are closed, whatever stands behind the tree. -/
theorem closesArrows_of_not_bare (rest : List Token) : ∀ n : Node,
    (∀ m ∈ n.descendants, m.isBareArrow = false) → n.ClosesArrows rest
  | .mk r cs fs e, h => by
    refine ⟨fun hb => ?_, allCloseArrows_of_not_bare rest cs fun m hm => h m (.tail _ hm)⟩
    rw [h _ (.head _)] at hb
    cases hb

theorem allCloseArrows_of_not_bare (rest : List Token) : ∀ cs : List Child,
    (∀ m ∈ descendantsOf cs, m.isBareArrow = false) → AllCloseArrows rest cs
  | [], _ => trivial
  | .token _ :: cs, h => allCloseArrows_of_not_bare rest cs h
  | .node n :: cs, h =>
    ⟨closesArrows_of_not_bare _ n fun m hm => h m (List.mem_append_left _ hm),
      allCloseArrows_of_not_bare rest cs fun m hm => h m (List.mem_append_right _ hm)⟩

end

end Node

namespace Builder

/-- Neither arguments nor a body have been found so far. -/
def Bare (b : Builder) : Prop := b.fields.lookup "arguments" = none ∧ b.fields.lookup "body" = none

theorem bare_start (r : Rule) : (start r).Bare := ⟨rfl, rfl⟩

theorem Bare.label {b : Builder} (h : b.Bare) {name : String} (ha : name ≠ "arguments") (hb : name ≠ "body")
    (many : Bool) (start : Nat) (tokens : Bool) (relation : Option Relation) :
    (b.label name many start tokens relation).Bare := by
  unfold Bare
  rw [lookup_label_of_ne ha.symm, lookup_label_of_ne hb.symm]
  exact h

theorem bare_operator (r : Rule) (left : Node) (t : Token) : (operator r left t).Bare := by
  have h : ((start r).pushLabeledNode "left" left).Bare :=
    (show (((start r).pushNode left).Bare) from bare_start r).label (by decide) (by decide) _ _ _ _
  exact (show ((((start r).pushLabeledNode "left" left).pushToken t).Bare) from h).label
    (by decide) (by decide) _ _ _ _

theorem isBareArrow_finish {b : Builder} (hr : b.rule = .arrowInvocationExpression) (h : b.Bare) :
    b.finish.isBareArrow = true := by
  have hrule : b.finish.rule = .arrowInvocationExpression := hr
  have hfields : b.finish.fields = b.fields := rfl
  obtain ⟨ha, hb⟩ := h
  simp [Node.isBareArrow, hrule, Node.hasField, Node.slot?, hfields, ha, hb]

/-- What is closed in an operand is closed in what was made for it. -/
theorem closesArrows_operand {b : Builder} {rest : List Token}
    (h : (b.single?.getD b.finish).ClosesArrows rest) :
    (b.single?.getD b.finish).tokens = b.tokens ∧ Node.AllCloseArrows rest b.children := by
  rcases hs : b.single? with _ | m
  · rw [hs] at h
    exact ⟨b.tokens_finish, h.2⟩
  · rw [hs] at h
    refine ⟨tokens_of_single? hs, ?_⟩
    rw [(children_of_single? hs).1]
    simpa [Node.AllCloseArrows, Node.tokensOf] using h

end Builder

/-! ### Derivations of operators -/

namespace Grammar

variable {g : Grammar} {allowed : Rule → Nat → List Token → Prop} {e : Element} {r q : Rule} {table : Table}
  {tier : Tier} {t : Token} {ts us rest : List Token}

theorem DerivesBefore.repeated_nil (h : g.DerivesBefore allowed e [] rest) (least : Nat) (resync : Bool) :
    g.DerivesBefore allowed (.repeated e least resync) [] rest := by
  induction least with
  | zero => exact .none
  | succ n ih =>
    have hmore : g.DerivesBefore allowed (.repeated e (n + 1) resync) ([] ++ []) rest := .again h ih
    exact hmore

section

variable (hr : ∀ i us, allowed r i us) (htable : table.rule = r)
  (ha : ∀ a ∈ table.alternatives, a ∈ g.alternatives r) (hl : table.lookup t.kind = some (tier, q))
  (hc : t.channel = .default)
include hr htable ha hl hc

theorem DerivesBefore.binary (hf : tier.form = .binary)
    (h1 : g.DerivesBefore allowed (.rule r) ts (t :: us ++ rest))
    (h2 : g.DerivesBefore allowed (.rule r) us rest) :
    g.DerivesBefore allowed (.rule r) (ts ++ t :: us) rest := by
  obtain ⟨htier, ho⟩ := Table.mem_tiers_of_lookup hl
  have hrow := Table.mem_tierRows.2 (.inl ⟨hf, by rw [htable]⟩)
  obtain ⟨i, hi⟩ := List.mem_iff_getElem?.1 (ha _ (Table.mem_alternatives htier hrow))
  refine .rule hi (hr i rest) ?_
  have hright : g.DerivesBefore allowed (.seq [.oneOf tier.tokens, .ruleAt r tier.operandLevel])
      ([t] ++ (us ++ [])) rest :=
    .cons (.oneOf hc (Tier.contains_tokens ho)) (.cons (.ruleAt h2) .nil)
  rw [List.append_nil, List.singleton_append] at hright
  exact .cons h1 hright

theorem DerivesBefore.suffix (hf : tier.form ≠ .binary) (hk : t.kind ≠ .eof)
    (h1 : g.DerivesBefore allowed (.rule r) ts (t :: us ++ rest))
    (h2 : g.DerivesBefore allowed (.rule q) us rest) :
    g.DerivesBefore allowed (.rule r) (ts ++ t :: us) rest := by
  obtain ⟨htier, ho⟩ := Table.mem_tiers_of_lookup hl
  have hrow : [.rule r, .token t.kind, .rule q] ∈ table.tierRows tier :=
    Table.mem_tierRows.2 (.inr ⟨hf, _, ho, by rw [htable]⟩)
  obtain ⟨i, hi⟩ := List.mem_iff_getElem?.1 (ha _ (Table.mem_alternatives htier hrow))
  refine .rule hi (hr i rest) ?_
  have hright : g.DerivesBefore allowed (.seq [.token t.kind, .rule q]) ([t] ++ (us ++ [])) rest :=
    .cons (.token hc hk) (.cons h2 .nil)
  rw [List.append_nil, List.singleton_append] at hright
  exact .cons h1 hright

end

end Grammar

/-! ### Runs -/

/-- The parser wants of the task what the grammar says. -/
def Task.Wanted (g : Grammar) : Task → Prop
  | .operators table _ scope _ => g.table? scope.rule = some table
  | task => task.Plain g

namespace Setup

variable {u : Setup}

/-- The node in the making got children, and `p` holds of their tokens in front of any others, as long as
no bare arrow in them stands in front of a brace. -/
structure Closes (b b' : Builder) (p : List Token → List Token → Prop) : Prop where
  rule : b'.rule = b.rule
  children : ∃ cs, b'.children = b.children ++ cs ∧
    ∀ rest, Node.AllCloseArrows rest cs → p (Node.tokensOf cs) rest

namespace Closes

variable {b c d : Builder} {p q r : List Token → List Token → Prop}

theorem refl (h : ∀ rest, p [] rest) : Closes b b p :=
  ⟨rfl, [], by simp, fun rest _ => h rest⟩

theorem of_reads {x x' : Session} (h : u.Reads x b x' c fun ts => ∀ rest, p ts rest) : Closes b c p := by
  obtain ⟨cs, hcs, -, hp, -⟩ := h.children
  exact ⟨h.rule, cs, hcs, fun rest _ => hp rest⟩

theorem imp (h : Closes b c p) (hq : ∀ ts rest, p ts rest → q ts rest) : Closes b c q := by
  obtain ⟨cs, hcs, hp⟩ := h.children
  exact ⟨h.rule, cs, hcs, fun rest hr => hq _ _ (hp rest hr)⟩

theorem trans (h1 : Closes b c p) (h2 : Closes c d q)
    (hr : ∀ ts us rest, p ts (us ++ rest) → q us rest → r (ts ++ us) rest) : Closes b d r := by
  obtain ⟨cs, hcs, hp⟩ := h1.children
  obtain ⟨ds, hds, hq⟩ := h2.children
  refine ⟨h2.rule.trans h1.rule, cs ++ ds, by rw [hds, hcs, List.append_assoc], fun rest h => ?_⟩
  obtain ⟨hc, hd⟩ := (Node.allCloseArrows_append cs ds).1 h
  rw [Node.tokensOf_append]
  exact hr _ _ _ (hp _ hc) (hq _ hd)

theorem pushNode {n : Node} (h : ∀ rest, n.ClosesArrows rest → p n.tokens rest) :
    Closes b (b.pushNode n) p := by
  refine ⟨rfl, [.node n], rfl, fun rest hr => ?_⟩
  simp only [Node.AllCloseArrows, Node.tokensOf, List.nil_append, and_true] at hr
  simpa [Node.tokensOf] using h rest hr

theorem label (h : Closes b c p) (name : String) (many : Bool) (start : Nat) (tokens : Bool)
    (relation : Option Relation) : Closes b (c.label name many start tokens relation) p :=
  ⟨by simpa using h.rule, by simpa using h.children⟩

/-- The tokens of a node that was started here. -/
theorem start {s : Rule} (h : Closes (.start s) c p) {rest : List Token}
    (hr : Node.AllCloseArrows rest c.children) : p c.tokens rest := by
  obtain ⟨cs, hcs, hp⟩ := h.children
  simp only [Builder.start, List.nil_append] at hcs
  rw [Builder.tokens, hcs]
  exact hp rest (hcs ▸ hr)

/-- What stands behind an operator, and behind what stands there. -/
theorem operation {s : Rule} {left : Node} {t : Token} (h : Closes (.operator s left t) c p) :
    ∃ ts, c.finish.tokens = left.tokens ++ t :: ts ∧ ∀ rest, c.finish.ClosesArrows rest →
      left.ClosesArrows (t :: ts ++ rest) ∧
      (s = .arrowInvocationExpression → c.Bare → nextKind (kindsOf rest) ≠ .lBrace) ∧ p ts rest := by
  obtain ⟨cs, hcs, hp⟩ := h.children
  rw [Builder.operator_children] at hcs
  refine ⟨Node.tokensOf cs, by simp [Builder.tokens, hcs, Node.tokensOf], fun rest hn => ?_⟩
  obtain ⟨hbare, hall⟩ := hn
  rw [hcs] at hall
  obtain ⟨hleft, hright⟩ := hall
  exact ⟨hleft, fun hs hb => hbare (Builder.isBareArrow_finish (h.rule.trans (by simpa using hs)) hb),
    hp rest hright⟩

end Closes

theorem closesArrows_of_table {r : Rule} {t : Table} (h : kerml.table? r = some t) (i : Nat)
    (rest : List Token) : closesArrows r i rest := by
  rintro rfl
  cases h

/-- What a task reads if no bare arrow stands in front of a brace. Operators read on behind `left`, which
then is where it stands. -/
def TaskCloses (b b' : Builder) : Task → Prop
  | .element e _ => Closes b b' (kerml.DerivesBefore closesArrows e)
  | .row es _ => Closes b b' (kerml.DerivesBefore closesArrows (.seq es))
  | .items e resync _ need => Closes b b' (kerml.DerivesBefore closesArrows (.repeated e need resync))
  | .body scope => (scope.rule = .arrowInvocationExpression → b.Bare) → Closes b b' fun ts rest =>
      (scope.rule = .arrowInvocationExpression → b'.Bare → nextKind (kindsOf rest) ≠ .lBrace) →
        kerml.DerivesBefore closesArrows (.rule scope.rule) ts rest
  | .call r _ _ => Closes b b' (kerml.DerivesBefore closesArrows (.rule r))
  | .operators _ _ scope left => ∃ m ts, b' = b.pushNode m ∧ m.tokens = left.tokens ++ ts ∧
      ∀ rest, m.ClosesArrows rest → left.ClosesArrows (ts ++ rest) ∧
        (kerml.DerivesBefore closesArrows (.rule scope.rule) left.tokens (ts ++ rest) →
          kerml.DerivesBefore closesArrows (.rule scope.rule) m.tokens rest)

section

variable (hg : u.grammar = kerml)
include hg

/-- A name behind an arrow gives it neither arguments nor a body. -/
theorem Runs.bare {n : Nat} {scope : Scope} {x x' : Session} {b b' : Builder}
    (h : u.Runs n (.row [Arrow.function] scope) x b x' b') (hb : b.Bare) : b'.Bare := by
  have hname : (kerml.definition .qualifiedName).inline = false := rfl
  have hplain : kerml.table? .qualifiedName = none := rfl
  cases h with | cons h hnil => cases hnil with | nil =>
  cases h with | labeled h => cases h with | rule h =>
  refine Builder.Bare.label ?_ (by decide) (by decide) _ _ _ _
  cases h with
  | refused h =>
    rw [recover_eq] at h
    cases h
    generalize u.strays _ = m
    cases m <;> exact hb
  | inlined _ hi _ =>
    rw [hg, hname] at hi
    cases hi
  | wrapped _ _ _ => exact hb
  | climbed ht _ _ =>
    rw [hg, hplain] at ht
    cases ht

/-- The children of an alternative are derived from its rule. A bare arrow has the last one. -/
theorem Closes.chosen {n i : Nat} {scope : Scope} {y x' : Session} {b b' : Builder} {a : Alternative}
    (ha : (kerml.alternatives scope.rule)[i]? = some a)
    (h : u.Runs n (.row a.elements scope) y b x' b')
    (hb : scope.rule = .arrowInvocationExpression → b.Bare)
    (hr : Closes b b' (kerml.DerivesBefore closesArrows (.seq a.elements))) :
    Closes b b' fun ts rest =>
      (scope.rule = .arrowInvocationExpression → b'.Bare → nextKind (kindsOf rest) ≠ .lBrace) →
        kerml.DerivesBefore closesArrows (.rule scope.rule) ts rest := by
  refine hr.imp fun ts rest hd hclosed => .rule ha (fun harrow hi => hclosed harrow ?_) hd
  subst hi
  rw [harrow, Arrow.alternatives_eq] at ha
  cases ha
  exact h.bare hg (hb harrow)

/-- A run that reports nothing reads what its task asks for. -/
theorem Runs.closes (hu : u.Regular) {n : Nat} {task : Task} {x x' : Session} {b b' : Builder}
    (h : u.Runs n task x b x' b') (hx : u.Calm x) (he : x'.errors = []) (hp : task.Wanted u.grammar) :
    TaskCloses b b' task := by
  have hread : u.grammar.Readable := hg ▸ readable_kerml
  induction h with
  | @token _ k _ _ _ _ _ h =>
    refine .of_reads (expect_reads hu h hx he (fun hs rest => ?_) fun t ht hk hm rest => ?_)
    · rw [single_eq_endKinds.1 hs]
      exact .eof
    · rw [KindSet.contains_single, decide_eq_true_eq] at hm
      exact hm ▸ .token ht hk
  | @relation _ k r _ _ _ _ _ h =>
    simp only [Task.Wanted, Task.Plain, Element.all, Element.plain, bne_iff_ne] at hp
    refine .of_reads (expect_reads hu h hx he (fun hs rest => ?_) fun t ht hk hm rest => ?_)
    · exact absurd (single_eq_endKinds.1 hs) hp
    · rw [KindSet.contains_single, decide_eq_true_eq] at hm
      exact hm ▸ .relation ht hk
  | oneOf h =>
    simp only [Task.Wanted, Task.Plain, Element.all, Element.plain, bne_iff_ne] at hp
    exact .of_reads (expect_reads hu h hx he (fun hs => absurd hs hp) fun t ht _ hm rest => .oneOf ht hm)
  | comment h =>
    have hr := expectComment_reads h hx he
    refine .of_reads (hr.imp fun ts hd rest => ?_)
    cases hd with | comment h => exact .comment h
  | rule _ ih => exact ih hx he trivial
  | ruleAt _ ih => exact (ih hx he trivial).imp fun _ _ => .ruleAt
  | present hd h ih =>
    simp only [Task.Wanted, Task.Plain, Element.all, Element.plain, Bool.true_and] at hp
    exact (ih (hx.enter hd) he hp).imp fun _ _ => .present
  | absent hd => exact .refl fun _ => .absent
  | repeated _ ih =>
    refine ih hx he ?_
    simpa [Task.Wanted, Task.Plain, Element.all, Element.plain] using hp
  | seq _ ih =>
    refine ih hx he ?_
    simpa [Task.Wanted, Task.Plain, Element.all, Element.plain] using hp
  | labeled _ ih =>
    simp only [Task.Wanted, Task.Plain, Element.all, Element.plain, Bool.and_eq_true, bne_iff_ne] at hp
    exact ((ih hx he hp.2).imp fun _ _ => .labeled).label _ _ _ _ _
  | nil => exact .refl fun _ => .nil
  | cons h1 h2 ih1 ih2 =>
    simp only [Task.Wanted, Task.Plain, rowAll, Bool.and_eq_true] at hp
    obtain ⟨hy, hye⟩ := hx.behind hu h1 (h2.advances hu) he
    exact (ih1 hx hye hp.1).trans (ih2 hy he hp.2) fun _ _ _ => .cons
  | moved hd h1 _ h2 ih1 ih2 =>
    have hy := hx.checked.enterItem hd
    obtain ⟨hz, hze⟩ := hy.behind hu h1 (fun hf => h2.advances_from hu (Advances.refl hf |>.noted _)) he
    exact (ih1 hy hze hp).trans (ih2 (hz.noted _) he hp) fun _ _ _ => .again
  | @stuck _ e resync scope need x b y x' b' hd h1 hz _ ih =>
    have hy := hx.checked.enterItem hd
    have hr : Closes b b' _ := ih hy he hp
    have hread : u.Reads y b x' b' _ := h1.reads hu hread hy he hp
    obtain ⟨cs, hcs, hk, -⟩ := hread.children
    obtain ⟨ds, hds, hdd⟩ := hr.children
    obtain rfl : ds = cs := List.append_cancel_left (hds.symm.trans hcs)
    -- the item took nothing, so it can be there as often as it is wanted
    have hpos : y.pos = x'.pos := (enterItem_alike hd).pos.trans hz.symm
    have hnil := (hpos ▸ hk).eq_nil
    refine ⟨hr.rule, ds, hds, fun rest hrest => ?_⟩
    have hitem := hdd rest hrest
    rw [hnil] at hitem ⊢
    exact hitem.repeated_nil _ _
  | freed hd h1 _ _ hw h2 _ _ =>
    subst hw
    exact absurd he ((hx.checked.enterItem hd).freed_ne_nil hu h1 h2)
  | ended hd _ =>
    obtain ⟨rfl, -⟩ := enter_of_not_enterItem hd
    exact .refl fun _ => .none
  | resumed hd _ hw h2 _ =>
    subst hw
    exact absurd he ((hx.checked.enterItem hd).strayed_ne_nil hu h2)
  | @chosen _ scope _ _ i _ _ _ hd hi h ih =>
    intro hb
    obtain ⟨a, ha, -⟩ := Grammar.mem_choices.1 hi
    rw [Resolver.elements_of_getElem? ha] at h ih
    have hr := ih ((hx.noted _).decide hu hd) he (hread.plain _ a (List.mem_of_getElem? ha))
    rw [hg] at ha
    exact .chosen hg ha h hb hr
  | lost hd h => exact absurd he (((hx.noted _).decide hu hd).recover_ne_nil h)
  | refused h => exact absurd he ((hx.called _ _).recover_ne_nil h)
  | @inlined _ r _ scope _ b _ b' _ hi _ ih =>
    have hne : r ≠ .arrowInvocationExpression := by
      rintro rfl
      rw [hg] at hi
      cases hi
    have hr : Closes b _ _ := ih ((hx.called _ _).noted _) he trivial fun h => absurd h hne
    exact hr.imp fun ts rest hd => hd fun h => absurd h hne
  | @wrapped _ r _ scope _ b _ c _ _ _ ih =>
    have hr : Closes _ c _ := ih ((hx.called _ _).noted _) he trivial fun _ => Builder.bare_start r
    refine .pushNode fun rest hn => ?_
    rw [Builder.tokens_finish]
    refine hr.start hn.2 fun harrow hbare => hn.1 (Builder.isBareArrow_finish (hr.rule.trans harrow) hbare)
  | @climbed _ r _ _ _ _ table _ c _ _ ht h1 h2 ih1 ih2 =>
    obtain ⟨hy, hye⟩ := ((hx.called _ _).noted _).behind hu h1 (h2.advances hu) he
    have hr : Closes _ c _ := ih1 ((hx.called _ _).noted _) hye trivial fun _ => Builder.bare_start r
    have hne : r ≠ .arrowInvocationExpression := by
      rintro rfl
      rw [hg] at ht
      cases ht
    obtain ⟨m, ts, rfl, hm, hclosed⟩ := ih2 hy he ht
    refine .pushNode fun rest hn => ?_
    obtain ⟨hleft, hd⟩ := hclosed rest hn
    obtain ⟨htokens, hc⟩ := c.closesArrows_operand hleft
    exact hd (htokens ▸ hr.start hc fun h => absurd h hne)
  | @done _ _ _ scope left x b _ =>
    exact ⟨left, [], rfl, by simp, fun rest h => ⟨h, id⟩⟩
  | @binary _ table _ scope left x b tier q y c _ _ hl _ hf hend h1 h2 ih1 ih2 =>
    have ht : u.grammar.table? scope.rule = some table := hp
    have hne : ∀ i us, closesArrows scope.rule i us := closesArrows_of_table (hg ▸ ht)
    obtain ⟨hrule, halts⟩ := hread.tables _ _ ht
    rw [hg] at halts
    have hc := u.stream.channel_settle (u.stream.settle_lt_of_not_atEnd hend)
    have hstart := hx.checked.operatedAt hend
    obtain ⟨hy, hye⟩ := hstart.behind hu h1 (h2.advances hu) he
    have hr : Closes _ c _ := ih1 hstart hye trivial
    obtain ⟨ts, htokens, hnode⟩ := (hr.label "right" false
      (Builder.operator q left (u.stream.current x.pos)).size false none).operation
    obtain ⟨m, us, rfl, hm, hclosed⟩ := ih2 hy he ht
    refine ⟨m, u.stream.current x.pos :: ts ++ us, rfl, by simp [hm, htokens], fun rest hn => ?_⟩
    obtain ⟨hoperation, hd⟩ := hclosed rest hn
    obtain ⟨hleft, -, hright⟩ := hnode _ hoperation
    rw [List.append_assoc]
    refine ⟨hleft, fun hl' => hd (htokens ▸ ?_)⟩
    exact .binary hne hrule halts hl hc hf hl' hright
  | @suffix _ table _ scope left x b tier q y c _ _ hl _ hf hend h1 h2 ih1 ih2 =>
    have ht : u.grammar.table? scope.rule = some table := hp
    have hne : ∀ i us, closesArrows scope.rule i us := closesArrows_of_table (hg ▸ ht)
    obtain ⟨hrule, halts⟩ := hread.tables _ _ ht
    rw [hg] at halts
    have hc := u.stream.channel_settle (u.stream.settle_lt_of_not_atEnd hend)
    have hk : u.stream.kind x.pos ≠ .eof := fun h => by simp [h, hu.founded.eof _ _ ht] at hl
    have hstart := hx.checked.operatedAt hend
    obtain ⟨hy, hye⟩ := hstart.behind hu h1 (h2.advances hu) he
    have hr : Closes _ c _ := ih1 hstart hye trivial fun _ => Builder.bare_operator q left _
    obtain ⟨ts, htokens, hnode⟩ := hr.operation
    obtain ⟨m, us, rfl, hm, hclosed⟩ := ih2 hy he ht
    refine ⟨m, u.stream.current x.pos :: ts ++ us, rfl, by simp [hm, htokens], fun rest hn => ?_⟩
    obtain ⟨hoperation, hd⟩ := hclosed rest hn
    obtain ⟨hleft, hbrace, hright⟩ := hnode _ hoperation
    rw [List.append_assoc]
    refine ⟨hleft, fun hl' => hd (htokens ▸ ?_)⟩
    exact .suffix hne hrule halts hl hc hf hk hl' (hright hbrace)

/-- A whole parse that reports nothing reads a text with a derivation in which all arrows are closed, if
they are in its tree. -/
theorem Rooted.closes (hu : u.Regular) (hm : u.settings.Reports) {r : Rule} {n : Node} {x : Session}
    (h : u.Rooted r n x) (he : x.errors = []) (hn : n.ClosesArrows []) :
    kerml.DerivesBefore closesArrows (.rule r) n.tokens [] := by
  obtain ⟨y, b, c, hrun, hend, rfl⟩ := h
  have hx : u.Calm (.start u.settings) := ⟨fit_start u, rfl, hm⟩
  obtain ⟨hy, hye⟩ := hx.behind hu hrun (fun hf => (Advances.refl hf).expectEnd hend) he
  have hr : Closes _ b _ := hrun.closes hg hu hx hye trivial
  rw [expectEnd_eq] at hend
  split at hend
  · cases hend
    rw [Builder.tokens_finish, Builder.tokens_unwrapped]
    refine hr.start ?_
    unfold Builder.unwrapped at hn
    split at hn
    · rename_i m hs
      rw [Builder.finish_reopen] at hn
      rw [(Builder.children_of_single? hs).1]
      exact ⟨by simpa [Node.tokensOf] using hn, trivial⟩
    · exact hn.2
  · cases hend
    exact absurd he (by simpa using hy.errors_ne_nil _ _ _)

end

end Setup

end KermlText
