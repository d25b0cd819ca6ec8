import KermlText.Proofs.Derivation
import KermlText.Proofs.LeastSets
import KermlText.Proofs.Sites

/-! Followers. What a parse lets follow a rule is worked out on the way to it, from the rows and the lists
around and from the operators that may come. It is never more than what may follow the rule anywhere, since
the sets of followers come from the same mentions. So where a rule is given up, all that stops the skipping is
what may follow the rule, what the lists around can use, and the end. -/

namespace KermlText

/-- All of these may follow the rule. -/
def Grammar.LetsFollow (g : Grammar) (r : Rule) (ks : KindSet) : Prop :=
  ∀ k, ks.contains k = true → (g.follow r).contains k = true

/-- What the task lets follow a rule that it mentions may follow the rule. -/
def Task.Followed (u : Setup) : Task → Prop
  | .element e scope =>
    ∀ q rest, Grammar.Occurs q e rest → u.grammar.LetsFollow q (u.before rest scope).follow
  | .row es scope =>
    ∀ q rest, Grammar.Occurs q (.seq es) rest → u.grammar.LetsFollow q (u.before rest scope).follow
  | .items e resync scope _ =>
    ∀ q rest, Grammar.Occurs q (.repeated e 0 resync) rest →
      u.grammar.LetsFollow q (u.before rest scope).follow
  | .body scope => u.grammar.LetsFollow scope.rule scope.follow
  | .call r _ scope => u.grammar.LetsFollow r scope.follow
  | .operators table _ scope _ =>
    u.grammar.LetsFollow scope.rule scope.follow ∧
      ∀ k tier q, table.lookup k = some (tier, q) → tier.form ≠ .binary →
        u.grammar.LetsFollow q scope.follow

/-- What an event says of followers is right. -/
def Event.Followed (g : Grammar) : Event → Prop
  | .called r ks | .asked r ks => g.LetsFollow r ks
  | _ => True

namespace Setup

open Session

variable {u : Setup}

/-! ### Followers of elements -/

theorem contains_follow_before (rest : List Element) (scope : Scope) (k : Kind) :
    (u.before rest scope).follow.contains k =
      ((u.grammar.firstOfRow rest).contains k || u.grammar.rowNullable rest && scope.follow.contains k) :=
  contains_kinds_before rest ⟨scope.follow, true⟩ k

theorem follow_before_nil (scope : Scope) : (u.before [] scope).follow = scope.follow :=
  congrArg Next.kinds (Next.before_nil ⟨scope.follow, true⟩)

theorem follow_before_append (es fs : List Element) (scope : Scope) :
    (u.before (es ++ fs) scope).follow = (u.before es (u.before fs scope)).follow :=
  congrArg Next.kinds (Next.before_append es fs ⟨scope.follow, true⟩)

/-- Behind an item the rest of it may come, and then what may come behind an item. -/
theorem follow_before_again (e : Element) (resync : Bool) (rest : List Element) (scope : Scope) :
    (u.before (rest ++ [.repeated e 0 resync]) scope).follow = (u.before rest (u.within e scope)).follow := by
  have h : (u.before [.repeated e 0 resync] scope).follow = (u.within e scope).follow :=
    congrArg Next.kinds (Next.before_again e resync ⟨scope.follow, true⟩)
  rw [follow_before_append]
  simp only [before, ← h]

/-! ### Followers of rules -/

section

variable {defs : List Definition} {tables : List Table} (hg : u.grammar = Grammar.build defs tables)
include hg

/-- What may come behind a mention may follow the rule that is mentioned. -/
theorem letsFollow_before {s q : Rule} {a : Alternative} {rest : List Element} {scope : Scope}
    (ha : a ∈ u.grammar.alternatives s) (ho : Grammar.Occurs q (.seq a.elements) rest)
    (hs : u.grammar.LetsFollow s scope.follow) : u.grammar.LetsFollow q (u.before rest scope).follow := by
  intro k hk
  rw [contains_follow_before, Bool.or_eq_true, Bool.and_eq_true] at hk
  unfold Grammar.LetsFollow at hs
  rw [hg] at ha hk hs ⊢
  have hfollows := Grammar.follows_follow defs tables
  rcases hk with hfirst | ⟨hempty, hlast⟩
  · exact hfollows.next ha ho ((Grammar.contains_firstOfRow_iff defs tables).1 hfirst)
  · exact hfollows.last ha ho ((Grammar.rowNullable_iff defs tables).1 hempty) (hs k hlast)

theorem table_rule_eq {r : Rule} {t : Table} (ht : u.grammar.table? r = some t) :
    t.rule = r ∧ ∀ a ∈ t.alternatives, a ∈ u.grammar.alternatives r := by
  rw [hg] at ht ⊢
  exact Grammar.table?_build ht

/-- Operators may follow an operand. -/
theorem letsFollow_operators {r : Rule} {t : Table} (ht : u.grammar.table? r = some t) :
    u.grammar.LetsFollow r t.operators := by
  obtain ⟨rfl, halts⟩ := table_rule_eq hg ht
  intro k hk
  obtain ⟨tier, htier, hk⟩ := Table.contains_operators_iff.1 hk
  -- a row of the table that begins with the operand, and goes on with the operator
  suffices hrow : ∃ e es, Element.rule t.rule :: e :: es ∈ t.tierRows tier ∧ u.grammar.CanStart k e by
    obtain ⟨e, es, hrow, he⟩ := hrow
    have ha := halts _ (Table.mem_alternatives htier hrow)
    have ho : Grammar.Occurs t.rule (.seq ([] ++ .rule t.rule :: e :: es)) ([] ++ e :: es) := .seq .rule
    have hstart : u.grammar.CanStart k (.seq ([] ++ e :: es)) := .seq (List.forall_mem_nil _) he
    rw [hg] at ha hstart ⊢
    exact (Grammar.follows_follow defs tables).next ha ho hstart
  by_cases hform : tier.form = .binary
  · exact ⟨_, _, Table.mem_tierRows.2 (.inl ⟨hform, rfl⟩), .oneOf hk⟩
  · rw [Tier.tokens, KindSet.contains_ofList] at hk
    obtain ⟨o, ho, rfl⟩ := List.mem_map.1 hk
    exact ⟨_, _, Table.mem_tierRows.2 (.inr ⟨hform, o, ho, rfl⟩), .token⟩

/-- What follows the rule of an operator stands last in that of its table, so what follows the one may follow
the other. -/
theorem letsFollow_node {r q : Rule} {t : Table} {k : Kind} {tier : Tier} {ks : KindSet}
    (ht : u.grammar.table? r = some t) (hl : t.lookup k = some (tier, q)) (hform : tier.form ≠ .binary)
    (h : u.grammar.LetsFollow r ks) : u.grammar.LetsFollow q ks := by
  obtain ⟨rfl, halts⟩ := table_rule_eq hg ht
  obtain ⟨htier, ho⟩ := Table.mem_tiers_of_lookup hl
  have ha := halts _ (Table.mem_alternatives htier (Table.mem_tierRows.2 (.inr ⟨hform, _, ho, rfl⟩)))
  have hocc : Grammar.Occurs q (.seq ([.rule t.rule, .token k] ++ [.rule q])) ([] ++ []) := .seq .rule
  intro k' hk'
  unfold Grammar.LetsFollow at h
  rw [hg] at ha h ⊢
  exact (Grammar.follows_follow defs tables).last ha hocc nofun (h k' hk')

theorem letsFollow_eof (r : Rule) : u.grammar.LetsFollow r endKinds := by
  intro k hk
  obtain rfl : .eof = k := by simpa [endKinds] using hk
  rw [hg]
  exact (Grammar.follows_follow defs tables).eof r

/-! ### Followers of tasks -/

theorem passes_followed : u.Passes fun task _ => task.Followed u where
  rule {r scope x} h := by
    have hr := h r [] .rule
    rwa [follow_before_nil] at hr
  ruleAt {r level scope x} h := by
    have hr := h r [] .ruleAt
    rwa [follow_before_nil] at hr
  present _ h q rest ho := h q rest (.optional ho)
  repeated h q rest ho := by
    cases ho with
    | repeated ho => exact h q _ (.repeated ho)
  seq h := h
  labeled h q rest ho := h q rest (.labeled ho)
  head {e es scope x} h q rest ho := by
    have hocc : Grammar.Occurs q (.seq ([] ++ e :: es)) (rest ++ es) := .seq ho
    rw [← follow_before_append]
    exact h q _ hocc
  tail h q rest ho := h q rest (ho.cons _)
  item {e resync scope need x y} _ h q rest ho := by
    rw [← follow_before_again e resync]
    exact h q _ (.repeated ho)
  round h := h
  chosen {scope i x y} hi h q rest ho := by
    obtain ⟨a, ha, -⟩ := Grammar.mem_choices.1 hi
    rw [Resolver.elements_of_getElem? ha] at ho
    exact letsFollow_before hg (List.mem_of_getElem? ha) ho h
  opened _ h := h
  operand ht h k hk := by
    simp only [operandScope, KindSet.contains_union, Bool.or_eq_true] at hk
    exact hk.elim (h k) (letsFollow_operators hg ht k)
  operators {r level scope table left x y} ht h := by
    have hr : u.grammar.LetsFollow r (operandScope r table scope).follow := fun k hk => by
      simp only [operandScope, KindSet.contains_union, Bool.or_eq_true] at hk
      exact hk.elim (h k) (letsFollow_operators hg ht k)
    exact ⟨hr, fun k tier q hl hform => letsFollow_node hg ht hl hform hr⟩
  right _ _ h := h.1
  rest hl hform h := h.2 _ _ _ hl hform
  next h := h

end

/-! ### Followers on record -/

theorem followed_skippedOver {x : Session} (h : ∀ e ∈ x.journal, e.Followed u.grammar) (context : KindSet)
    (places : List Nat) : ∀ e ∈ (x.skippedOver context places).journal, e.Followed u.grammar := by
  rw [journal_skippedOver]
  intro e he
  rcases List.mem_append.1 he with he | he
  · obtain ⟨i, -, rfl⟩ := Event.exists_of_mem_skipped he
    trivial
  · exact h e he

theorem followed_reported {x : Session} (h : ∀ e ∈ x.journal, e.Followed u.grammar) (code : Code) (r : Rule)
    (expected : KindSet) : ∀ e ∈ (u.reported code r expected x).journal, e.Followed u.grammar := by
  have hcons : ∀ e₀ : Event, e₀.Followed u.grammar → ∀ e ∈ e₀ :: x.journal, e.Followed u.grammar :=
    fun e₀ he₀ => List.forall_mem_cons.2 ⟨he₀, h⟩
  exact u.journal_reported (q := fun es => ∀ e ∈ es, e.Followed u.grammar) code r expected h
    (hcons .suppressed trivial) (hcons .reported trivial)

theorem upholds_followed (u : Setup) : u.Upholds (fun task _ => task.Followed u)
    fun x => ∀ e ∈ x.journal, e.Followed u.grammar where
  called hc h := List.forall_mem_cons.2 ⟨hc, h⟩
  asked hc h := List.forall_mem_cons.2 ⟨hc, h⟩
  opened h := List.forall_mem_cons.2 ⟨trivial, h⟩
  again h := List.forall_mem_cons.2 ⟨trivial, h⟩
  checked h := h
  decided _ h := h
  matched _ h := List.forall_mem_cons.2 ⟨trivial, h⟩
  operated _ _ _ h := List.forall_mem_cons.2 ⟨trivial, h⟩
  reported _ _ h := followed_reported h _ _ _
  skipped _ _ h := followed_skippedOver h _ _
  gaveUp h := h

theorem followed_last {defs : List Definition} {tables : List Table}
    (hg : u.grammar = Grammar.build defs tables) (hu : u.Regular) (r : Rule) :
    ∀ e ∈ (u.last r).journal, e.Followed u.grammar := by
  have hroot : u.grammar.LetsFollow r (u.rootScope r).follow := fun k hk => by
    simp only [rootScope, KindSet.contains_union, Bool.or_eq_true] at hk
    exact hk.elim id (letsFollow_eof hg r k)
  have hend : ∀ q rest, Grammar.Occurs q (.token .eof) rest →
      u.grammar.LetsFollow q (u.before rest (u.rootScope r)).follow := fun q rest h => by cases h
  have hlast := (upholds_followed u.unsignalled).last hu (passes_followed hg)
    (fun e he => absurd he List.not_mem_nil) r hroot fun _ => hend
  exact fun e he => hlast e ((grows_last hu r).journal.subset he)

/-- A rule that is given up where nothing follows but what may follow it: only that, what the lists around can
use, and the end stop the skipping. -/
theorem recover_of_letsFollow {r : Rule} {scope : Scope} (h : u.grammar.LetsFollow r scope.follow)
    (b : Builder) (x : Session) :
    u.recover scope r b x =
      let places := u.passed (u.grammar.follow r ∪ scope.context ∪ endKinds) x
      .ok (b.pushNode? (u.strays places)).markError (x.skippedOver scope.context places) := by
  have hsync : scope.follow ∪ u.grammar.follow r = u.grammar.follow r := KindSet.ext_contains fun k => by
    rw [KindSet.contains_union, Bool.or_eq_right_iff_imp]
    exact h k
  rw [recover_eq, hsync]

end Setup

/-- Whatever is parsed, and whether or not it is called off: wherever a rule is called, or one of its
alternatives asked for, all that is let follow may follow the rule, and to give the rule up there is to skip up
to what may follow it, to what the lists around can use, or to the end. -/
theorem parseTokens_followed (r : Rule) (ts : List Token) (settings : Settings) (q : Rule) (ks : KindSet)
    (h : .called q ks ∈ ((Setup.ofTokens ts settings).last r).journal ∨
      .asked q ks ∈ ((Setup.ofTokens ts settings).last r).journal) :
    (∀ k, ks.contains k = true → (kerml.follow q).contains k = true) ∧
      ∀ (scope : Scope) (b : Builder) (x : Session), scope.follow = ks →
        (Setup.ofTokens ts settings).recover scope q b x =
          let places := (Setup.ofTokens ts settings).passed
            (kerml.follow q ∪ scope.context ∪ Setup.endKinds) x
          .ok (b.pushNode? ((Setup.ofTokens ts settings).strays places)).markError
            (x.skippedOver scope.context places) := by
  have hg : (Setup.ofTokens ts settings).grammar =
    Grammar.build Rules.all [Rules.operatorTable, Rules.suffixTable] := rfl
  have hlast := Setup.followed_last hg (regular_ofTokens ts settings) r
  have hq : (Setup.ofTokens ts settings).grammar.LetsFollow q ks := h.elim (hlast _) (hlast _)
  refine ⟨hq, fun scope b x hscope => ?_⟩
  subst hscope
  exact Setup.recover_of_letsFollow hq b x

/-- Whether alternatives of the rule are asked for, with `k` among what is let follow. -/
def Event.asksBefore (q : Rule) (k : Kind) : Event → Bool
  | .asked r ks => r == q && ks.contains k
  | _ => false

theorem checked_operand : ((Setup.ofTokens (scan "x = a[1] + ;") .standard).last .rootNamespace).journal.any
    (Event.asksBefore .ownedExpression .plus) = true := by
  decide +kernel

/-- A plus may follow an operand, and may come where the operand behind it is missing. -/
theorem parseTokens_followed_operand :
    ∃ ks, .asked .ownedExpression ks ∈
        ((Setup.ofTokens (scan "x = a[1] + ;") .standard).last .rootNamespace).journal ∧
      ks.contains .plus = true ∧ (kerml.follow .ownedExpression).contains .plus = true := by
  obtain ⟨e, he, ha⟩ := List.any_eq_true.1 checked_operand
  cases e with
  | asked q ks =>
    simp only [Event.asksBefore, Bool.and_eq_true, beq_iff_eq] at ha
    obtain ⟨rfl, hk⟩ := ha
    exact ⟨ks, he, hk, (parseTokens_followed _ _ _ _ _ (.inr he)).1 _ hk⟩
  | _ => cases ha

end KermlText
