import KermlText.Proofs.Ahead
import KermlText.Proofs.Recall
import KermlText.Proofs.Synonyms

/-! Chains of operators. A chain of operands with left-associative operators between them is read in a loop,
and only a right operand opens a rule inside the rule that is being read. It is read at a level above that of
its operator, so as many expressions are open as there are levels at most, and a name is read inside the last
of them: the length of the chain has no say in the depth. -/

namespace KermlText

/-- The operator stands between two operands, in a tier that groups to the left. -/
def Table.LeftInfix (table : Table) (k : Kind) : Prop :=
  ∃ tier ∈ table.tiers, tier.form = .binary ∧ tier.rightAssoc = false ∧ k ∈ tier.operators.map (·.1)

instance (table : Table) (k : Kind) : Decidable (table.LeftInfix k) :=
  inferInstanceAs (Decidable (∃ tier ∈ table.tiers, _))

namespace Chains

/-- The kinds behind the first operand: operators, each with an operand behind it. -/
def links (ks : List Kind) : List Kind := ks.flatMap fun k => [k, .ident]

theorem length_links (ks : List Kind) : (links ks).length = 2 * ks.length := by
  induction ks with
  | nil => rfl
  | cons k ks ih =>
    rw [links, List.flatMap_cons, List.length_append, ← links, ih, List.length_cons]
    simp only [List.length_cons, List.length_nil]
    omega

/-! ### What the grammar says -/

/-- What is looked up for an operator, and that nothing inside an operand may take it. -/
theorem lookup_of_leftInfix {k : Kind} (h : Rules.operatorTable.LeftInfix k) :
    (∃ tier q, Rules.operatorTable.lookup k = some (tier, q) ∧ tier.form = .binary ∧
      tier.operandLevel = tier.level + 1 ∧ tier.level ≤ 11) ∧
    Rules.suffixTable.lookup k = none ∧ k ≠ .colonColon := by
  obtain ⟨tier, htier, hform, hassoc, hk⟩ := h
  have hall : ∀ tier ∈ Rules.operatorTable.tiers, tier.form = .binary → tier.rightAssoc = false →
      ∀ k ∈ tier.operators.map (·.1),
        ((Rules.operatorTable.lookup k).any fun found => found.1.form == .binary &&
          found.1.operandLevel == found.1.level + 1 && found.1.level ≤ 11) = true ∧
        Rules.suffixTable.lookup k = none ∧ k ≠ .colonColon := by
    decide +kernel
  obtain ⟨hfound, hsuffix, hcolon⟩ := hall tier htier hform hassoc k hk
  rcases hlookup : Rules.operatorTable.lookup k with _ | ⟨tier', q⟩
  · rw [hlookup] at hfound
    cases hfound
  · rw [hlookup, Option.any_some] at hfound
    simp only [Bool.and_eq_true, beq_iff_eq, decide_eq_true_eq] at hfound
    exact ⟨⟨tier', q, rfl, hfound.1.1, hfound.1.2, hfound.2⟩, hsuffix, hcolon⟩

/-- The rules that are called for a name in an expression, from the outside in, each with the alternative that
calls the next. -/
def nest : List (Rule × Nat) :=
  [(.ownedExpression, 3), (.primaryExpression, 5), (.featureReferenceExpression, 0), (.qualifiedName, 0)]

/-- In front of a name no other alternative is viable, whatever may follow. -/
theorem viable_nest {r : Rule} {i : Nat} (h : (r, i) ∈ nest) (follow : KindSet) :
    (kerml.choices r).filter (fun j => Resolver.viable kerml .ident follow (Resolver.elements kerml r j)) =
      [i] := by
  have hall : ∀ p ∈ nest, (kerml.choices p.1).filter (fun j =>
      (kerml.firstOfRow (Resolver.elements kerml p.1 j)).contains .ident) = [p.2] ∧
        ∀ j ∈ kerml.choices p.1, kerml.rowNullable (Resolver.elements kerml p.1 j) = false := by
    decide +kernel
  obtain ⟨hfirst, hnullable⟩ := hall (r, i) h
  rw [← hfirst]
  refine List.filter_congr fun j hj => ?_
  rw [Resolver.viable, hnullable j hj, Bool.false_and, Bool.or_false]

end Chains

/-! ### Flat sessions -/

theorem Stream.length_ahead_le_size (s : Stream) (pos : Nat) : (s.ahead pos).length ≤ s.size := by
  have hstretch : (s.stretch pos s.size).length ≤ s.size := by
    rw [stretch, List.length_take]
    exact Nat.le_trans (Nat.min_le_left _ _) (Nat.sub_le _ _)
  rw [ahead, kindsOf, List.length_map]
  exact Nat.le_trans (List.length_filter_le _ _) hstretch

namespace Resolver

variable {g : Grammar} {s : Stream} {z : Resolver} {pos i : Nat} {follow : KindSet} {c : Bool}

/-- One viable alternative is taken without a trial. -/
theorem decide_viable (hz : z.cache = []) {r : Rule} {candidates : List Nat}
    (h : candidates.filter (fun j => viable g (s.lookahead pos c) follow (elements g r j)) = [i]) :
    (z.decide g s pos r candidates follow c).1 = .ok i ∧
      (z.decide g s pos r candidates follow c).2.cache = [] := by
  unfold decide
  split
  · rename_i only
    have honly : i ∈ [only] := List.mem_of_mem_filter (h ▸ List.mem_singleton_self i)
    exact ⟨by rw [List.mem_singleton.1 honly], hz⟩
  · dsimp only
    rw [known?_of_nil hz]
    dsimp only
    rw [h]
    exact ⟨rfl, hz⟩

/-- What cannot begin here is not entered, and without a trial. -/
theorem enter_absent {e : Element} (h : (g.firstOf e).contains (s.lookahead pos c) = false) :
    z.enter g s pos e follow c = (.ok false, z) := by
  unfold enter
  dsimp only
  rw [h]
  rfl

end Resolver

/-- How deep an event went: so many rules were open when one was opened. -/
def Event.depth : Event → Nat
  | .opened d => d
  | _ => 0

namespace Setup

open Session Chains

variable (u : Setup)

/-- The session in front of `w`: nothing was reported, nothing was tried, and at no time were more than
sixteen rules open. -/
structure Flat (w : List Kind) (x : Session) : Prop where
  inside : x.pos ≤ u.stream.size
  ahead : u.stream.ahead x.pos = w
  errors : x.errors = []
  cache : x.resolver.cache = []
  shallow : ∀ e ∈ x.journal, e.depth ≤ 16

variable {u} {w : List Kind} {k : Kind} {x : Session}

namespace Flat

theorem noted (h : u.Flat w x) {e : Event} (he : e.depth ≤ 16) : u.Flat w (x.noted e) :=
  ⟨h.inside, h.ahead, h.errors, h.cache, List.forall_mem_cons.2 ⟨he, h.shallow⟩⟩

theorem checked (h : u.Flat w x) : u.Flat w x.checked :=
  ⟨h.inside, h.ahead, h.errors, h.cache, h.shallow⟩

theorem called (h : u.Flat w x) (r : Rule) (scope : Scope) : u.Flat w (x.called r scope) :=
  (h.noted (show (Event.called r scope.follow).depth ≤ 16 from Nat.zero_le 16)).checked

theorem asked (h : u.Flat w x) {z : Resolver} (hz : z.cache = []) : u.Flat w (x.asked z) :=
  ⟨h.inside, h.ahead, h.errors, hz, h.shallow⟩

theorem kind (hu : u.Regular) (h : u.Flat w x) : u.stream.kind x.pos = nextKind w := by
  rw [Stream.kind_eq_nextKind hu.eof, h.ahead]

theorem not_atEnd (h : u.Flat (k :: w) x) : u.stream.atEnd x.pos = false := by
  rcases he : u.stream.atEnd x.pos with _ | _
  · rfl
  · exact nomatch h.ahead.symm.trans (Stream.ahead_of_atEnd he)

theorem operatedAt (h : u.Flat (k :: w) x) : u.Flat w (x.operatedAt (u.stream.settle x.pos)) := by
  have hnext := Stream.ahead_of_not_atEnd h.not_atEnd
  rw [h.ahead] at hnext
  exact ⟨u.stream.settle_lt_of_not_atEnd h.not_atEnd, (List.cons.inj hnext).2.symm, h.errors, h.cache,
    List.forall_mem_cons.2 ⟨Nat.zero_le 16, h.shallow⟩⟩

theorem matchedAt (h : u.Flat (k :: w) x) : u.Flat w (x.matchedAt (u.stream.settle x.pos)) := by
  have ho := h.operatedAt
  exact ⟨ho.inside, ho.ahead, ho.errors, ho.cache, ho.shallow⟩

end Flat

/-- What leaves the name in front of it alone: neither a longer name nor a suffix begins there. -/
structure Clear (w : List Kind) : Prop where
  segment : nextKind w ≠ .colonColon
  suffix : Rules.suffixTable.lookup (nextKind w) = none

theorem clear_links {ks : List Kind} (hks : ∀ k ∈ ks, Rules.operatorTable.LeftInfix k) : Clear (links ks) := by
  match ks, hks with
  | [], _ => exact ⟨by decide, by decide +kernel⟩
  | k :: ks, hks =>
    obtain ⟨-, hsuffix, hcolon⟩ := lookup_of_leftInfix (hks k List.mem_cons_self)
    exact ⟨hcolon, hsuffix⟩

section

variable (hu : u.Regular) (hg : u.grammar = kerml) {n level : Nat} {scope : Scope} {b : Builder}
include hu hg

/-- In front of a name the one alternative that is viable is chosen. -/
theorem decide_nest {r : Rule} {i : Nat} (hr : (r, i) ∈ nest) (hs : scope.rule = r) (hc : scope.comments = false)
    (h : u.Flat (.ident :: w) x) : ∃ y, u.decide scope x = .ok (.ok i) y ∧ u.Flat (.ident :: w) y := by
  have hlook : u.stream.lookahead x.pos scope.comments = .ident := by
    rw [hc]
    exact h.kind hu
  have hviable := viable_nest hr scope.follow
  rw [← hlook] at hviable
  obtain ⟨hchoice, hcache⟩ := Resolver.decide_viable h.cache hviable
  refine ⟨_, (decide_eq scope x).trans ?_, h.asked hcache⟩
  dsimp only
  rw [hg, hs, hchoice]

theorem ends_nest {call : Call} {r : Rule} {i : Nat} (hr : (r, i) ∈ nest) (hs : scope.rule = r)
    (hc : scope.comments = false) (h : u.Flat (.ident :: w) x) {post : Session → Prop}
    (hrow : ∀ y, u.Flat (.ident :: w) y →
      u.Ends (u.row call (Resolver.elements kerml r i) scope b) y fun _ z => post z) :
    u.Ends (u.body call scope b) x fun _ z => post z := by
  have hasked : u.Flat (.ident :: w) (x.noted (.asked scope.rule scope.follow)) := h.noted (Nat.zero_le 16)
  obtain ⟨y, hy, hflat⟩ := decide_nest hu hg hr hs hc hasked
  unfold body
  rw [ends_bind, ends_note, ends_bind, ends_ok hy]
  dsimp only
  rw [hg, hs]
  exact hrow y hflat

omit hu in
/-- A rule without operators is read by its body, one deeper. -/
theorem ends_plain {r : Rule} (ht : kerml.table? r = none) (hi : (kerml.definition r).inline = false)
    (hd : (kerml.definition r).comments = false) (hn : u.settings.maxDepth - n ≤ 16) (h : u.Flat w x)
    (hc : scope.comments = false) {post : Session → Prop}
    (hbody : ∀ inner y, inner.rule = r → inner.comments = false → u.Flat w y →
      u.Ends (u.body (u.call n) inner (.start r)) y fun _ z => post z) :
    u.Ends (u.call (n + 1) r level scope b) x fun _ z => post z := by
  have hopened : u.Flat w ((x.called r scope).noted (.opened (u.settings.maxDepth - n))) :=
    (h.called r scope).noted hn
  unfold call
  rw [ends_bind, ends_note, ends_bind]
  refine ends_checkCancelled _ ?_
  rw [ends_bind, ends_note, hg, ht]
  dsimp only
  rw [hi]
  simp only [Bool.false_eq_true, if_false, ends_bind, ends_pure]
  exact hbody _ _ rfl (by simp [hc, hd]) hopened

omit hg in
/-- The word that is wanted is there. -/
theorem expect_ident (h : u.Flat (.ident :: w) x) :
    ∃ c y, u.expect scope (.single .ident) b x = .ok c y ∧ u.Flat w y := by
  have hstands : u.stream.stands x.pos (.single .ident) = true := by
    rw [Stream.stands, h.kind hu, nextKind_cons]
    decide
  rw [expect_eq hu, if_neg (by decide), if_pos hstands]
  exact ⟨_, _, rfl, h.matchedAt⟩

/-- A list whose item cannot begin here is over. -/
theorem ends_absent {e : Element} {item : Scope → Builder → Action Builder} {rounds : Nat} (h : u.Flat w x)
    (hc : scope.comments = false) (hfirst : (kerml.firstOf e).contains (nextKind w) = false) :
    u.Ends (u.items item e false scope (rounds + 1) 0 b) x fun _ y => u.Flat w y := by
  have hlook : (u.grammar.firstOf e).contains (u.stream.lookahead x.checked.pos scope.comments) = false := by
    rw [hc, hg]
    exact (congrArg _ (h.checked.kind hu)).trans hfirst
  have henter : u.enterItem scope e 0 x.checked = .ok false (x.checked.asked x.checked.resolver) := by
    rw [enterItem, if_neg (Nat.lt_irrefl 0), enter_eq, Resolver.enter_absent hlook]
  unfold items
  rw [ends_bind]
  refine ends_checkCancelled _ ?_
  rw [ends_bind, ends_get, ends_bind, ends_ok henter]
  simp only [Bool.false_eq_true, if_false, ends_bind, ends_lookahead, leaves, Bool.not_false, Bool.true_or,
    if_true, ends_pure]
  exact h.checked.asked h.cache

/-- The one word of a name. -/
theorem ends_qualifiedName (hn : u.settings.maxDepth - n ≤ 16) (hc : scope.comments = false) (hw : Clear w)
    (h : u.Flat (.ident :: w) x) :
    u.Ends (u.call (n + 1) .qualifiedName level scope b) x fun _ y => u.Flat w y := by
  refine ends_plain hg rfl rfl rfl hn h hc fun inner y hr hci hy => ?_
  refine ends_nest hu hg (by decide : (Rule.qualifiedName, 0) ∈ nest) hr hci hy fun z hz => ?_
  show u.Ends (u.row _ [.labeled "segments" true (.token .ident),
    .repeated (.seq [.token .colonColon, .labeled "segments" true (.token .ident)]) 0 false] inner _) z _
  simp only [row, element, ends_bind, ends_pure]
  obtain ⟨c, y', he, hy'⟩ := expect_ident hu hz
  rw [ends_ok he]
  refine ends_absent hu hg hy' hci ?_
  have hfirst : ∀ k, k ≠ .colonColon → (kerml.firstOf
      (.seq [.token .colonColon, .labeled "segments" true (.token .ident)])).contains k = false := by
    intro k hk
    show (KindSet.single .colonColon).contains k = false
    rw [KindSet.contains_single]
    exact decide_eq_false (Ne.symm hk)
  exact hfirst _ hw.segment

/-- A name by itself is a reference. -/
theorem ends_reference (hn : u.settings.maxDepth - n ≤ 16) (hc : scope.comments = false) (hw : Clear w)
    (h : u.Flat (.ident :: w) x) :
    u.Ends (u.call (n + 2) .featureReferenceExpression level scope b) x fun _ y => u.Flat w y := by
  refine ends_plain hg rfl rfl rfl (by omega) h hc fun inner y hr hci hy => ?_
  refine ends_nest hu hg (by decide : (Rule.featureReferenceExpression, 0) ∈ nest) hr hci hy fun z hz => ?_
  show u.Ends (u.row _ [.labeled "reference" false (.rule .qualifiedName)] inner _) z _
  simp only [row, element, ends_bind, ends_pure]
  exact ends_qualifiedName hu hg hn hci hw hz

omit hu in
/-- A rule with operators is read one deeper, an operand first. -/
theorem ends_climbed {r : Rule} {table : Table} (ht : kerml.table? r = some table)
    (hn : u.settings.maxDepth - n ≤ 16) (h : u.Flat w x) (hc : scope.comments = false) {v : List Kind}
    {post : Session → Prop}
    (hoperand : ∀ inner y, inner.rule = r → inner.comments = false → u.Flat w y →
      u.Ends (u.body (u.call n) inner (.start r)) y fun _ z => u.Flat v z)
    (hoperations : ∀ inner left y, inner.rule = r → inner.comments = false → u.Flat v y →
      u.Ends (u.operations (u.call n) table level inner (u.stream.size + 1) left) y fun _ z => post z) :
    u.Ends (u.call (n + 1) r level scope b) x fun _ z => post z := by
  have hopened : u.Flat w ((x.called r scope).noted (.opened (u.settings.maxDepth - n))) :=
    (h.called r scope).noted hn
  unfold call
  rw [ends_bind, ends_note, ends_bind]
  refine ends_checkCancelled _ ?_
  rw [ends_bind, ends_note, hg, ht]
  simp only [climb, operand, ends_bind, ends_pure]
  refine (hoperand (operandScope r table scope) _ rfl hc hopened).imp fun c y _ hy => ?_
  exact hoperations (operandScope r table scope) _ y rfl hc hy

/-- A reference without a suffix is a primary expression. -/
theorem ends_primary (hn : u.settings.maxDepth - n ≤ 16) (hc : scope.comments = false) (hw : Clear w)
    (h : u.Flat (.ident :: w) x) :
    u.Ends (u.call (n + 3) .primaryExpression level scope b) x fun _ y => u.Flat w y := by
  have hdeep : u.settings.maxDepth - (n + 2) ≤ 16 := by omega
  refine ends_climbed hg (rfl : kerml.table? .primaryExpression = some Rules.suffixTable) hdeep h hc
    (v := w) (fun inner y hr hci hy => ?_) fun inner left y hr hci hy => ?_
  · refine ends_nest hu hg (by decide : (Rule.primaryExpression, 5) ∈ nest) hr hci hy fun z hz => ?_
    show u.Ends (u.row _ [.rule .featureReferenceExpression] inner _) z _
    simp only [row, element, ends_bind, ends_pure]
    exact ends_reference hu hg hn hci hw hz
  · unfold operations
    rw [ends_bind, ends_kind, hy.kind hu, hw.suffix]
    exact hy

/-- An operand is a primary expression. -/
theorem ends_operand (hn : u.settings.maxDepth - n ≤ 16) (hr : scope.rule = .ownedExpression)
    (hc : scope.comments = false) (hw : Clear w) (h : u.Flat (.ident :: w) x) :
    u.Ends (u.body (u.call (n + 3)) scope (.start .ownedExpression)) x fun _ y => u.Flat w y := by
  refine ends_nest hu hg (by decide : (Rule.ownedExpression, 3) ∈ nest) hr hc h fun z hz => ?_
  show u.Ends (u.row _ [.rule .primaryExpression] scope _) z _
  simp only [row, element, ends_bind, ends_pure]
  exact ends_primary hu hg hn hc hw hz

end

/-! ### Operators -/

/-- In front of operators that bind too loosely for the level. -/
def StopsBelow (level : Nat) (ks : List Kind) : Prop :=
  ∀ k ∈ ks.head?, ∀ tier q, Rules.operatorTable.lookup k = some (tier, q) → tier.level < level

variable (u)

/-- The session has left the operators `ks`, or some of the last of them, that are too loose for the level. -/
def Left (level : Nat) (ks : List Kind) (y : Session) : Prop :=
  ∃ ks', ks' <:+ ks ∧ u.Flat (links ks') y ∧ StopsBelow level ks'

/-- There is room for the rules of one more operand, in an expression of this level. -/
structure Roomy (n level : Nat) : Prop where
  enough : 16 ≤ u.settings.maxDepth
  bound : level ≤ 12
  depth : u.settings.maxDepth ≤ n + level

/-- The loop over the operators `ks` stays flat. -/
def LoopsFlat (ks : List Kind) : Prop :=
  ∀ (n level : Nat) (scope : Scope) (rounds : Nat) (left : Node) (x : Session), scope.rule = .ownedExpression →
    scope.comments = false → u.Roomy (n + 1) level → ks.length < rounds → u.Flat (links ks) x →
    u.Ends (u.operations (u.call n) Rules.operatorTable level scope rounds left) x fun _ y => u.Left level ks y

/-- An expression with the operators `ks` behind its first operand stays flat. -/
def ReadsFlat (ks : List Kind) : Prop :=
  ∀ (n level : Nat) (scope : Scope) (b : Builder) (x : Session), scope.comments = false → u.Roomy n level →
    u.Flat (.ident :: links ks) x →
    u.Ends (u.call n .ownedExpression level scope b) x fun _ y => u.Left level ks y

variable {u} (hu : u.Regular) (hg : u.grammar = kerml) {ks : List Kind}
  (hks : ∀ k ∈ ks, Rules.operatorTable.LeftInfix k)
include hu hg hks

theorem readsFlat_of_loopsFlat (hloop : u.LoopsFlat ks) : u.ReadsFlat ks := by
  intro n level scope b x hc hroom h
  obtain ⟨henough, hbound, hdepth⟩ := hroom
  -- the expression, the primary expression, the reference and the name
  obtain ⟨j, rfl⟩ : ∃ j, n = j + 4 := ⟨n - 4, by omega⟩
  refine ends_climbed hg (rfl : kerml.table? .ownedExpression = some Rules.operatorTable) (by omega) h hc
    (v := links ks) (fun inner y hr hci hy => ?_) fun inner left y hr hci hy => ?_
  · exact ends_operand hu hg (by omega) hr hci (clear_links hks) hy
  · have hlength : ks.length < u.stream.size + 1 := by
      have hle := u.stream.length_ahead_le_size y.pos
      rw [hy.ahead, length_links] at hle
      omega
    exact hloop (j + 3) level inner _ left y hr hci ⟨henough, hbound, hdepth⟩ hlength hy

theorem loopsFlat : u.LoopsFlat ks := by
  induction hm : ks.length using Nat.strong_induction_on generalizing ks with
  | _ m ih =>
    subst hm
    intro n level scope rounds left x hr hc hroom hrounds h
    obtain ⟨rounds, rfl⟩ := Nat.exists_eq_succ_of_ne_zero (Nat.ne_zero_of_lt hrounds)
    unfold operations
    rw [ends_bind, ends_kind, h.kind hu]
    cases ks with
    | nil =>
      have hnone : Rules.operatorTable.lookup .eof = none := by decide +kernel
      rw [links, List.flatMap_nil, nextKind_nil, hnone]
      exact ⟨[], List.suffix_refl [], h, fun k hk => absurd hk (Option.not_mem_none k)⟩
    | cons k ks =>
      obtain ⟨⟨tier, q, hlookup, hform, hright, hlevel⟩, -, -⟩ := lookup_of_leftInfix (hks k List.mem_cons_self)
      have hks' : ∀ k ∈ ks, Rules.operatorTable.LeftInfix k := fun j hj => hks j (List.mem_cons_of_mem k hj)
      have hk : u.Flat (k :: .ident :: links ks) x := h
      rw [show nextKind (links (k :: ks)) = k from rfl, hlookup]
      dsimp only
      split
      · rename_i hloose
        refine ⟨k :: ks, List.suffix_refl _, h, fun j hj tier' q' hl => ?_⟩
        rw [← Option.mem_some.1 hj, hlookup] at hl
        cases hl
        exact hloose
      · rename_i htight
        obtain ⟨henough, hbound, hdepth⟩ := hroom
        rw [ends_bind]
        refine ends_checkCancelled x ?_
        rw [ends_bind]
        refine (ends_operation_binary (x := x.checked) hform q scope left hk.not_atEnd _).2 ?_
        have hreads := readsFlat_of_loopsFlat hu hg hks' (ih ks.length (Nat.lt_succ_self _) hks' rfl)
        rw [hr, hright]
        -- the right operand is read at a level above this one, so it may go one deeper
        have hroom' : u.Roomy n (tier.level + 1) := ⟨henough, by omega, by omega⟩
        refine (hreads n _ scope _ _ hc hroom' hk.checked.operatedAt).imp fun c y _ hy => ?_
        obtain ⟨ks', hsuffix, hflat, -⟩ := hy
        have hlength := hsuffix.length_le
        rw [List.length_cons] at hrounds
        have hrest := ih ks'.length (Nat.lt_succ_of_le hlength) (fun j hj => hks' j (hsuffix.subset hj)) rfl n level
          scope rounds (c.label "right" false (Builder.operator q left (u.stream.current x.pos)).size false none).finish
          y hr hc ⟨henough, hbound, hdepth⟩ (by omega) hflat
        refine hrest.imp fun _ z _ hz => ?_
        obtain ⟨ks'', hsuffix', hz⟩ := hz
        exact ⟨ks'', (hsuffix'.trans hsuffix).trans (List.suffix_cons k ks), hz⟩

/-- The whole of a chain is read, and stays flat. -/
theorem ends_root_flat (henough : 16 ≤ u.settings.maxDepth) (hahead : u.stream.ahead 0 = .ident :: links ks) :
    u.Ends (u.root .ownedExpression) (.start u.settings) fun _ y => u.Flat [] y := by
  have hreads := readsFlat_of_loopsFlat hu hg hks (loopsFlat hu hg hks)
  have hstart : u.Flat (.ident :: links ks) (.start u.settings) := ⟨Nat.zero_le _, hahead, rfl, rfl, nofun⟩
  unfold root
  rw [ends_bind]
  refine (hreads _ 0 (u.rootScope .ownedExpression) _ _ rfl ⟨henough, Nat.zero_le 12, Nat.le_refl _⟩ hstart).imp
    fun b y _ hy => ?_
  obtain ⟨ks', hsuffix, hflat, hstop⟩ := hy
  have hnil : ks' = [] := by
    match ks', hsuffix, hstop with
    | [], _, _ => rfl
    | k :: ks', hsuffix, hstop =>
      obtain ⟨⟨tier, q, hlookup, -⟩, -⟩ := lookup_of_leftInfix (hks k (hsuffix.subset List.mem_cons_self))
      exact absurd (hstop k rfl tier q hlookup) (Nat.not_lt_zero _)
  subst hnil
  have hend : u.stream.atEnd y.pos = true := Stream.atEnd_iff_ahead.2 hflat.ahead
  rw [ends_bind, ends_ok ((expectEnd_eq _ _ _ y).trans (if_pos hend))]
  exact hflat

end Setup

/-- A chain of operands with left-associative operators between them is read without an error, and sixteen rules
are open at one time at most, however long the chain is. -/
theorem parseTokens_flat {ts : List Token} {settings : Settings} {ks : List Kind}
    (hts : kindsOf ts = .ident :: ks.flatMap fun k => [k, .ident])
    (hks : ∀ k ∈ ks, Rules.operatorTable.LeftInfix k) (hdepth : 16 ≤ settings.maxDepth)
    (hc : settings.cancel = none) :
    ∃ p, (parseTokens .ownedExpression ts settings).1 = .ok p ∧ p.ok = true ∧
      ∀ d, Event.opened d ∈ ((Setup.ofTokens ts settings).last .ownedExpression).journal → d ≤ 16 := by
  have hflat := Setup.ends_root_flat (regular_ofTokens ts settings) rfl hks hdepth
    ((Stream.ahead_ofTokens ts).trans hts)
  rcases hrun : (Setup.ofTokens ts settings).run .ownedExpression with ⟨n, x⟩ | ⟨f, x⟩
  · have hx := (Setup.ends_ok hrun).1 hflat
    have hlast : (Setup.ofTokens ts settings).last .ownedExpression = x := by
      rw [Setup.last, hrun]
    refine ⟨⟨n, x.errors⟩, by rw [parseTokens_of_ok hrun], Parse.ok_eq_true.2 hx.errors, fun d hd => ?_⟩
    rw [hlast] at hd
    exact hx.shallow _ hd
  · rw [Setup.run] at hrun
    unfold Setup.Ends at hflat
    rw [hrun] at hflat
    exact absurd hc hflat.2

/-- Operators of three tiers in no order, with the least number of rules that is enough for every chain. -/
theorem parseTokens_flat_mixed :
    ∃ p, (parseTokens .ownedExpression (scan "a + b * c ?? d * e") (Settings.standard.withMaxDepth 16)).1 = .ok p ∧
      p.ok = true ∧ ∀ d, Event.opened d ∈ ((Setup.ofTokens (scan "a + b * c ?? d * e")
        (Settings.standard.withMaxDepth 16)).last .ownedExpression).journal → d ≤ 16 := by
  have hts : kindsOf (scan "a + b * c ?? d * e") =
      .ident :: [Kind.plus, .star, .questionQuestion, .star].flatMap fun k => [k, .ident] := by
    decide +kernel
  exact parseTokens_flat hts (by decide +kernel) (by decide) rfl

end KermlText
