import KermlText.Proofs.Derivation
import KermlText.Proofs.Marks

/-! What is accepted is derivable. A run that ends without an error has never reported one, so each of
its steps took what the grammar asks for, and the steps put together are a derivation. The same holds of
each node by itself. The node of an operator is no instance of its own rule: it is one more round of the
left-recursive rule that the operator belongs to. -/

namespace KermlText

/-- The element gives no child the name of an operand, and wants the end of input only by its name. -/
def Element.plain : Element → Bool
  | .labeled name _ _ => name != "left"
  | .relation k _ => k != .eof
  | .oneOf ks => ks != Setup.endKinds
  | _ => true

namespace Grammar

/-- Whether the derivations of the grammar can be read off the parser's steps. -/
structure Readable (g : Grammar) : Prop where
  plain : ∀ r, ∀ a ∈ g.alternatives r, rowAll Element.plain a.elements = true
  tables : ∀ r t, g.table? r = some t → t.rule = r ∧ ∀ a ∈ t.alternatives, a ∈ g.alternatives r
  error : g.alternatives .error = []
  operators : ∀ r t, g.table? r = some t → ∀ k tier, t.lookup k ≠ some (tier, .error)

/-- What the tokens of a node are derived from: its rule, or, for the node of an operator, the rule that
the operator belongs to. -/
def Accounts (g : Grammar) (n : Node) : Prop :=
  if n.hasField "left" then
    ∃ r table t tier, g.table? r = some table ∧ n.field? "operator" = some (.token t) ∧
      table.lookup t.kind = some (tier, n.rule) ∧ g.Derives (.rule r) n.tokens
  else g.Derives (.rule n.rule) n.tokens

/-- Nodes of skipped tokens are not accounted for. -/
theorem Accounts.rule_ne {g : Grammar} (hg : g.Readable) {n : Node} (h : g.Accounts n) :
    n.rule ≠ .error := by
  intro he
  unfold Accounts at h
  split at h
  · obtain ⟨r, table, t, tier, ht, -, hl, -⟩ := h
    exact hg.operators r table ht t.kind tier (he ▸ hl)
  · rw [he] at h
    cases h with
    | rule ha _ => simp [hg.error] at ha

end Grammar

/-- The parser wants of the task what the grammar says. -/
def Task.Plain (g : Grammar) : Task → Prop
  | .element e _ | .items e _ _ _ => e.all Element.plain = true
  | .row es _ => rowAll Element.plain es = true
  | .operators table _ scope left => g.table? scope.rule = some table ∧
      g.Derives (.rule scope.rule) left.tokens ∧ ∀ n ∈ left.descendants, g.Accounts n
  | .body _ | .call _ _ _ => True

theorem readable_kerml : kerml.Readable := by
  have h : (Rule.all.all fun r => ((kerml.alternatives r).all fun a =>
      rowAll Element.plain a.elements) && (kerml.table? r).all fun t => t.tiers.all fun tier =>
        tier.operators.all fun o => o.2 != .error) = true := by decide +kernel
  simp only [List.all_eq_true, Bool.and_eq_true] at h
  refine ⟨fun r => (h r (Rule.mem_all r)).1, fun r t => Grammar.table?_build, ?_, ?_⟩
  · have he : (kerml.alternatives .error).isEmpty = true := by decide +kernel
    simpa using he
  · intro r t ht k tier hl
    obtain ⟨h1, h2⟩ := Table.mem_tiers_of_lookup hl
    have hr := (h r (Rule.mem_all r)).2
    rw [ht, Option.all_some] at hr
    simp only [List.all_eq_true, bne_iff_ne] at hr
    exact hr tier h1 _ h2 rfl

/-! ### Fields -/

namespace Builder

theorem lookup_map_extend (fields : Fields) (name : String) (is : List Nat) (other : String) :
    (fields.map fun f => if f.1 == name then (f.1, extend is f.2) else f).lookup other =
      (fields.lookup other).map fun slot => if other = name then extend is slot else slot := by
  induction fields with
  | nil => rfl
  | cons f fields ih =>
    rcases f with ⟨key, slot⟩
    rw [List.map_cons, List.lookup_cons, List.lookup_cons]
    have h1 : (if key == name then (key, extend is slot) else (key, slot)).1 = key := by split <;> rfl
    rw [h1]
    rcases hk : other == key with _ | _
    · exact ih
    · rw [beq_iff_eq] at hk
      subst hk
      by_cases hn : other = name <;> simp [hn]

/-- A label fills a field of its name that was not there, or makes a list longer. -/
theorem label_fields (b : Builder) (name : String) (many : Bool) (start : Nat) (tokens : Bool)
    (relation : Option Relation) :
    (b.label name many start tokens relation).fields = b.fields ∨
      (∃ slot, (b.label name many start tokens relation).fields = b.fields ++ [(name, slot)]) ∨
      ∃ is, (b.label name many start tokens relation).fields =
        b.fields.map fun f => if f.1 == name then (f.1, extend is f.2) else f := by
  unfold label fill
  dsimp only
  split
  · split
    · exact .inr (.inr ⟨_, rfl⟩)
    · exact .inr (.inl ⟨_, rfl⟩)
  · split
    · exact .inl rfl
    · split
      · exact .inl rfl
      · split <;> exact .inr (.inl ⟨_, rfl⟩)

variable {b : Builder} {other : String}

/-- A label leaves the fields of other names alone. -/
theorem lookup_label_of_ne {name : String} (h : other ≠ name) (many : Bool) (start : Nat)
    (tokens : Bool) (relation : Option Relation) :
    (b.label name many start tokens relation).fields.lookup other = b.fields.lookup other := by
  rcases b.label_fields name many start tokens relation with he | ⟨slot, he⟩ | ⟨is, he⟩
  · rw [he]
  · simp [he, List.lookup_append, List.lookup_cons, beq_eq_false_iff_ne.2 h]
  · rw [he, lookup_map_extend]
    simp [h]

/-- A label does not change where a single field points. -/
theorem lookup_label_one {i : Nat} (h : b.fields.lookup other = some (.one i)) (name : String)
    (many : Bool) (start : Nat) (tokens : Bool) (relation : Option Relation) :
    (b.label name many start tokens relation).fields.lookup other = some (.one i) := by
  rcases b.label_fields name many start tokens relation with he | ⟨slot, he⟩ | ⟨is, he⟩
  · rw [he, h]
  · simp [he, List.lookup_append, h]
  · rw [he, lookup_map_extend, h]
    simp [extend]

/-- The fields of an operator's node point at the operand and the operator. -/
theorem operator_fields (r : Rule) {left : Node} (h : left.rule ≠ .error) (t : Token) :
    (operator r left t).fields = [("left", .one 0), ("operator", .one 1)] := by
  have h1 : ((start r).pushLabeledNode "left" left).fields = [("left", .one 0)] ∧
      ((start r).pushLabeledNode "left" left).children = [.node left] := by
    simp [pushLabeledNode, label, caught, catches, fill, start, pushNode, push, size, h]
  rw [operator, pushLabeledToken, label]
  simp [caught, catches, fill, pushToken, push, size, h1]

@[simp] theorem operator_children (r : Rule) (left : Node) (t : Token) :
    (operator r left t).children = [.node left, .token t] := by
  simp [operator, pushLabeledNode, pushLabeledToken, start, pushNode, pushToken, push]

@[simp] theorem operator_rule (r : Rule) (left : Node) (t : Token) :
    (operator r left t).rule = r := by
  simp [operator, pushLabeledNode, pushLabeledToken, start, pushNode, pushToken, push]

end Builder

namespace Setup

variable {u : Setup}

/-! ### Steps that read -/

/-- Between the two sessions the node in the making got children with the tokens that were passed, and
these satisfy `p`. All nodes among them are accounted for. -/
structure Reads (u : Setup) (x : Session) (b : Builder) (x' : Session) (b' : Builder)
    (p : List Token → Prop) : Prop where
  rule : b'.rule = b.rule
  children : ∃ cs, b'.children = b.children ++ cs ∧
    u.stream.Kept x.pos (Node.tokensOf cs) x'.pos ∧ p (Node.tokensOf cs) ∧
    ∀ n ∈ Node.descendantsOf cs, u.grammar.Accounts n
  single : ∀ name i, b.fields.lookup name = some (.one i) → b'.fields.lookup name = some (.one i)
  operand : b.fields.lookup "left" = none → b'.fields.lookup "left" = none

namespace Reads

variable {x y x' : Session} {b c b' : Builder} {p q r : List Token → Prop}

theorem refl (hx : x.pos ≤ u.stream.size) (hp : p []) (he : x'.pos = x.pos) :
    u.Reads x b x' b p :=
  ⟨rfl, ⟨[], by simp, by simpa [he, Node.tokensOf] using Stream.Kept.refl hx, hp,
    by simp [Node.descendantsOf]⟩, fun _ _ h => h, id⟩

theorem trans (h1 : u.Reads x b y c p) (h2 : u.Reads y c x' b' q)
    (hr : ∀ ts us, p ts → q us → r (ts ++ us)) : u.Reads x b x' b' r := by
  obtain ⟨cs, hc, hk, hp, ha⟩ := h1.children
  obtain ⟨ds, hd, hk', hq, ha'⟩ := h2.children
  refine ⟨h2.rule.trans h1.rule, ⟨cs ++ ds, by rw [hd, hc, List.append_assoc], ?_, ?_, ?_⟩,
    fun name i h => h2.single name i (h1.single name i h), fun h => h2.operand (h1.operand h)⟩
  · rw [Node.tokensOf_append]
    exact hk.trans hk'
  · rw [Node.tokensOf_append]
    exact hr _ _ hp hq
  · intro n hn
    rw [Node.descendantsOf_append, List.mem_append] at hn
    exact hn.elim (ha n) (ha' n)

theorem imp (h : u.Reads x b x' b' p) (hq : ∀ ts, p ts → q ts) : u.Reads x b x' b' q := by
  obtain ⟨cs, hc, hk, hp, ha⟩ := h.children
  exact ⟨h.rule, ⟨cs, hc, hk, hq _ hp, ha⟩, h.single, h.operand⟩

/-- Only the place of the first session counts. -/
theorem from_eq (h : u.Reads y b x' b' p) (he : y.pos = x.pos) : u.Reads x b x' b' p := by
  obtain ⟨cs, hc, hk, hp, ha⟩ := h.children
  exact ⟨h.rule, ⟨cs, hc, he ▸ hk, hp, ha⟩, h.single, h.operand⟩

theorem pushToken {t : Token} (hk : u.stream.Kept x.pos [t] x'.pos) (hp : p [t]) :
    u.Reads x b x' (b.pushToken t) p :=
  ⟨rfl, ⟨[.token t], rfl, by simpa [Node.tokensOf] using hk, by simpa [Node.tokensOf] using hp,
    by simp [Node.descendantsOf]⟩, fun _ _ h => h, id⟩

theorem pushNode {m : Node} (hk : u.stream.Kept x.pos m.tokens x'.pos) (hp : p m.tokens)
    (ha : ∀ n ∈ m.descendants, u.grammar.Accounts n) : u.Reads x b x' (b.pushNode m) p :=
  ⟨rfl, ⟨[.node m], rfl, by simpa [Node.tokensOf] using hk, by simpa [Node.tokensOf] using hp,
    by simpa [Node.descendantsOf] using ha⟩, fun _ _ h => h, id⟩

theorem label (h : u.Reads x b x' b' p) {name : String} (hn : name ≠ "left") (many : Bool)
    (start : Nat) (tokens : Bool) (relation : Option Relation) :
    u.Reads x b x' (b'.label name many start tokens relation) p := by
  refine ⟨by simpa using h.rule, by simpa using h.children,
    fun name' i hi => Builder.lookup_label_one (h.single name' i hi) _ _ _ _ _, fun hl => ?_⟩
  rw [Builder.lookup_label_of_ne (Ne.symm hn)]
  exact h.operand hl

/-- The tokens of a node that was started here. -/
theorem start {q : Rule} (h : u.Reads x (.start q) x' b' p) :
    u.stream.Kept x.pos b'.tokens x'.pos ∧ p b'.tokens ∧
      ∀ n ∈ Node.descendantsOf b'.children, u.grammar.Accounts n := by
  obtain ⟨cs, hc, hk, hp, ha⟩ := h.children
  simp only [Builder.start, List.nil_append] at hc
  rw [Builder.tokens, hc]
  exact ⟨hk, hp, ha⟩

/-- A node that was started here is accounted for by its rule. -/
theorem finish {q : Rule} (h : u.Reads x (.start q) x' b' (u.grammar.Derives (.rule q))) :
    ∀ n ∈ b'.finish.descendants, u.grammar.Accounts n := by
  obtain ⟨-, hp, ha⟩ := h.start
  intro n hn
  rcases List.mem_cons.1 hn with hn | hn
  · have hn' : n = b'.finish := hn
    subst hn'
    have hl : b'.finish.hasField "left" = false := by
      simp [Node.hasField, Node.slot?, Builder.finish, Node.fields, h.operand rfl]
    have hr : b'.finish.rule = q := h.rule
    rw [Grammar.Accounts, hl, hr, Builder.tokens_finish]
    simpa using hp
  · exact ha n hn

end Reads

/-- Nothing was reported so far. -/
structure Calm (u : Setup) (x : Session) : Prop where
  fit : u.Fit x
  recovering : x.recovering = false
  reports : u.settings.Reports

namespace Calm

variable {x y : Session}

theorem next (h : u.Calm x) (ha : u.Advances x y) (he : y.errors = []) : u.Calm y := by
  refine ⟨ha.fit, Bool.eq_false_iff.2 fun hr => ?_, h.reports⟩
  rcases ha.recovers hr with hx | hy | hm
  · simp [h.recovering] at hx
  · exact hy he
  · exact h.reports hm

theorem noted (h : u.Calm x) (e : Event) : u.Calm (x.noted e) :=
  ⟨⟨h.fit.inside, h.fit.valid⟩, h.recovering, h.reports⟩

theorem checked (h : u.Calm x) : u.Calm x.checked :=
  ⟨⟨h.fit.inside, h.fit.valid⟩, h.recovering, h.reports⟩

theorem called (h : u.Calm x) (r : Rule) (scope : Scope) : u.Calm (x.called r scope) :=
  (h.noted _).checked

theorem alike (h : u.Calm x) (ha : u.Advances x y) (hy : x.Alike y) : u.Calm y :=
  ⟨ha.fit, hy.recovering.trans h.recovering, h.reports⟩

theorem operatedAt (h : u.Calm x) (he : u.stream.atEnd x.pos = false) :
    u.Calm (x.operatedAt (u.stream.settle x.pos)) :=
  ⟨((Advances.refl h.fit).operatedAt he).fit, h.recovering, h.reports⟩

theorem enter (h : u.Calm x) {scope : Scope} {e : Element} {d : Bool}
    (hd : u.enter scope e x = .ok d y) : u.Calm y :=
  h.alike ((Advances.refl h.fit).enter hd) (enter_alike hd)

theorem enterItem (h : u.Calm x) {scope : Scope} {e : Element} {need : Nat} {d : Bool}
    (hd : u.enterItem scope e need x = .ok d y) : u.Calm y :=
  h.alike ((Advances.refl h.fit).enterItem hd) (enterItem_alike hd)

theorem decide (h : u.Calm x) (hu : u.Regular) {scope : Scope} {d : Except Failure Nat}
    (hd : u.decide scope x = .ok d y) : u.Calm y :=
  h.alike ((Advances.refl h.fit).decide hu hd) (decide_alike hd)

/-- If nothing is reported up to the end, nothing is up to a place before it. -/
theorem behind (h : u.Calm x) (hu : u.Regular) {n : Nat} {task : Task} {z : Session} {b c : Builder}
    (h1 : u.Runs n task x b y c) (h2 : u.Fit y → u.Advances y z) (hz : z.errors = []) :
    u.Calm y ∧ y.errors = [] := by
  have ha := h1.advances hu h.fit
  have hy := (h2 ha.fit).errors_nil hz
  exact ⟨h.next ha hy, hy⟩

/-- There is an error behind a report. -/
theorem errors_ne_nil (h : u.Calm x) (code : Code) (r : Rule) (expected : KindSet) :
    (u.reported code r expected x).errors ≠ [] := by
  rcases (Advances.refl h.fit).recovering code r expected with hr | he | hm
  · simp [h.recovering] at hr
  · exact he
  · exact absurd hm h.reports

/-- There is an error behind a place where the parse had to recover. -/
theorem recover_ne_nil (h : u.Calm x) {code : Code} {r q : Rule} {expected : KindSet} {scope : Scope}
    {b b' : Builder} (hr : u.recover scope r b (u.reported code q expected x) = .ok b' y) :
    y.errors ≠ [] := by
  rw [recover_eq] at hr
  cases hr
  simpa using h.errors_ne_nil code q expected

/-- There is an error behind tokens that a list skipped. -/
theorem strayed_ne_nil (h : u.Calm x) (hu : u.Regular) {code : Code} {r : Rule}
    {expected context sync : KindSet} {k n : Nat} {e : Event} {task : Task} {b b' : Builder}
    (hr : u.Runs n task (((u.reported code r expected x).skippedOver context
      (u.stream.placesUpTo sync k x.pos)).noted e) b y b') : y.errors ≠ [] := by
  intro he
  have hw := (hr.advances hu (((Advances.refl h.fit).strayed _ _ _ _ _ _).noted _).fit).errors_nil he
  exact absurd hw (by simpa using h.errors_ne_nil code r expected)

/-- There is an error behind tokens that a list skipped because an item took none. -/
theorem freed_ne_nil (h : u.Calm x) (hu : u.Regular) {code : Code} {r : Rule} {expected context sync : KindSet}
    {k n m : Nat} {e : Event} {item task : Task} {z : Session} {b c d b' : Builder} (h1 : u.Runs n item x b y c)
    (h2 : u.Runs m task (((u.reported code r expected y).skippedOver context
      (u.stream.placesUpTo sync k y.pos)).noted e) d z b') : z.errors ≠ [] := by
  intro he
  obtain ⟨hy, -⟩ := h.behind hu h1
    (fun hf => h2.advances_from hu (((Advances.refl hf).strayed _ _ _ _ _ _).noted _)) he
  exact hy.strayed_ne_nil hu h2 he

end Calm

/-- A wanted token was there. -/
theorem expect_reads (hu : u.Regular) {scope : Scope} {set : KindSet} {b b' : Builder}
    {x x' : Session} (h : u.expect scope set b x = .ok b' x') (hx : u.Calm x)
    (he : x'.errors = []) {p : List Token → Prop} (hend : set = endKinds → p [])
    (hp : ∀ t, t.channel = .default → t.kind ≠ .eof → set.contains t.kind = true → p [t]) :
    u.Reads x b x' b' p := by
  rw [expect_eq hu] at h
  split at h
  · rename_i hs
    rw [expectEnd_eq] at h
    split at h
    · cases h
      exact .refl hx.fit.inside (hend hs) rfl
    · cases h
      simp [hx.errors_ne_nil] at he
  · split at h
    · rename_i hst
      cases h
      have hend := Stream.not_atEnd_of_stands hu.eof hst
      simp only [Stream.stands, Bool.and_eq_true, bne_iff_ne] at hst
      have hc := u.stream.channel_settle (u.stream.settle_lt_of_not_atEnd hend)
      exact .pushToken (.current hx.fit.inside hend) (hp _ hc hst.1 hst.2)
    · have hm : (u.missed scope set x).errors ≠ [] := by simp [missed, hx.errors_ne_nil]
      dsimp only at h
      split at h
      · cases h
        exact absurd he hm
      · cases h
        exact absurd he hm

theorem expectComment_reads {scope : Scope} {b b' : Builder} {x x' : Session}
    (h : u.expectComment scope b x = .ok b' x') (hx : u.Calm x) (he : x'.errors = []) :
    u.Reads x b x' b' (u.grammar.Derives .comment) := by
  rw [expectComment_eq] at h
  split at h
  · rename_i i hi
    cases h
    exact .pushToken (.comment hi) (.comment (u.stream.comment?_some hi).2.2)
  · cases h
    exact absurd he (hx.errors_ne_nil _ _ _)

/-! ### Runs that read -/

/-- What a task reads. Operators read on behind `left` and put what they read around it. -/
def TaskReads (u : Setup) (x : Session) (b : Builder) (x' : Session) (b' : Builder) : Task → Prop
  | .element e _ => u.Reads x b x' b' (u.grammar.Derives e)
  | .row es _ => u.Reads x b x' b' (u.grammar.Derives (.seq es))
  | .items e resync _ need => u.Reads x b x' b' (u.grammar.Derives (.repeated e need resync))
  | .body scope => u.Reads x b x' b' (u.grammar.Derives (.rule scope.rule))
  | .call r _ _ => u.Reads x b x' b' (u.grammar.Derives (.rule r))
  | .operators _ _ scope left => ∃ m ts, b' = b.pushNode m ∧ m.tokens = left.tokens ++ ts ∧
      u.stream.Kept x.pos ts x'.pos ∧ u.grammar.Derives (.rule scope.rule) m.tokens ∧
      ∀ n ∈ m.descendants, u.grammar.Accounts n

/-- Whatever stands behind an operator, its node keeps the operand and the operator. -/
theorem Reads.operands {q : Rule} {left : Node} {t : Token} {y x' : Session} {c : Builder}
    {p : List Token → Prop} (h : u.Reads y (.operator q left t) x' c p) (hleft : left.rule ≠ .error) :
    c.finish.rule = q ∧ c.finish.field? "left" = some (.node left) ∧
      c.finish.field? "operator" = some (.token t) := by
  obtain ⟨cs, hc, -⟩ := h.children
  have h1 := h.single "left" 0 (by simp [Builder.operator_fields q hleft t])
  have h2 := h.single "operator" 1 (by simp [Builder.operator_fields q hleft t, List.lookup_cons])
  refine ⟨h.rule.trans (Builder.operator_rule q left t), ?_, ?_⟩
  · simp [Node.field?, Node.slot?, Builder.finish, Node.fields, Node.children, h1, hc]
  · simp [Node.field?, Node.slot?, Builder.finish, Node.fields, Node.children, h2, hc]

/-- What stands behind an operator makes its node, which is accounted for by the rule of the operator. -/
theorem Reads.operation (hg : u.grammar.Readable) {r q : Rule} {table : Table} {tier : Tier}
    {left : Node} {t : Token} {y x' : Session} {c : Builder} {p : List Token → Prop}
    (h : u.Reads y (.operator q left t) x' c p) (ht : u.grammar.table? r = some table)
    (hl : table.lookup t.kind = some (tier, q)) (hleft : ∀ n ∈ left.descendants, u.grammar.Accounts n)
    (hd : ∀ ts, p ts → u.grammar.Derives (.rule r) (left.tokens ++ t :: ts)) :
    ∃ ts, c.tokens = left.tokens ++ t :: ts ∧ u.stream.Kept y.pos ts x'.pos ∧
      u.grammar.Derives (.rule r) c.tokens ∧ ∀ n ∈ c.finish.descendants, u.grammar.Accounts n := by
  obtain ⟨hr, hf, ho⟩ := h.operands ((hleft left (by cases left; simp [Node.descendants])).rule_ne hg)
  obtain ⟨cs, hc, hk, hp, ha⟩ := h.children
  have htokens : c.tokens = left.tokens ++ t :: Node.tokensOf cs := by
    simp [Builder.tokens, hc, Node.tokensOf]
  have hder := hd _ hp
  rw [← htokens] at hder
  refine ⟨Node.tokensOf cs, htokens, hk, hder, fun n hn => ?_⟩
  rcases List.mem_cons.1 hn with hn | hn
  · have hn' : n = c.finish := hn
    subst hn'
    have hfield : c.finish.hasField "left" = true := by
      rw [Node.hasField]
      rcases hs : c.finish.slot? "left" with _ | _
      · simp [Node.field?, hs] at hf
      · rfl
    rw [Grammar.Accounts, if_pos hfield]
    exact ⟨r, table, t, tier, ht, ho, hr ▸ hl, by simpa using hder⟩
  · rw [hc] at hn
    simp only [Builder.operator_children, Node.descendantsOf, List.cons_append, List.nil_append,
      List.mem_append] at hn
    exact hn.elim (hleft n) (ha n)

theorem single_eq_endKinds {k : Kind} : KindSet.single k = endKinds ↔ k = .eof := by
  constructor
  · intro h
    have hk : (KindSet.single k).contains k = true := by simp
    rw [h] at hk
    simpa [endKinds, eq_comm] using hk
  · rintro rfl
    rfl

/-- A run that reports nothing reads what its task asks for. -/
theorem Runs.reads (hu : u.Regular) (hg : u.grammar.Readable) {n : Nat} {task : Task}
    {x x' : Session} {b b' : Builder} (h : u.Runs n task x b x' b') (hx : u.Calm x)
    (he : x'.errors = []) (hp : task.Plain u.grammar) : u.TaskReads x b x' b' task := by
  induction h with
  | @token _ k _ _ _ _ _ h =>
    refine expect_reads hu h hx he (fun hs => ?_) fun t ht hk hm => ?_
    · rw [single_eq_endKinds.1 hs]
      exact .eof
    · rw [KindSet.contains_single, decide_eq_true_eq] at hm
      exact hm ▸ .token ht hk
  | @relation _ k r _ _ _ _ _ h =>
    simp only [Task.Plain, Element.all, Element.plain, bne_iff_ne] at hp
    refine expect_reads hu h hx he (fun hs => ?_) fun t ht hk hm => ?_
    · exact absurd (single_eq_endKinds.1 hs) hp
    · rw [KindSet.contains_single, decide_eq_true_eq] at hm
      exact hm ▸ .relation ht hk
  | oneOf h =>
    simp only [Task.Plain, Element.all, Element.plain, bne_iff_ne] at hp
    exact expect_reads hu h hx he (fun hs => absurd hs hp) fun t ht _ hm => .oneOf ht hm
  | comment h => exact expectComment_reads h hx he
  | rule _ ih => exact ih hx he trivial
  | ruleAt _ ih => exact (ih hx he trivial).imp fun _ => .ruleAt
  | present hd h ih =>
    simp only [Task.Plain, Element.all, Element.plain, Bool.true_and] at hp
    have hy := hx.enter hd
    exact ((ih hy he hp).imp fun _ => .present).from_eq (enter_alike hd).pos
  | absent hd => exact .refl hx.fit.inside .absent (enter_alike hd).pos
  | repeated _ ih =>
    refine ih hx he ?_
    simpa [Task.Plain, Element.all, Element.plain] using hp
  | seq _ ih =>
    refine ih hx he ?_
    simpa [Task.Plain, Element.all, Element.plain] using hp
  | labeled _ ih =>
    simp only [Task.Plain, Element.all, Element.plain, Bool.and_eq_true, bne_iff_ne] at hp
    exact ((ih hx he hp.2).imp fun _ => .labeled).label hp.1 _ _ _ _
  | nil => exact .refl hx.fit.inside .nil rfl
  | cons h1 h2 ih1 ih2 =>
    simp only [Task.Plain, rowAll, Bool.and_eq_true] at hp
    obtain ⟨hy, hye⟩ := hx.behind hu h1 (h2.advances hu) he
    exact (ih1 hx hye hp.1).trans (ih2 hy he hp.2) fun _ _ => .cons
  | @moved _ e resync _ need x b _ z c x' b' hd h1 _ h2 ih1 ih2 =>
    have hy := hx.checked.enterItem hd
    obtain ⟨hz, hze⟩ := hy.behind hu h1 (fun hf => h2.advances_from hu (Advances.refl hf |>.noted _)) he
    have hr : u.Reads x b z c (u.grammar.Derives e) :=
      (ih1 hy hze hp).from_eq (enterItem_alike hd).pos
    have hr' : u.Reads z c x' b' (u.grammar.Derives (.repeated e (need - 1) resync)) :=
      (ih2 (hz.noted _) he hp).from_eq rfl
    exact hr.trans hr' fun _ _ => .again
  | stuck hd h1 hz _ ih =>
    have hr := (ih (hx.checked.enterItem hd) he hp).from_eq (enterItem_alike hd).pos
    obtain ⟨cs, hc, hk, hd, ha⟩ := hr.children
    -- the item took nothing, so it can be there as often as it is wanted
    have hnil := (hz ▸ hk).eq_nil
    refine ⟨hr.rule, ⟨cs, hc, hk, ?_, ha⟩, hr.single, hr.operand⟩
    rw [hnil] at hd ⊢
    exact hd.repeated_nil _ _
  | freed hd h1 _ _ hw h2 _ _ =>
    subst hw
    exact absurd he ((hx.checked.enterItem hd).freed_ne_nil hu h1 h2)
  | @ended _ e resync scope need _ _ _ hd _ =>
    obtain ⟨rfl, -⟩ := enter_of_not_enterItem hd
    exact .refl hx.fit.inside .none (enterItem_alike hd).pos
  | resumed hd _ hw h2 _ =>
    subst hw
    exact absurd he ((hx.checked.enterItem hd).strayed_ne_nil hu h2)
  | @chosen _ scope _ _ i _ _ _ hd hi _ ih =>
    obtain ⟨a, ha, -⟩ := Grammar.mem_choices.1 hi
    have hm := List.mem_of_getElem? ha
    have hr := ih ((hx.noted _).decide hu hd) he (by
      rw [Resolver.elements_of_getElem? ha]
      exact hg.plain _ a hm)
    rw [Resolver.elements_of_getElem? ha] at hr
    exact (hr.imp fun _ => .rule hm).from_eq (decide_alike hd).pos
  | lost hd h => exact absurd he (((hx.noted _).decide hu hd).recover_ne_nil h)
  | refused h => exact absurd he ((hx.called _ _).recover_ne_nil h)
  | inlined _ _ _ ih => exact (ih ((hx.called _ _).noted _) he trivial).from_eq rfl
  | wrapped _ _ _ ih =>
    have hr := ih ((hx.called _ _).noted _) he trivial
    obtain ⟨hk, hd, -⟩ := hr.start
    rw [← Builder.tokens_finish] at hk hd
    exact .pushNode hk hd hr.finish
  | @climbed _ r _ _ _ _ table _ c _ _ ht h1 h2 ih1 ih2 =>
    obtain ⟨hy, hye⟩ := ((hx.called _ _).noted _).behind hu h1 (h2.advances hu) he
    have hr := ih1 ((hx.called _ _).noted _) hye trivial
    obtain ⟨hk, hd, hc⟩ := hr.start
    have hleft : (c.single?.getD c.finish).tokens = c.tokens ∧
        ∀ n ∈ (c.single?.getD c.finish).descendants, u.grammar.Accounts n := by
      rcases hs : c.single? with _ | m
      · exact ⟨c.tokens_finish, hr.finish⟩
      · refine ⟨Builder.tokens_of_single? hs, fun n hn => hc n ?_⟩
        rw [(Builder.children_of_single? hs).1]
        simpa [Node.descendantsOf] using hn
    obtain ⟨m, ts, rfl, hm, hk', hd', ha⟩ := ih2 hy he ⟨ht, hleft.1 ▸ hd, hleft.2⟩
    refine .pushNode ?_ hd' ha
    rw [hm, hleft.1]
    exact hk.trans hk'
  | @done _ _ _ scope left x b _ =>
    exact ⟨left, [], rfl, by simp, .refl hx.fit.inside, hp.2.1, hp.2.2⟩
  | @binary _ table _ scope left x b tier q y c _ _ hl _ hf hend h1 h2 ih1 ih2 =>
    obtain ⟨ht, hd, hleft⟩ := hp
    obtain ⟨hrule, halts⟩ := hg.tables _ _ ht
    have hc := u.stream.channel_settle (u.stream.settle_lt_of_not_atEnd hend)
    have hstart := hx.checked.operatedAt hend
    obtain ⟨hy, hye⟩ := hstart.behind hu h1 (h2.advances hu) he
    have hr : u.Reads _ _ _ _ _ := ih1 hstart hye trivial
    obtain ⟨ts, hts, hk, hd', ha⟩ := (hr.label (show "right" ≠ "left" by decide) false
      (Builder.operator q left (u.stream.current x.pos)).size false none).operation hg ht hl hleft
        fun ts => hd.binary hrule halts hl hc hf
    rw [← Builder.tokens_finish] at hts hd'
    obtain ⟨m, us, rfl, hm, hk', hdm, ham⟩ := ih2 hy he ⟨ht, hd', ha⟩
    refine ⟨m, u.stream.current x.pos :: ts ++ us, rfl, by simp [hm, hts], ?_, hdm, ham⟩
    exact ((Stream.Kept.current hx.fit.inside hend).trans hk).trans hk'
  | @suffix _ table _ scope left x b tier q y c _ _ hl _ hf hend h1 h2 ih1 ih2 =>
    obtain ⟨ht, hd, hleft⟩ := hp
    obtain ⟨hrule, halts⟩ := hg.tables _ _ ht
    have hc := u.stream.channel_settle (u.stream.settle_lt_of_not_atEnd hend)
    have hk : u.stream.kind x.pos ≠ .eof := fun h => by simp [h, hu.founded.eof _ _ ht] at hl
    have hstart := hx.checked.operatedAt hend
    obtain ⟨hy, hye⟩ := hstart.behind hu h1 (h2.advances hu) he
    have hr : u.Reads _ _ _ _ _ := ih1 hstart hye trivial
    obtain ⟨ts, hts, hk, hd', ha⟩ := hr.operation hg ht hl hleft
      fun ts => hd.suffix hrule halts hl hc hf hk
    rw [← Builder.tokens_finish] at hts hd'
    obtain ⟨m, us, rfl, hm, hk', hdm, ham⟩ := ih2 hy he ⟨ht, hd', ha⟩
    refine ⟨m, u.stream.current x.pos :: ts ++ us, rfl, by simp [hm, hts], ?_, hdm, ham⟩
    exact ((Stream.Kept.current hx.fit.inside hend).trans hk).trans hk'

/-- A whole parse that reports nothing reads its stream. -/
theorem Rooted.reads (hu : u.Regular) (hg : u.grammar.Readable) (hm : u.settings.Reports) {r : Rule}
    {n : Node} {x : Session} (h : u.Rooted r n x) (he : x.errors = []) :
    u.grammar.Derives (.rule r) n.tokens ∧ u.stream.Kept 0 n.tokens u.stream.size ∧
      ∀ m ∈ n.descendants, u.grammar.Accounts m := by
  obtain ⟨y, b, c, hrun, hend, rfl⟩ := h
  have hx : u.Calm (.start u.settings) := ⟨fit_start u, rfl, hm⟩
  obtain ⟨hy, hye⟩ := hx.behind hu hrun (fun hf => (Advances.refl hf).expectEnd hend) he
  have hr : u.Reads _ _ _ _ _ := hrun.reads hu hg hx hye trivial
  obtain ⟨hk, hd, ha⟩ := hr.start
  rw [expectEnd_eq] at hend
  split at hend
  · rename_i hatEnd
    cases hend
    rw [Builder.tokens_finish, Builder.tokens_unwrapped]
    refine ⟨hd, hk.whole hatEnd, ?_⟩
    unfold Builder.unwrapped
    split
    · rename_i m hs
      rw [Builder.finish_reopen]
      intro n hn
      refine ha n ?_
      rw [(Builder.children_of_single? hs).1]
      simpa [Node.descendantsOf] using hn
    · exact hr.finish
  · cases hend
    exact absurd he (by simpa using hy.errors_ne_nil _ _ _)

end Setup

/-- What is accepted without an error is derivable from the rule that was asked for, and so is every
node in it from its own rule, or, behind an operator, from the rule that the operator belongs to. -/
theorem parseTokens_sound (r : Rule) (ts : List Token) (settings : Settings)
    (hm : settings.maxErrors ≠ some 0) (p : Parse) (hp : (parseTokens r ts settings).1 = .ok p)
    (hok : p.ok = true) :
    kerml.Derives (.rule r) p.root.tokens ∧
      p.root.tokens.filter (fun t => t.channel = .default) =
        ts.filter (fun t => t.channel = .default) ∧
      ∀ n ∈ p.root.descendants,
        if n.hasField "left" then
          ∃ q table t tier, kerml.table? q = some table ∧
            n.field? "operator" = some (.token t) ∧ table.lookup t.kind = some (tier, n.rule) ∧
            kerml.Derives (.rule q) n.tokens
        else kerml.Derives (.rule n.rule) n.tokens := by
  obtain ⟨x, hr, he⟩ := rooted_of_parseTokens hp
  have hnil : x.errors = [] := by
    rw [Parse.ok, he, List.isEmpty_iff] at hok
    exact hok
  obtain ⟨hd, hk, ha⟩ := hr.reads (regular_ofTokens ts settings) readable_kerml hm hnil
  have hall : (Stream.ofTokens ts).stretch 0 (Stream.ofTokens ts).size = ts :=
    (Stream.ofTokens ts).stretch_all
  exact ⟨hd, hall ▸ hk.default, ha⟩

/-- A sum is accepted, so it is derivable. -/
theorem parseTokens_sound_sum :
    ∃ p, (parseTokens .ownedExpression (scan "1 + 2") .standard).1 = .ok p ∧ p.ok = true ∧
      kerml.Derives (.rule .ownedExpression) p.root.tokens := by
  have h : (parseTokens .ownedExpression (scan "1 + 2") .standard).1.toOption.any Parse.ok = true := by
    decide +kernel
  rcases hp : (parseTokens .ownedExpression (scan "1 + 2") .standard).1 with f | p
  · simp [hp, Except.toOption] at h
  · have hok : p.ok = true := by simpa [hp, Except.toOption] using h
    exact ⟨p, rfl, hok, (parseTokens_sound _ _ _ (by decide) p hp hok).1⟩

end KermlText
