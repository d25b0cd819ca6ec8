import KermlText.Proofs.Runs

/-! Every answer of the parser is the end of a run, and only a parse that is called off gives none. The
bounds on the loops of the parser are never met: a list that goes round again and an operator have
taken or skipped a token, so they happen at most as often as there are tokens. -/

namespace KermlText

namespace Setup

open Session

variable (u : Setup)

section

variable {u} (hu : u.Regular)
include hu

theorem lt_freed {resync : Bool} {scope : Scope} {x : Session} (hx : u.Fit x)
    (h : stops resync scope (u.stream.kind x.pos) = false) (code : Code) (r : Rule)
    (expected context : KindSet) :
    x.pos < ((u.reported code r expected x).skippedOver context
      (u.stream.placesUpTo ∅ 1 x.pos)).pos := by
  have hx' : (u.reported code r expected x).pos ≤ u.stream.size := by simpa using hx.inside
  rw [← reported_pos u code r expected x]
  exact lt_skippedOver context hx' (by simpa using placesUpTo_ne_nil_of_stops hu h)

theorem lt_resumed {e : Element} {resync : Bool} {scope : Scope} {x : Session} (hx : u.Fit x)
    (h : u.leaves e resync scope (u.stream.lookahead x.pos scope.comments) = false) (code : Code)
    (r : Rule) (expected context : KindSet) :
    x.pos < ((u.reported code r expected x).skippedOver context
      (u.passed (scope.follow ∪ u.grammar.firstOf e ∪ endKinds) x)).pos := by
  have hx' : (u.reported code r expected x).pos ≤ u.stream.size := by simpa using hx.inside
  rw [← reported_pos u code r expected x, ← passed_reported u _ code r expected x]
  exact lt_skippedOver context hx' (by simpa [passed] using passed_ne_nil_of_leaves hu h)

/-- Each round that is followed by another one moves on, so the rounds are enough. -/
theorem ends_items {n : Nat} {e : Element} {item : Scope → Builder → Action Builder}
    (he : e.founded u.grammar.solid = true)
    (hitem : ∀ scope b x, u.Fit x →
      u.Ends (item scope b) x fun b' x' => u.Runs n (.element e scope) x b x' b')
    (resync : Bool) (scope : Scope) (rounds need : Nat) (b : Builder) (x : Session) (hx : u.Fit x)
    (hr : u.stream.size < x.pos + rounds) :
    u.Ends (u.items item e resync scope rounds need b) x fun b' x' =>
      u.Runs n (.items e resync scope need) x b x' b' := by
  induction rounds generalizing need b x with
  | zero =>
    have := hx.inside
    omega
  | succ rounds ih =>
    obtain ⟨d, y, hd⟩ := enterItem_answers hu scope he need (x := x.checked) hx.inside
    have hy := (Advances.refl hx).checked.enterItem hd
    unfold items
    rw [ends_bind]
    refine ends_checkCancelled x ?_
    simp only [ends_bind, ends_get, ends_ok hd]
    cases d with
    | true =>
      simp only [if_true, ends_bind, ends_get]
      refine (hitem _ b y hy.fit).imp fun c z _ hz => ?_
      have hz' := hy.trans (hz.advances hu hy.fit)
      split
      · rename_i hpos
        simp only [ends_bind, ends_kind]
        split
        · rename_i hk
          exact .stuck hd hz hpos hk
        · rename_i hk
          rw [Bool.not_eq_true] at hk
          simp only [ends_bind, ends_report, ends_skipOne, ends_get, ends_note, reported_pos]
          have hw := hz'.strayed .unexpectedToken scope.rule (scope.follow ∪ u.grammar.firstOf e)
            scope.context ∅ 1
          have hlt := lt_freed hu hz'.fit hk .unexpectedToken scope.rule
            (scope.follow ∪ u.grammar.firstOf e) scope.context
          have heq : z.pos = x.pos := hpos
          exact (ih _ _ _ (hw.noted _).fit (by simp only [noted_pos]; omega)).imp
            fun b' x' _ h => .freed hd hz hpos hk rfl h
      · rename_i hpos
        simp only [ends_bind, ends_get, ends_note]
        have hle := hz'.le
        have hne : z.pos ≠ x.pos := hpos
        exact (ih _ _ _ (hz'.noted _).fit (by simp only [noted_pos]; omega)).imp
          fun b' x' _ h => .moved hd hz hpos h
    | false =>
      simp only [Bool.false_eq_true, if_false, ends_bind, ends_lookahead]
      split
      · rename_i hk
        exact .ended hd hk
      · rename_i hk
        rw [Bool.not_eq_true] at hk
        simp only [ends_bind, ends_report, ends_skipUntil, ends_get, ends_note, passed_reported]
        have hw := hy.strayed .unexpectedToken scope.rule (scope.follow ∪ u.grammar.firstOf e)
          scope.context (scope.follow ∪ u.grammar.firstOf e ∪ endKinds) u.stream.size
        rw [← passed] at hw
        have hlt := lt_resumed hu hy.fit hk .unexpectedToken scope.rule
          (scope.follow ∪ u.grammar.firstOf e) scope.context
        have hle := hy.le
        exact (ih _ _ _ (hw.noted _).fit (by simp only [noted_pos]; omega)).imp
          fun b' x' _ h => .resumed hd hk rfl h

end

/-- The calls of a rule are runs with room for `n` more rules. -/
def Follows (u : Setup) (n : Nat) (call : Call) : Prop :=
  ∀ r level scope b x, u.Fit x →
    u.Ends (call r level scope b) x fun b' x' => u.Runs n (.call r level scope) x b x' b'

section

variable {u} {n : Nat} {call : Call}

mutual

theorem ends_element (hu : u.Regular) (hcall : u.Follows n call) : ∀ (e : Element),
    e.founded u.grammar.solid = true → ∀ scope b x, u.Fit x →
    u.Ends (u.element call e scope b) x fun b' x' => u.Runs n (.element e scope) x b x' b'
  | .token k, _, scope, b, x, hx => by
    unfold element
    obtain ⟨b', x', h⟩ := expect_answers hu scope (.single k) b x
    exact (ends_ok h).2 (.token h)
  | .relation k _, _, scope, b, x, hx => by
    unfold element
    obtain ⟨b', x', h⟩ := expect_answers hu scope (.single k) b x
    exact (ends_ok h).2 (.relation h)
  | .oneOf ks, _, scope, b, x, hx => by
    unfold element
    obtain ⟨b', x', h⟩ := expect_answers hu scope ks b x
    exact (ends_ok h).2 (.oneOf h)
  | .comment, _, scope, b, x, hx => by
    unfold element
    obtain ⟨b', x', h⟩ := expectComment_answers (u := u) scope b x
    exact (ends_ok h).2 (.comment h)
  | .rule r, _, scope, b, x, hx => by
    unfold element
    exact (hcall r 0 scope b x hx).imp fun b' x' _ h => .rule h
  | .ruleAt r level, _, scope, b, x, hx => by
    unfold element
    exact (hcall r level scope b x hx).imp fun b' x' _ h => .ruleAt h
  | .optional e, he, scope, b, x, hx => by
    simp only [Element.founded] at he
    obtain ⟨d, y, hd⟩ := enter_answers hu scope he hx.inside
    have hy := (Advances.refl hx).enter hd
    unfold element
    rw [ends_bind, ends_ok hd]
    cases d with
    | true => exact (ends_element hu hcall e he scope b y hy.fit).imp fun b' x' _ h => .present hd h
    | false => exact .absent hd
  | .repeated e least resync, he, scope, b, x, hx => by
    simp only [Element.founded, Bool.and_eq_true] at he
    unfold element
    exact (ends_items hu he.2 (ends_element hu hcall e he.2) resync scope _ least b x hx (by omega)).imp
      fun b' x' _ h => .repeated h
  | .seq es, he, scope, b, x, hx => by
    simp only [Element.founded] at he
    unfold element
    exact (ends_row hu hcall es he scope b x hx).imp fun b' x' _ h => .seq h
  | .labeled name many e, he, scope, b, x, hx => by
    simp only [Element.founded] at he
    unfold element
    rw [ends_bind]
    exact (ends_element hu hcall e he scope b x hx).imp fun b' x' _ h => .labeled h

theorem ends_row (hu : u.Regular) (hcall : u.Follows n call) : ∀ (es : List Element),
    allFounded u.grammar.solid es = true → ∀ scope b x, u.Fit x →
      u.Ends (u.row call es scope b) x fun b' x' => u.Runs n (.row es scope) x b x' b'
  | [], _, scope, b, x, hx => by
    unfold row
    exact .nil
  | e :: es, he, scope, b, x, hx => by
    simp only [allFounded, Bool.and_eq_true] at he
    unfold row
    rw [ends_bind]
    refine (ends_element hu hcall e he.1 (u.before es scope) b x hx).imp fun c y _ h1 => ?_
    exact (ends_row hu hcall es he.2 scope c y (h1.advances hu hx).fit).imp fun b' x' _ h2 => .cons h1 h2

end

variable (hu : u.Regular) (hcall : u.Follows n call)
include hu hcall

theorem ends_body (scope : Scope) (b : Builder) (x : Session) (hx : u.Fit x) :
    u.Ends (u.body call scope b) x fun b' x' => u.Runs n (.body scope) x b x' b' := by
  have hx' := (Advances.refl hx).noted (.asked scope.rule scope.follow)
  obtain ⟨d, y, hd, ha⟩ := decide_answers hu scope hx'.fit.valid hx'.fit.inside
  have hy := hx'.decide hu hd
  unfold body
  simp only [ends_bind, ends_note, ends_ok hd]
  rcases d with f | i
  · obtain ⟨r, p, offset, expected, k, rfl⟩ := ha
    simp only [ends_bind, ends_report]
    obtain ⟨b', x', h⟩ := recover_answers (u := u) scope scope.rule b
      (u.reported .noAlternative scope.rule expected y)
    exact (ends_ok h).2 (.lost hd h)
  · exact (ends_row hu hcall _ (Resolver.allFounded_elements hu.founded _ _) scope b y hy.fit).imp
      fun b' x' _ h => .chosen hd ha h

omit hu hcall in
/-- The operator is taken, and what binds tighter is read behind it. -/
theorem ends_operation_binary {tier : Tier} (hf : tier.form = .binary) (rule : Rule) (scope : Scope)
    (left : Node) {x : Session} (he : u.stream.atEnd x.pos = false) (post : Node → Session → Prop) :
    u.Ends (u.operation call tier rule scope left) x post ↔
      u.Ends (call scope.rule tier.operandLevel scope
        (.operator rule left (u.stream.current x.pos))) (x.operatedAt (u.stream.settle x.pos))
        fun c y => post (c.label "right" false
          (Builder.operator rule left (u.stream.current x.pos)).size false none).finish y := by
  unfold operation
  simp only [ends_bind, ends_get, Stream.advance, u.stream.next?_of_not_atEnd he, ends_moveTo,
    ends_note, hf, ends_pure]
  rfl

omit hu hcall in
/-- The operator is taken, and what its node rule says is read behind it. -/
theorem ends_operation_suffix {tier : Tier} (hf : tier.form ≠ .binary) (rule : Rule) (scope : Scope)
    (left : Node) {x : Session} (he : u.stream.atEnd x.pos = false) (post : Node → Session → Prop) :
    u.Ends (u.operation call tier rule scope left) x post ↔
      u.Ends (u.body call { scope with rule := rule }
        (.operator rule left (u.stream.current x.pos))) (x.operatedAt (u.stream.settle x.pos))
        fun c y => post c.finish y := by
  unfold operation
  simp only [ends_bind, ends_get, Stream.advance, u.stream.next?_of_not_atEnd he, ends_moveTo,
    ends_note]
  rcases h : tier.form with _ | _ | _
  · exact absurd h hf
  · simp only [ends_bind, ends_pure]
    rfl
  · simp only [ends_bind, ends_pure]
    rfl

/-- Each operator takes a token, so the rounds are enough. -/
theorem ends_operations {r : Rule} {table : Table} (ht : u.grammar.table? r = some table)
    (level : Nat) (scope : Scope) (rounds : Nat) (left : Node) (b : Builder) (x : Session)
    (hx : u.Fit x) (hr : u.stream.size < x.pos + rounds) :
    u.Ends (u.operations call table level scope rounds left) x fun m x' =>
      u.Runs n (.operators table level scope left) x b x' (b.pushNode m) := by
  induction rounds generalizing left x with
  | zero =>
    have := hx.inside
    omega
  | succ rounds ih =>
    unfold operations
    rw [ends_bind, ends_kind]
    split
    · rename_i hl
      exact .done (by simp [hl])
    · rename_i tier rule hl
      split
      · rename_i hlt
        exact .done fun tier' rule' h => by simp_all
      · rename_i hle
        rw [Nat.not_lt] at hle
        have he : u.stream.atEnd x.pos = false := by
          refine Stream.not_atEnd_of_kind hu.eof fun h => ?_
          simp [h, hu.founded.eof r table ht] at hl
        rw [ends_bind]
        refine ends_checkCancelled x ?_
        have hy := (Advances.refl hx).checked.operatedAt he
        have hlt : x.pos < u.stream.settle x.pos + 1 := Nat.lt_succ_of_le (u.stream.le_settle hx.inside)
        rw [ends_bind]
        by_cases hf : tier.form = .binary
        · refine (ends_operation_binary (x := x.checked) hf rule scope left he _).2 ?_
          refine (hcall _ _ _ _ _ hy.fit).imp fun c z _ hz => ?_
          have hz' := hz.advances hu hy.fit
          have hle' : u.stream.settle x.pos + 1 ≤ z.pos := hz'.le
          exact (ih _ z hz'.fit (by omega)).imp fun m x' _ h => .binary hl hle hf he hz h
        · refine (ends_operation_suffix (x := x.checked) hf rule scope left he _).2 ?_
          refine (ends_body hu hcall _ _ _ hy.fit).imp fun c z _ hz => ?_
          have hz' := hz.advances hu hy.fit
          have hle' : u.stream.settle x.pos + 1 ≤ z.pos := hz'.le
          exact (ih _ z hz'.fit (by omega)).imp fun m x' _ h => .suffix hl hle hf he hz h

end

theorem follows_call {u : Setup} (hu : u.Regular) (n : Nat) : u.Follows n (u.call n) := by
  induction n with
  | zero =>
    intro r level scope b x hx
    unfold call
    rw [ends_bind, ends_note, ends_bind]
    refine ends_checkCancelled _ ?_
    simp only [ends_bind, ends_report]
    obtain ⟨b', x', h⟩ := recover_answers (u := u) scope r b
      (u.reported .nestingTooDeep r (u.grammar.first r) (x.called r scope))
    exact (ends_ok h).2 (.refused h)
  | succ n ih =>
    intro r level scope b x hx
    have hy := ((Advances.refl hx).called r scope).noted (.opened (u.settings.maxDepth - n))
    unfold call
    rw [ends_bind, ends_note, ends_bind]
    refine ends_checkCancelled _ ?_
    rw [ends_bind, ends_note]
    split
    · rename_i table ht
      unfold climb operand
      simp only [ends_bind, ends_pure]
      refine (ends_body hu ih _ _ _ hy.fit).imp fun c y _ h1 => ?_
      have hy' := h1.advances hu hy.fit
      exact (ends_operations hu ih ht _ _ _ _ b y hy'.fit (by omega)).imp
        fun m x' _ h2 => .climbed ht h1 h2
    · rename_i ht
      dsimp only
      split
      · rename_i hi
        exact (ends_body hu ih _ _ _ hy.fit).imp fun b' x' _ h => .inlined ht hi h
      · rename_i hi
        rw [Bool.not_eq_true] at hi
        rw [ends_bind]
        exact (ends_body hu ih _ _ _ hy.fit).imp fun c x' _ h => .wrapped ht hi h

/-- What a whole parse gives: the node of the rule, with what is left over behind it. -/
def Rooted (u : Setup) (r : Rule) (n : Node) (x : Session) : Prop :=
  ∃ y b c, u.Runs u.settings.maxDepth (.call r 0 (u.rootScope r)) (.start u.settings) (.start r) y b ∧
    u.expectEnd (u.rootScope r) r b.unwrapped y = .ok c x ∧ n = c.finish

theorem ends_root {u : Setup} (hu : u.Regular) (r : Rule) :
    u.Ends (u.root r) (.start u.settings) (u.Rooted r) := by
  unfold root
  rw [ends_bind]
  refine (follows_call hu _ r 0 _ _ _ (fit_start u)).imp fun b y _ h => ?_
  have he : ∃ c x, u.expectEnd (u.rootScope r) r b.unwrapped y = .ok c x := by
    rw [expectEnd_eq]
    split <;> exact ⟨_, _, rfl⟩
  obtain ⟨c, x, hx⟩ := he
  rw [ends_bind, ends_ok hx]
  exact ⟨y, b, c, h, hx, rfl⟩

end Setup

/-! ### Parses -/

theorem regular_ofTokens (ts : List Token) (settings : Settings) :
    (Setup.ofTokens ts settings).Regular :=
  ⟨Stream.kind_eof_ofTokens ts, founded_kerml⟩

/-- The session in which a parse ends. -/
def Setup.last (u : Setup) (r : Rule) : Session :=
  match u.run r with
  | .ok _ x | .error _ x => x

theorem parseTokens_of_ok {r : Rule} {ts : List Token} {settings : Settings} {n : Node} {x : Session}
    (h : (Setup.ofTokens ts settings).run r = .ok n x) :
    parseTokens r ts settings = (.ok ⟨n, x.errors⟩, x.sent) := by
  unfold parseTokens
  rw [h]

theorem parseTokens_of_error {r : Rule} {ts : List Token} {settings : Settings} {f : Failure}
    {x : Session} (h : (Setup.ofTokens ts settings).run r = .error f x) :
    parseTokens r ts settings = (.error f, x.sent) := by
  unfold parseTokens
  rw [h]

/-- What was sent while a parse was running, called off or not. -/
theorem sent_parseTokens (r : Rule) (ts : List Token) (settings : Settings) :
    (parseTokens r ts settings).2 = ((Setup.ofTokens ts settings).last r).sent := by
  rcases hrun : (Setup.ofTokens ts settings).run r with ⟨n, x⟩ | ⟨f, x⟩
  · rw [parseTokens_of_ok hrun, Setup.last, hrun]
  · rw [parseTokens_of_error hrun, Setup.last, hrun]

theorem rooted_last {r : Rule} {ts : List Token} {settings : Settings} {p : Parse}
    (h : (parseTokens r ts settings).1 = .ok p) :
    (Setup.ofTokens ts settings).Rooted r p.root ((Setup.ofTokens ts settings).last r) ∧
      p.errors = ((Setup.ofTokens ts settings).last r).errors := by
  have he := Setup.ends_root (regular_ofTokens ts settings) r
  unfold parseTokens at h
  unfold Setup.Ends at he
  rw [← Setup.run] at he
  unfold Setup.last
  rcases hr : (Setup.ofTokens ts settings).run r with ⟨n, x⟩ | ⟨f, x⟩
  · rw [hr] at h he
    cases h
    exact ⟨he, rfl⟩
  · rw [hr] at h
    cases h

/-- A parse that gives a tree gives it at the end of a run. -/
theorem rooted_of_parseTokens {r : Rule} {ts : List Token} {settings : Settings} {p : Parse}
    (h : (parseTokens r ts settings).1 = .ok p) :
    ∃ x, (Setup.ofTokens ts settings).Rooted r p.root x ∧ p.errors = x.errors :=
  ⟨_, rooted_last h⟩

/-- Only being called off keeps a parse from giving a tree. -/
theorem cancelled_of_parseTokens {r : Rule} {ts : List Token} {settings : Settings} {f : Failure}
    (h : (parseTokens r ts settings).1 = .error f) : f = .cancelled ∧ settings.cancel ≠ none := by
  have he := Setup.ends_root (regular_ofTokens ts settings) r
  unfold parseTokens at h
  unfold Setup.Ends at he
  rw [← Setup.run] at he
  rcases hr : (Setup.ofTokens ts settings).run r with ⟨n, x⟩ | ⟨g, x⟩
  · rw [hr] at h
    cases h
  · rw [hr] at h he
    cases h
    exact he

/-- A parse that cannot be called off gives a tree. -/
theorem parseTokens_answers (r : Rule) (ts : List Token) {settings : Settings}
    (hc : settings.cancel = none) :
    ∃ p, (parseTokens r ts settings).1 = .ok p := by
  rcases h : (parseTokens r ts settings).1 with f | p
  · exact absurd hc (cancelled_of_parseTokens h).2
  · exact ⟨p, rfl⟩

end KermlText
