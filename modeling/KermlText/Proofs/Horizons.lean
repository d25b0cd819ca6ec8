import KermlText.Proofs.Caching
import KermlText.Proofs.Starts

/-! Trying more tokens changes a parse only where fewer were too few. A trial that ends before the horizon
ends in the same way before any farther one, so with fewer tokens to try a decision comes out otherwise only
if the horizon spares an alternative, or an element, that more tokens rule out. A parse that comes to no
such decision is the same with fewer tokens to try. -/

namespace KermlText

/-! ### Trials up to two horizons -/

namespace Recognizer

/-- The first step comes to its horizon, or it does what the second one does. -/
def Cuts (step step' : Step) : Prop := ∀ t, (step t).1 = .horizon ∨ step' t = step t

namespace Cuts

theorem refl (step : Step) : Cuts step step := fun _ => .inr rfl

variable {step step' : Step}

theorem horizon_or (h : Cuts step step') (t : Trial) : (∃ t', step t = (.horizon, t')) ∨ step' t = step t :=
  (h t).imp (fun ho => ⟨(step t).2, Prod.ext ho rfl⟩) id

theorem optional (h : Cuts step step') : Cuts (optional step) (optional step') := by
  intro t
  unfold Recognizer.optional
  obtain ⟨t', ht⟩ | ht := h.horizon_or t
  · rw [ht]
    exact .inl rfl
  · rw [ht]
    exact .inr rfl

theorem andThen {second second' : Step} (h1 : Cuts step step') (h2 : Cuts second second') :
    Cuts (andThen step second) (andThen step' second') := by
  intro t
  unfold Recognizer.andThen
  obtain ⟨t', ht⟩ | ht := h1.horizon_or t
  · rw [ht]
    exact .inl rfl
  · rw [ht]
    rcases step t with ⟨_ | _ | _ | _, t'⟩
    · exact h2 t'
    · exact .inl rfl
    · exact .inr rfl
    · exact .inr rfl

theorem repeated (h : Cuts step step') (n need : Nat) : Cuts (repeated step n need) (repeated step' n need) := by
  induction n generalizing need with
  | zero => exact refl _
  | succ n ih =>
    intro t
    unfold Recognizer.repeated
    obtain ⟨t', ht⟩ | ht := h.horizon_or t
    · rw [ht]
      exact .inl rfl
    · rw [ht]
      rcases step t with ⟨_ | _ | _ | _, t'⟩
      · dsimp only
        split
        · exact .inr rfl
        · exact ih (need - 1) t'
      · exact .inl rfl
      · exact .inr rfl
      · exact .inr rfl

end Cuts

section

variable {g : Grammar} {s : Stream} {h h' : Nat}

theorem not_limitReached_of_le (hle : h ≤ h') {t : Trial} (hl : limitReached ⟨g, s, h⟩ t = false) :
    limitReached ⟨g, s, h'⟩ t = false := by
  simp only [limitReached, Bool.and_eq_false_iff, decide_eq_false_iff_not] at hl ⊢
  refine hl.imp (fun hl => ?_) id
  omega

theorem cuts_guarded (hle : h ≤ h') {step step' : Step} (hs : Cuts step step') :
    Cuts (guarded ⟨g, s, h⟩ step) (guarded ⟨g, s, h'⟩ step') := by
  intro t
  unfold guarded
  cases hl : limitReached ⟨g, s, h⟩ t with
  | true => exact .inl rfl
  | false =>
    rw [not_limitReached_of_le hle hl]
    exact hs t

variable {call call' : Bool → Rule → Step}

mutual

theorem cuts_element (hle : h ≤ h') (hcall : ∀ c r, Cuts (call c r) (call' c r)) (c : Bool) :
    ∀ e : Element, Cuts (element ⟨g, s, h⟩ call c e) (element ⟨g, s, h'⟩ call' c e)
  | .token k => by
    unfold element
    exact cuts_guarded hle (.refl _)
  | .relation k _ => by
    unfold element
    exact cuts_guarded hle (.refl _)
  | .oneOf ks => by
    unfold element
    exact cuts_guarded hle (.refl _)
  | .comment => by
    unfold element
    exact cuts_guarded hle (.refl _)
  | .rule r => by
    unfold element
    exact cuts_guarded hle (hcall c r)
  | .ruleAt r _ => by
    unfold element
    exact cuts_guarded hle (hcall c r)
  | .optional e => by
    unfold element
    exact cuts_guarded hle (cuts_element hle hcall c e).optional
  | .repeated e min _ => by
    unfold element
    exact cuts_guarded hle ((cuts_element hle hcall c e).repeated _ min)
  | .seq es => by
    unfold element
    exact cuts_guarded hle (cuts_row hle hcall c es)
  | .labeled _ _ e => by
    unfold element
    exact cuts_guarded hle (cuts_element hle hcall c e)

theorem cuts_row (hle : h ≤ h') (hcall : ∀ c r, Cuts (call c r) (call' c r)) (c : Bool) :
    ∀ es : List Element, Cuts (row ⟨g, s, h⟩ call c es) (row ⟨g, s, h'⟩ call' c es)
  | [] => by
    unfold row
    exact .refl _
  | e :: es => by
    unfold row
    exact (cuts_element hle hcall c e).andThen (cuts_row hle hcall c es)

end

variable (hle : h ≤ h') (hcall : ∀ c r, Cuts (call c r) (call' c r)) (c : Bool)
include hle hcall

theorem cuts_firstMatch (as : List Alternative) (far : Nat) :
    Cuts (firstMatch ⟨g, s, h⟩ call c as far) (firstMatch ⟨g, s, h'⟩ call' c as far) := by
  induction as generalizing far with
  | nil => exact .refl _
  | cons a as ih =>
    intro t
    unfold firstMatch
    obtain ⟨t', ht⟩ | ht := (cuts_row hle hcall c a.elements).horizon_or t
    · rw [ht]
      exact .inl rfl
    · rw [ht]
      rcases row ⟨g, s, h⟩ call c a.elements t with ⟨_ | _ | i | _, t'⟩
      · exact .inr rfl
      · exact .inl rfl
      · exact ih (max far i) { t' with pos := t.pos }
      · exact .inr rfl

theorem cuts_alternatives (r : Rule) :
    Cuts (alternatives ⟨g, s, h⟩ call c r) (alternatives ⟨g, s, h'⟩ call' c r) :=
  fun t => cuts_firstMatch hle hcall c _ _ t

theorem cuts_operators (r : Rule) (table : Table) (n : Nat) :
    Cuts (operators ⟨g, s, h⟩ call c r table n) (operators ⟨g, s, h'⟩ call' c r table n) := by
  induction n with
  | zero => exact .refl _
  | succ n ih =>
    unfold operators
    refine cuts_guarded hle fun t => ?_
    rcases table.lookup (s.lookahead t.pos c) with _ | ⟨tier, node⟩
    · exact .inr rfl
    · refine (Cuts.refl (take ⟨g, s, h⟩)).andThen (Cuts.andThen ?_ ih) t
      split
      · exact cuts_alternatives hle hcall c r
      · exact hcall c node

theorem cuts_body (r : Rule) : Cuts (body ⟨g, s, h⟩ call c r) (body ⟨g, s, h'⟩ call' c r) := by
  unfold body
  dsimp only
  split
  · exact (cuts_alternatives hle hcall c r).andThen (cuts_operators hle hcall c r _ _)
  · exact cuts_alternatives hle hcall c r

omit hcall in
theorem cuts_call (n : Nat) (r : Rule) :
    Cuts (Recognizer.call ⟨g, s, h⟩ n c r) (Recognizer.call ⟨g, s, h'⟩ n c r) := by
  induction n generalizing c r with
  | zero => exact .refl _
  | succ n ih =>
    intro t
    unfold Recognizer.call
    dsimp only
    split
    · exact .inr rfl
    · exact .inr rfl
    · obtain ⟨t', ht⟩ | ht := (cuts_body hle ih (c || (g.definition r).comments) r).horizon_or t
      · rw [ht]
        exact .inl rfl
      · rw [ht]
        exact .inr rfl

end

end Recognizer

/-! ### Decisions with two horizons -/

/-- More tokens lead at least as far. -/
theorem Stream.hop_le {s : Stream} {n m i : Nat} (hnm : n ≤ m) (hi : i ≤ s.size) :
    (s.hop n i).getD s.size ≤ (s.hop m i).getD s.size := by
  induction n generalizing m i with
  | zero =>
    change i ≤ _
    induction m generalizing i with
    | zero => exact Nat.le_refl _
    | succ m ih =>
      unfold hop
      split
      · exact hi
      · rename_i hne
        have hlt : i + 1 ≤ s.size := Nat.lt_of_le_of_ne hi hne
        have := s.le_settle hlt
        have := ih (Nat.zero_le m) (s.settle_le_size (i + 1))
        omega
  | succ n ih =>
    obtain ⟨m, rfl⟩ := Nat.exists_eq_add_of_lt hnm
    rw [show n + m + 1 = (n + m) + 1 from rfl]
    unfold hop
    split
    · exact Nat.le_refl _
    · exact ih (Nat.le_add_right n m) (s.settle_le_size _)

theorem Stream.horizon_le {s : Stream} {n m : Nat} (pos : Nat) (hnm : n ≤ m) :
    s.horizon pos n ≤ s.horizon pos m :=
  Stream.hop_le hnm (s.settle_le_size pos)

/-- Whether the alternatives of the rule all begin in different ways. -/
def Grammar.isDecisive (g : Grammar) (r : Rule) : Bool :=
  let rows := (g.choices r).map (Resolver.elements g r)
  rows.length ≤ 1 ||
    decide (rows.Pairwise fun a b => (g.firstOfRow a).intersects (g.firstOfRow b) = false) &&
      rows.all fun a => !g.rowNullable a

namespace Resolver

/-- The alternative that is taken because the horizon comes before its trial ends, if it comes to that. -/
def spared? (z : Recognizer) (pos : Nat) (r : Rule) (follow : KindSet) (comments : Bool) :
    List Nat → Memo → Option Nat
  | [], _ => none
  | i :: is, memo =>
    match z.tryRow comments (elements z.grammar r i) (.start pos memo) with
    | (.horizon, _) => some i
    | (.endless, _) => none
    | (.failed _, t) => spared? z pos r follow comments is t.memo
    | (.matched, t) =>
      if z.limitReached t then some i
      else if follow.contains (z.stream.lookahead t.pos comments) then none
      else spared? z pos r follow comments is t.memo

variable {g : Grammar} {s : Stream}

/-- With a farther horizon the trials of alternatives come to the same, unless one was spared. -/
theorem tryAll_eq_or_spared {h h' : Nat} (hle : h ≤ h') (pos : Nat) (r : Rule) (follow : KindSet) (c : Bool)
    (is : List Nat) (memo : Memo) (rank : Ranking) (cut : Bool) :
    tryAll ⟨g, s, h'⟩ pos r follow c is memo rank cut =
        tryAll ⟨g, s, h⟩ pos r follow c is memo rank cut ∨
      ∃ i, spared? ⟨g, s, h⟩ pos r follow c is memo = some i ∧
        (tryAll ⟨g, s, h⟩ pos r follow c is memo rank cut).1 = .ok (some i) := by
  induction is generalizing memo rank cut with
  | nil => exact .inl rfl
  | cons i is ih =>
    unfold tryAll spared?
    dsimp only
    have hrow : Recognizer.Cuts (Recognizer.tryRow ⟨g, s, h⟩ c (elements g r i))
        (Recognizer.tryRow ⟨g, s, h'⟩ c (elements g r i)) :=
      Recognizer.cuts_row hle (Recognizer.cuts_call hle · _ ·) c _
    obtain ⟨t, ht⟩ | ht := hrow.horizon_or (.start pos memo)
    · rw [ht]
      exact .inr ⟨i, rfl, rfl⟩
    · rw [ht]
      rcases Recognizer.tryRow ⟨g, s, h⟩ c (elements g r i) (.start pos memo) with ⟨_ | _ | place | _, t⟩
      · dsimp only
        cases hl : Recognizer.limitReached ⟨g, s, h⟩ t with
        | true => exact .inr ⟨i, rfl, rfl⟩
        | false =>
          rw [Recognizer.not_limitReached_of_le hle hl]
          cases hf : follow.contains (s.lookahead t.pos c) with
          | true => exact .inl rfl
          | false => exact ih t.memo _ _
      · exact .inr ⟨i, rfl, rfl⟩
      · exact ih t.memo _ _
      · exact .inl rfl

/-- Where the first tokens of any two alternatives differ, one token decides. -/
theorem not_several_of_isDecisive {r : Rule} (h : g.isDecisive r = true) {k : Kind} {follow : KindSet}
    {first second : Nat} {rest : List Nat}
    (hv : (g.choices r).filter (fun i => viable g k follow (elements g r i)) = first :: second :: rest) :
    False := by
  have hlen := List.length_filter_le (fun i => viable g k follow (elements g r i)) (g.choices r)
  rw [hv, List.length_cons, List.length_cons] at hlen
  simp only [Grammar.isDecisive, List.length_map, Bool.or_eq_true, Bool.and_eq_true, decide_eq_true_eq,
    List.all_eq_true, List.forall_mem_map, Bool.not_eq_true', List.pairwise_map] at h
  rcases h with h | ⟨hapart, hnull⟩
  · omega
  · have hstarts : ∀ i ∈ first :: second :: rest, (g.firstOfRow (elements g r i)).contains k = true := by
      intro i hi
      rw [← hv] at hi
      obtain ⟨hi, hviable⟩ := List.mem_filter.1 hi
      simpa [viable, hnull i hi] using hviable
    have hpair := hapart.filter fun i => viable g k follow (elements g r i)
    rw [hv] at hpair
    have hne := (List.pairwise_cons.1 hpair).1 second List.mem_cons_self
    have hsecond := hstarts second (List.mem_cons_of_mem _ List.mem_cons_self)
    rw [KindSet.not_contains_of_not_intersects hne (hstarts first List.mem_cons_self)] at hsecond
    cases hsecond

variable (g s)

/-- The alternative that is chosen here because `limit` tokens do not rule it out, if it comes to that. -/
def spared (limit pos : Nat) (r : Rule) (follow : KindSet) (c : Bool) : Option Nat :=
  match (g.choices r).filter fun i => viable g (s.lookahead pos c) follow (elements g r i) with
  | first :: second :: rest =>
    spared? ⟨g, s, s.horizon pos limit⟩ pos r follow c (first :: second :: rest) .empty
  | _ => none

/-- Whether the element is entered here because `limit` tokens do not rule it out. -/
def dangles (limit pos : Nat) (e : Element) (follow : KindSet) (c : Bool) : Bool :=
  (g.firstOf e).contains (s.lookahead pos c) && follow.contains (s.lookahead pos c) &&
    (Recognizer.tryElement ⟨g, s, s.horizon pos limit⟩ c e (.start pos .empty)).1 == .horizon

variable {g s}

/-- Among several alternatives that may begin here trials decide. -/
theorem answer_of_several {limit pos : Nat} {r : Rule} {follow : KindSet} {c : Bool} {first second : Nat}
    {rest : List Nat} (hv : (g.choices r).filter (fun i => viable g (s.lookahead pos c) follow (elements g r i)) =
      first :: second :: rest) :
    answer g s limit pos r follow c =
      (tryAll ⟨g, s, s.horizon pos limit⟩ pos r follow c (first :: second :: rest) .empty ⟨none, none⟩
        false).1.map (·.getD first) := by
  unfold answer decide
  split
  · rename_i only ho
    have hlen := List.length_filter_le (fun i => viable g (s.lookahead pos c) follow (elements g r i)) [only]
    rw [← ho, hv, ho] at hlen
    simp at hlen
  · dsimp only
    rw [known?_of_nil rfl, hv]
    dsimp only
    split
    · rename_i f cut hf
      rw [show tryAll ⟨g, s, s.horizon pos limit⟩ pos r follow c _ .empty ⟨none, none⟩ false = _ from hf]
      rfl
    · rename_i choice cut hf
      rw [show tryAll ⟨g, s, s.horizon pos limit⟩ pos r follow c _ .empty ⟨none, none⟩ false = _ from hf]
      rfl

/-- Of at most one alternative that may begin here nothing is tried. -/
theorem answer_of_few {pos : Nat} {r : Rule} {follow : KindSet} {c : Bool}
    (hv : ∀ first second rest, (g.choices r).filter
      (fun i => viable g (s.lookahead pos c) follow (elements g r i)) ≠ first :: second :: rest)
    (limit limit' : Nat) : answer g s limit' pos r follow c = answer g s limit pos r follow c := by
  unfold answer decide
  split
  · rfl
  · dsimp only
    rw [known?_of_nil rfl, known?_of_nil rfl]
    dsimp only
    split
    · rfl
    · rfl
    · rename_i first rest hne ho
      obtain ⟨second, rest, rfl⟩ := List.exists_cons_of_ne_nil hne
      exact absurd ho (hv first second rest)

section

variable {limit limit' : Nat} (hle : limit ≤ limit') (pos : Nat)
include hle

/-- A decision comes out the same with more tokens to try, unless an alternative was spared. -/
theorem answer_eq_or_spared (r : Rule) (follow : KindSet) (c : Bool) :
    answer g s limit' pos r follow c = answer g s limit pos r follow c ∨
      ∃ i, spared g s limit pos r follow c = some i ∧ answer g s limit pos r follow c = .ok i := by
  have hfar : s.horizon pos limit ≤ s.horizon pos limit' := Stream.horizon_le pos hle
  rcases hv : (g.choices r).filter (fun i => viable g (s.lookahead pos c) follow (elements g r i)) with
    _ | ⟨first, _ | ⟨second, rest⟩⟩
  · exact .inl (answer_of_few (by simp [hv]) limit limit')
  · exact .inl (answer_of_few (by simp [hv]) limit limit')
  · unfold spared
    rw [hv, answer_of_several hv, answer_of_several hv]
    rcases tryAll_eq_or_spared (g := g) (s := s) hfar pos r follow c (first :: second :: rest) .empty
      ⟨none, none⟩ false with h | ⟨i, hi, h⟩
    · rw [h]
      exact .inl rfl
    · rw [h]
      exact .inr ⟨i, hi, rfl⟩

/-- An element is entered or not as it is with more tokens to try, unless it was spared. -/
theorem entry_eq_or_dangles (e : Element) (follow : KindSet) (c : Bool) :
    entry g s limit' pos e follow c = entry g s limit pos e follow c ∨
      dangles g s limit pos e follow c = true ∧ entry g s limit pos e follow c = .ok true := by
  have htry : Recognizer.Cuts (Recognizer.tryElement ((blank limit).recognizer g s pos) c e)
      (Recognizer.tryElement ((blank limit').recognizer g s pos) c e) :=
    have hfar : s.horizon pos limit ≤ s.horizon pos limit' := Stream.horizon_le pos hle
    Recognizer.cuts_element hfar (Recognizer.cuts_call hfar · _ ·) c e
  unfold entry enter dangles
  dsimp only
  cases (g.firstOf e).contains (s.lookahead pos c) with
  | false => exact .inl rfl
  | true =>
    cases follow.contains (s.lookahead pos c) with
    | false => exact .inl rfl
    | true =>
      obtain ⟨t, ht⟩ | ht := htry.horizon_or (.start pos .empty)
      · right
        change (((Recognizer.tryElement ((blank limit).recognizer g s pos) c e (.start pos .empty)).1 ==
          .horizon) = true) ∧ _
        rw [ht]
        exact ⟨rfl, rfl⟩
      · rw [ht]
        left
        rcases Recognizer.tryElement ((blank limit).recognizer g s pos) c e (.start pos .empty) with
          ⟨_ | _ | _ | _, t⟩ <;> rfl

end

end Resolver

/-! ### Parses with two horizons -/

namespace Task

/-- The first question of the task misleads within `limit` tokens: they do not rule out what is taken, and
it is not what is taken within `limit'` tokens. -/
def Misleads (g : Grammar) (s : Stream) (limit limit' : Nat) (task : Task) (pos : Nat) : Prop :=
  match task with
  | .body scope =>
    ∃ i, Resolver.spared g s limit pos scope.rule scope.follow scope.comments = some i ∧
      Resolver.answer g s limit' pos scope.rule scope.follow scope.comments ≠ .ok i
  | .element (.optional e) scope | .items e _ scope 0 =>
    Resolver.dangles g s limit pos e scope.follow scope.comments = true ∧
      Resolver.entry g s limit' pos e scope.follow scope.comments ≠ .ok true
  | _ => False

theorem agrees_of_not_misleads {g : Grammar} {s : Stream} {limit limit' : Nat} (hle : limit ≤ limit')
    {task : Task} {pos : Nat} (h : ¬task.Misleads g s limit limit' pos) :
    task.Agrees g s limit' limit pos := by
  have hentry : ∀ (e : Element) (scope : Scope),
      ¬(Resolver.dangles g s limit pos e scope.follow scope.comments = true ∧
        Resolver.entry g s limit' pos e scope.follow scope.comments ≠ .ok true) →
      Resolver.entry g s limit' pos e scope.follow scope.comments =
        Resolver.entry g s limit pos e scope.follow scope.comments := by
    intro e scope hn
    rcases Resolver.entry_eq_or_dangles (g := g) (s := s) hle pos e scope.follow scope.comments with
      he | ⟨hd, he⟩
    · exact he
    · rw [he]
      exact Classical.byContradiction fun hne => hn ⟨hd, hne⟩
  cases task with
  | body scope =>
    rcases Resolver.answer_eq_or_spared (g := g) (s := s) hle pos scope.rule scope.follow scope.comments with
      ha | ⟨i, hi, ha⟩
    · exact ha
    · have hne : Resolver.answer g s limit' pos scope.rule scope.follow scope.comments = .ok i :=
        Classical.byContradiction fun hne => h ⟨i, hi, hne⟩
      exact hne.trans ha.symm
  | element e scope =>
    cases e with
    | optional e => exact hentry e scope h
    | _ => trivial
  | items e _ scope need =>
    cases need with
    | zero => exact hentry e scope h
    | succ _ => trivial
  | _ => trivial

/-- The rules among whose alternatives one token may leave a choice. -/
def forks : List Rule :=
  [.namespaceMember, .classifierElement, .featureElement, .feature, .connector, .itemFlow,
    .successionItemFlow, .functionBodyMember, .relationshipElement, .subclassificationDeclaration,
    .conjugationDeclaration, .featureTypingDeclaration, .subsettingDeclaration, .redefinitionDeclaration,
    .metadataTyping, .primaryExpression, .arrowInvocationExpression, .argument]

theorem isDecisive_of_not_mem_forks {r : Rule} (hr : r ∉ forks) : kerml.isDecisive r = true := by
  have hall : ∀ r ∈ Rule.all, r ∉ forks → kerml.isDecisive r = true := by decide +kernel
  exact hall r (Rule.mem_all r) hr

theorem Misleads.mem_forks {s : Stream} {limit limit' pos : Nat} {scope : Scope}
    (h : Misleads kerml s limit limit' (.body scope) pos) : scope.rule ∈ forks := by
  obtain ⟨i, hi, -⟩ := h
  refine Classical.byContradiction fun hr => ?_
  unfold Resolver.spared at hi
  split at hi
  · rename_i first second rest hv
    exact Resolver.not_several_of_isDecisive (isDecisive_of_not_mem_forks hr) hv
  · cases hi

end Task

/-- A parse is the same with fewer tokens to try, unless it comes to a decision at which they do not rule
out what they should. Such a decision is about an element, or about the alternatives of one of a few rules. -/
theorem parseTokens_lookahead (r : Rule) (ts : List Token) {settings : Settings} (hc : settings.cancel = none)
    {limit : Nat} (hpos : 0 < limit) (hle : limit ≤ settings.lookahead) :
    parseTokens r ts (settings.withLookahead limit) = parseTokens r ts settings ∨
      ∃ task x, (Setup.ofTokens ts settings).Comes r task x ∧
        task.Misleads kerml (.ofTokens ts) limit settings.lookahead x.pos ∧
        ∀ scope, task = .body scope → scope.rule ∈ Task.forks := by
  by_cases h : ∃ task x, (Setup.ofTokens ts settings).Comes r task x ∧
      task.Misleads kerml (.ofTokens ts) limit settings.lookahead x.pos
  · obtain ⟨task, x, hx, hm⟩ := h
    exact .inr ⟨task, x, hx, hm, fun scope he => Task.Misleads.mem_forks (he ▸ hm)⟩
  · left
    have hmax : max limit 1 = limit := Nat.max_eq_left hpos
    have hmax' : max settings.lookahead 1 = settings.lookahead := Nat.max_eq_left (Nat.le_trans hpos hle)
    have hfew : parseTokens r ts { settings with lookahead := limit, caching := false } =
        parseTokens r ts settings := by
      refine parseTokens_reask r ts hc fun task x hx => ?_
      rw [hmax, hmax']
      exact Task.agrees_of_not_misleads hle fun hm => h ⟨task, x, hx, hm⟩
    have hblank : parseTokens r ts { settings with lookahead := limit, caching := false } =
        parseTokens r ts (settings.withLookahead limit) := by
      have hcl : (settings.withLookahead limit).cancel = none := hc
      have hl : (settings.withLookahead limit).lookahead = limit := hmax
      refine (parseTokens_reask r ts (l := limit) hcl fun task x _ => ?_)
      rw [hl]
      exact task.agrees_self _ _ _ _
    exact hblank.symm.trans hfew

/-- A relationship whose first name is longer than what is tried by default. Only the sign behind the name
tells its two spellings apart. -/
def longSubtype : List Token :=
  scan ("subtype " ++ String.join (List.replicate 16 "a::") ++ "a specializes b;")

/-- It can be read, but not with the number of tokens that is tried by default. -/
theorem checked_longSubtype :
    longSubtype.length = 40 ∧
      (parseTokens .rootNamespace longSubtype (Settings.standard.withLookahead 40)).1.toOption.any Parse.ok =
        true ∧
      (parseTokens .rootNamespace longSubtype .standard).1.toOption.any Parse.ok = false := by
  decide +kernel

theorem parseTokens_lookahead_subtype :
    ∃ task x, (Setup.ofTokens longSubtype (Settings.standard.withLookahead 40)).Comes .rootNamespace task x ∧
      task.Misleads kerml (.ofTokens longSubtype) 32 40 x.pos ∧
      ∀ scope, task = .body scope → scope.rule ∈ Task.forks := by
  obtain ⟨-, hfull, hfew⟩ := checked_longSubtype
  rcases parseTokens_lookahead .rootNamespace longSubtype
    (rfl : (Settings.standard.withLookahead 40).cancel = none) (by decide : 0 < 32) (by decide) with h | h
  · change parseTokens .rootNamespace longSubtype .standard = _ at h
    rw [h, hfull] at hfew
    cases hfew
  · exact h

/-- The default number of tokens is not enough for each text. -/
theorem parseTokens_shortsighted :
    ∃ p q, longSubtype.length ≤ (Settings.standard.withLookahead 40).lookahead ∧
      (parseTokens .rootNamespace longSubtype (Settings.standard.withLookahead 40)).1 = .ok p ∧
      p.ok = true ∧
      (parseTokens .rootNamespace longSubtype (Settings.standard.withLookahead 32)).1 = .ok q ∧
      q.ok = false := by
  obtain ⟨hlen, hfull, hfew⟩ := checked_longSubtype
  obtain ⟨p, hp⟩ := parseTokens_answers .rootNamespace longSubtype
    (rfl : (Settings.standard.withLookahead 40).cancel = none)
  obtain ⟨q, hq⟩ := parseTokens_answers .rootNamespace longSubtype (rfl : Settings.standard.cancel = none)
  rw [hp] at hfull
  rw [hq] at hfew
  exact ⟨p, q, Nat.le_of_eq hlen, hp, hfull, hq, hfew⟩

end KermlText
