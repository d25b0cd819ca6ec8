import KermlText.Proofs.Cancellation

/-! What holds of every session of a parse because of where each step is made. Where a parse is at work, its
task says: what is known of a task is passed on to those that it leads to, and a step may count on what is
known of the task that makes it. An invariant is then a matter of the single steps, each at its site. -/

namespace KermlText

/-- The kinds of token that the element asks for, if it asks for a token. -/
def Element.wanted? : Element → Option KindSet
  | .token k | .relation k _ => some (.single k)
  | .oneOf ks => some ks
  | _ => none

/-! ### Records -/

namespace Event

/-- Whether the event is that a token was taken, matched or skipped. -/
def isTaken : Event → Bool
  | .matched _ | .skipped _ _ => true
  | _ => false

/-- Each event is as `q` says, which may depend on those before it. The latest comes first. -/
def Each (q : Event → List Event → Prop) : List Event → Prop
  | [] => True
  | e :: es => q e es ∧ Each q es

variable {q : Event → List Event → Prop} {es fs : List Event}

theorem Each.of_append (h : Each q (fs ++ es)) : Each q es := by
  induction fs with
  | nil => exact h
  | cons _ _ ih => exact ih h.2

/-- What holds of a record holds of what was on record earlier. -/
theorem Each.of_suffix (h : Each q fs) (hs : es <:+ fs) : Each q es := by
  obtain ⟨late, rfl⟩ := hs
  exact h.of_append

theorem Each.behind {e : Event} (h : Each q (fs ++ e :: es)) : q e es := (of_append h).1

theorem Each.append (h : Each q es) (hfs : ∀ late e early, fs = late ++ e :: early → q e (early ++ es)) :
    Each q (fs ++ es) := by
  induction fs with
  | nil => exact h
  | cons e fs ih =>
    exact ⟨hfs [] e fs rfl, ih fun late e' early he => hfs (e :: late) e' early (congrArg (e :: ·) he)⟩

end Event

/-- What is skipped is on record, token by token. -/
theorem Session.journal_skippedOver (x : Session) (context : KindSet) (places : List Nat) :
    (x.skippedOver context places).journal =
      (places.map fun i => Event.skipped i context).reverse ++ x.journal := by
  unfold skippedOver
  split
  · rename_i hl
    rw [List.getLast?_eq_none_iff.1 hl]
    rfl
  · rfl

/-- Only tokens that are skipped are put on record then. -/
theorem Event.exists_of_mem_skipped {e : Event} {context : KindSet} {places : List Nat}
    (h : e ∈ (places.map fun i => Event.skipped i context).reverse) :
    ∃ i ∈ places, e = .skipped i context := by
  obtain ⟨i, hi, rfl⟩ := List.mem_map.1 (List.mem_reverse.1 h)
  exact ⟨i, hi, rfl⟩

/-- A report is on record, whether it was made or dropped, unless there are enough errors. -/
theorem Setup.journal_reported {q : List Event → Prop} (u : Setup) (code : Code) (r : Rule)
    (expected : KindSet) {x : Session} (h : q x.journal) (hs : q (.suppressed :: x.journal))
    (hr : q (.reported :: x.journal)) : q (u.reported code r expected x).journal := by
  unfold reported
  split
  · exact hs
  · split
    · exact h
    · exact hr

namespace Setup

open Session

/-- What `c` says of a task it says of all tasks that this one leads to. -/
structure Passes (u : Setup) (c : Task → Session → Prop) : Prop where
  rule {r scope x} : c (.element (.rule r) scope) x → c (.call r 0 scope) x
  ruleAt {r level scope x} : c (.element (.ruleAt r level) scope) x → c (.call r level scope) x
  present {e scope x y} : u.enter scope e x = .ok true y → c (.element (.optional e) scope) x →
    c (.element e scope) y
  repeated {e least resync scope x} : c (.element (.repeated e least resync) scope) x →
    c (.items e resync scope least) x
  seq {es scope x} : c (.element (.seq es) scope) x → c (.row es scope) x
  labeled {name many e scope x} : c (.element (.labeled name many e) scope) x → c (.element e scope) x
  head {e es scope x} : c (.row (e :: es) scope) x → c (.element e (u.before es scope)) x
  tail {e es scope x y} : c (.row (e :: es) scope) x → c (.row es scope) y
  item {e resync scope need x y} : u.enterItem scope e need x.checked = .ok true y →
    c (.items e resync scope need) x → c (.element e (u.within e scope)) y
  round {e resync scope need need' x y} : c (.items e resync scope need) x →
    c (.items e resync scope need') y
  chosen {scope i x y} : i ∈ u.grammar.choices scope.rule → c (.body scope) x →
    c (.row (Resolver.elements u.grammar scope.rule i) scope) y
  opened {r level scope x depth} : u.grammar.table? r = none → c (.call r level scope) x →
    c (.body (u.inside r scope)) ((x.called r scope).noted (.opened depth))
  operand {r level scope table x depth} : u.grammar.table? r = some table → c (.call r level scope) x →
    c (.body (operandScope r table scope)) ((x.called r scope).noted (.opened depth))
  operators {r level scope table left x y} : u.grammar.table? r = some table → c (.call r level scope) x →
    c (.operators table level (operandScope r table scope) left) y
  right {table level scope left tier q x y} :
    table.lookup (u.stream.kind x.pos) = some (tier, q) → tier.form = .binary →
    c (.operators table level scope left) x → c (.call scope.rule tier.operandLevel scope) y
  rest {table level scope left tier q x y} :
    table.lookup (u.stream.kind x.pos) = some (tier, q) → tier.form ≠ .binary →
    c (.operators table level scope left) x → c (.body { scope with rule := q }) y
  next {table level scope left left' x y} : c (.operators table level scope left) x →
    c (.operators table level scope left') y

/-- What is known of tasks by different ways is known of them together. -/
theorem Passes.and {u : Setup} {c d : Task → Session → Prop} (hc : u.Passes c) (hd : u.Passes d) :
    u.Passes fun task x => c task x ∧ d task x where
  rule h := ⟨hc.rule h.1, hd.rule h.2⟩
  ruleAt h := ⟨hc.ruleAt h.1, hd.ruleAt h.2⟩
  present he h := ⟨hc.present he h.1, hd.present he h.2⟩
  repeated h := ⟨hc.repeated h.1, hd.repeated h.2⟩
  seq h := ⟨hc.seq h.1, hd.seq h.2⟩
  labeled h := ⟨hc.labeled h.1, hd.labeled h.2⟩
  head h := ⟨hc.head h.1, hd.head h.2⟩
  tail h := ⟨hc.tail h.1, hd.tail h.2⟩
  item he h := ⟨hc.item he h.1, hd.item he h.2⟩
  round h := ⟨hc.round h.1, hd.round h.2⟩
  chosen hi h := ⟨hc.chosen hi h.1, hd.chosen hi h.2⟩
  opened ht h := ⟨hc.opened ht h.1, hd.opened ht h.2⟩
  operand ht h := ⟨hc.operand ht h.1, hd.operand ht h.2⟩
  operators ht h := ⟨hc.operators ht h.1, hd.operators ht h.2⟩
  right hl hform h := ⟨hc.right hl hform h.1, hd.right hl hform h.2⟩
  rest hl hform h := ⟨hc.rest hl hform h.1, hd.rest hl hform h.2⟩
  next h := ⟨hc.next h.1, hd.next h.2⟩

/-- Nothing has to be known of the tasks. -/
theorem passes_true (u : Setup) : u.Passes fun _ _ => True := by
  constructor <;> intros <;> trivial

section

variable (u : Setup) (c : Task → Session → Prop)

/-- The reports of the tasks that `c` allows, each with the session in which it is made. -/
inductive Reports : Session → Code → Rule → KindSet → Prop
  | missing {e scope set x} (hc : c (.element e scope) x) (he : e.wanted? = some set)
      (hne : set ≠ endKinds) (hs : u.stream.stands x.pos set = false) :
      Reports x (missing set (u.stream.kind x.pos)) scope.rule set
  | trailing {e scope x} (hc : c (.element e scope) x) (he : e.wanted? = some endKinds)
      (hend : u.stream.atEnd x.pos = false) : Reports x .trailingInput scope.rule endKinds
  | comment {scope x} (hc : c (.element .comment scope) x) (hi : u.stream.comment? x.pos = none) :
      Reports x .missingToken scope.rule (.single .blockComment)
  | stuck {n e resync scope need x b y z b'} (hf : u.Fit x) (hc : c (.items e resync scope need) x)
      (he : u.enterItem scope e need x.checked = .ok true y)
      (h : u.Runs n (.element e (u.within e scope)) y b z b') (hz : z.pos = x.pos)
      (hk : stops resync scope (u.stream.kind z.pos) = false) :
      Reports z .unexpectedToken scope.rule (scope.follow ∪ u.grammar.firstOf e)
  | stray {e resync scope need x y} (hc : c (.items e resync scope need) x)
      (he : u.enterItem scope e need x.checked = .ok false y)
      (hk : u.leaves e resync scope (u.stream.lookahead y.pos scope.comments) = false) :
      Reports y .unexpectedToken scope.rule (scope.follow ∪ u.grammar.firstOf e)
  | lost {scope x r place offset expected k y} (hc : c (.body scope) x)
      (hd : u.decide scope (x.noted (.asked scope.rule scope.follow)) =
        .ok (.error (.noAlternative r place offset expected k)) y) :
      Reports y .noAlternative scope.rule expected
  | refused {r level scope x} (hc : c (.call r level scope) x) :
      Reports (x.called r scope) .nestingTooDeep r (u.grammar.first r)

/-- What the tasks that `c` allows skip: inside which lists, up to which kinds, and how many tokens at most. -/
inductive Skips : Session → KindSet → KindSet → Nat → Prop
  | missing {scope : Scope} {set code x} :
      Skips (u.reported code scope.rule set x) scope.context
        (set ∪ scope.follow ∪ scope.context ∪ endKinds) u.stream.size
  | trailing {e scope x} (hc : c (.element e scope) x) (he : e.wanted? = some endKinds) :
      Skips (u.reported .trailingInput scope.rule endKinds x) scope.context endKinds u.stream.size
  | stuck {n e resync scope need x b y z b'} (hf : u.Fit x) (hc : c (.items e resync scope need) x)
      (he : u.enterItem scope e need x.checked = .ok true y)
      (h : u.Runs n (.element e (u.within e scope)) y b z b') (hz : z.pos = x.pos)
      (hk : stops resync scope (u.stream.kind z.pos) = false) :
      Skips (u.reported .unexpectedToken scope.rule (scope.follow ∪ u.grammar.firstOf e) z) scope.context
        ∅ 1
  | stray {e resync scope need x y} (hc : c (.items e resync scope need) x)
      (he : u.enterItem scope e need x.checked = .ok false y)
      (hk : u.leaves e resync scope (u.stream.lookahead y.pos scope.comments) = false) :
      Skips (u.reported .unexpectedToken scope.rule (scope.follow ∪ u.grammar.firstOf e) y) scope.context
        (scope.follow ∪ u.grammar.firstOf e ∪ endKinds) u.stream.size
  | recovered {scope : Scope} {r x} :
      Skips x scope.context (scope.follow ∪ u.grammar.follow r ∪ scope.context ∪ endKinds) u.stream.size

/-- No step of a task that `c` allows breaks `p`. -/
structure Upholds (p : Session → Prop) : Prop where
  called {r level scope x} : c (.call r level scope) x → p x → p (x.noted (.called r scope.follow))
  asked {scope x} : c (.body scope) x → p x → p (x.noted (.asked scope.rule scope.follow))
  opened {depth x} : p x → p (x.noted (.opened depth))
  again {before after x} : p x → p (x.noted (.again before after))
  checked {x} : p x → p x.checked
  decided {x} (z : Resolver) : p x → p (x.asked z)
  matched {place x} : x.pos ≤ place → p x → p (x.matchedAt place)
  operated {table level scope left tier q x} : u.Fit x → c (.operators table level scope left) x →
    table.lookup (u.stream.kind x.pos) = some (tier, q) → p x.checked →
    p (x.checked.operatedAt (u.stream.settle x.pos))
  reported {code r expected x} : u.Fit x → u.Reports c x code r expected → p x →
    p (u.reported code r expected x)
  skipped {context sync n x} : u.Fit x → u.Skips c x context sync n → p x →
    p (x.skippedOver context (u.stream.placesUpTo sync n x.pos))
  gaveUp {scope set x} : p (u.missed scope set x) → p { u.missed scope set x with recovering := true }

end

variable {u : Setup} {c : Task → Session → Prop} {p : Session → Prop}

namespace Upholds

variable (hp : u.Upholds c p) {x x' : Session} {b b' : Builder} (hf : u.Fit x) (hx : p x)
include hp hf hx

/-- Skipping starts where the report was made, which has not moved. -/
theorem strayed {code : Code} {r : Rule} {expected context sync : KindSet} {n : Nat}
    (hr : u.Reports c x code r expected)
    (hs : u.Skips c (u.reported code r expected x) context sync n) :
    p ((u.reported code r expected x).skippedOver context (u.stream.placesUpTo sync n x.pos)) := by
  have h := hp.skipped ((Advances.refl hf).reported code r expected).fit hs (hp.reported hf hr hx)
  rwa [reported_pos] at h

theorem missed {e : Element} {scope : Scope} {set : KindSet} (hc : c (.element e scope) x)
    (he : e.wanted? = some set) (hne : set ≠ endKinds) (hs : u.stream.stands x.pos set = false) :
    p (u.missed scope set x) :=
  hp.strayed hf hx (.missing hc he hne hs) .missing

theorem expectEnd {e : Element} {scope : Scope} (hc : c (.element e scope) x)
    (he : e.wanted? = some endKinds) (h : u.expectEnd scope scope.rule b x = .ok b' x') : p x' := by
  rw [expectEnd_eq] at h
  split at h
  · cases h
    exact hx
  · rename_i hend
    rw [Bool.not_eq_true] at hend
    cases h
    exact hp.strayed hf hx (.trailing hc he hend) (.trailing hc he)

theorem expect (hu : u.Regular) {e : Element} {scope : Scope} {set : KindSet} (hc : c (.element e scope) x)
    (he : e.wanted? = some set) (h : u.expect scope set b x = .ok b' x') : p x' := by
  have hmatched : ∀ {y}, u.Fit y → p y → p (y.matchedAt (u.stream.settle y.pos)) := fun hy hpy =>
    hp.matched (u.stream.le_settle hy.inside) hpy
  rw [expect_eq hu] at h
  split at h
  · rename_i hset
    subst hset
    exact hp.expectEnd hf hx hc he h
  · rename_i hset
    split at h
    · cases h
      exact hmatched hf hx
    · rename_i hs
      rw [Bool.not_eq_true] at hs
      have hy := hp.missed hf hx hc he hset hs
      have hyf := ((Advances.refl hf).missed scope set).fit
      dsimp only at h
      split at h
      · cases h
        exact hmatched hyf hy
      · cases h
        exact hp.gaveUp hy

theorem expectComment {scope : Scope} (hc : c (.element .comment scope) x)
    (h : u.expectComment scope b x = .ok b' x') : p x' := by
  rw [expectComment_eq] at h
  split at h
  · rename_i i hi
    cases h
    exact hp.matched (u.stream.comment?_some hi).1 hx
  · rename_i hi
    cases h
    exact hp.reported hf (.comment hc hi) hx

theorem recover {scope : Scope} {r : Rule} (h : u.recover scope r b x = .ok b' x') : p x' := by
  rw [recover_eq] at h
  cases h
  exact hp.skipped hf .recovered hx

omit hf in
theorem enter {scope : Scope} {e : Element} {d : Bool} (h : u.enter scope e x = .ok d x') : p x' := by
  obtain ⟨-, rfl⟩ := enter_ok h
  exact hp.decided _ hx

omit hf in
theorem enterItem {scope : Scope} {e : Element} {need : Nat} {d : Bool}
    (h : u.enterItem scope e need x = .ok d x') : p x' := by
  rcases enterItem_ok h with ⟨-, -, rfl⟩ | ⟨-, h⟩
  · exact hx
  · exact hp.enter hx h

omit hf in
theorem decide {scope : Scope} {d : Except Failure Nat} (h : u.decide scope x = .ok d x') : p x' := by
  rw [decide_eq] at h
  cases h
  exact hp.decided _ hx

end Upholds

theorem Fit.opened {x : Session} (hf : u.Fit x) (r : Rule) (scope : Scope) (e : Event) :
    u.Fit ((x.called r scope).noted e) :=
  ⟨hf.inside, hf.valid⟩

/-- What holds where a run begins, and is broken by no step of it, holds where it ends. -/
theorem Runs.upholds (hu : u.Regular) (hc : u.Passes c) (hp : u.Upholds c p) {n : Nat} {task : Task}
    {x x' : Session} {b b' : Builder} (h : u.Runs n task x b x' b') (hf : u.Fit x) (ht : c task x)
    (hx : p x) : p x' := by
  induction h with
  | token h | relation h | oneOf h => exact hp.expect hf hx hu ht rfl h
  | comment h => exact hp.expectComment hf hx ht h
  | rule _ ih => exact ih hf (hc.rule ht) hx
  | ruleAt _ ih => exact ih hf (hc.ruleAt ht) hx
  | present he _ ih => exact ih ((Advances.refl hf).enter he).fit (hc.present he ht) (hp.enter hx he)
  | absent he => exact hp.enter hx he
  | repeated _ ih => exact ih hf (hc.repeated ht) hx
  | seq _ ih => exact ih hf (hc.seq ht) hx
  | labeled _ ih => exact ih hf (hc.labeled ht) hx
  | nil => exact hx
  | cons h1 _ ih1 ih2 =>
    exact ih2 (h1.advances hu hf).fit (hc.tail ht) (ih1 hf (hc.head ht) hx)
  | moved he h1 _ _ ih1 ih2 =>
    have hy := ((Advances.refl hf).checked.enterItem he).fit
    have hz := ih1 hy (hc.item he ht) (hp.enterItem (hp.checked hx) he)
    exact ih2 ((h1.advances hu hy).noted _).fit (hc.round ht) (hp.again hz)
  | stuck he _ _ _ ih =>
    exact ih ((Advances.refl hf).checked.enterItem he).fit (hc.item he ht)
      (hp.enterItem (hp.checked hx) he)
  | freed he h1 hz hk hw _ ih1 ih2 =>
    have hy := ((Advances.refl hf).checked.enterItem he).fit
    have hz' := h1.advances hu hy
    have hpz := ih1 hy (hc.item he ht) (hp.enterItem (hp.checked hx) he)
    subst hw
    refine ih2 ((hz'.strayed _ _ _ _ _ _).noted _).fit (hc.round ht) (hp.again ?_)
    exact hp.strayed hz'.fit hpz (.stuck hf ht he h1 hz hk) (.stuck hf ht he h1 hz hk)
  | ended he _ => exact hp.enterItem (hp.checked hx) he
  | resumed he hk hw _ ih =>
    have hy := (Advances.refl hf).checked.enterItem he
    have hpy := hp.enterItem (hp.checked hx) he
    subst hw
    refine ih ((hy.strayed _ _ _ _ _ _).noted _).fit (hc.round ht) (hp.again ?_)
    exact hp.strayed hy.fit hpy (.stray ht he hk) (.stray ht he hk)
  | chosen hd hi _ ih =>
    exact ih (((Advances.refl hf).noted _).decide hu hd).fit (hc.chosen hi ht)
      (hp.decide (hp.asked ht hx) hd)
  | lost hd h =>
    have hy := ((Advances.refl hf).noted _).decide hu hd
    have hr := hp.reported hy.fit (.lost ht hd) (hp.decide (hp.asked ht hx) hd)
    exact hp.recover (hy.reported _ _ _).fit hr h
  | @refused r _ scope _ _ _ _ h =>
    have hy := (Advances.refl hf).called r scope
    have hr := hp.reported hy.fit (.refused ht) (hp.checked (hp.called ht hx))
    exact hp.recover (hy.reported _ _ _).fit hr h
  | inlined htable _ _ ih | wrapped htable _ _ ih =>
    exact ih (hf.opened _ _ _) (hc.opened htable ht)
      (hp.opened (hp.checked (hp.called ht hx)))
  | climbed htable h1 _ ih1 ih2 =>
    have hpy := ih1 (hf.opened _ _ _) (hc.operand htable ht) (hp.opened (hp.checked (hp.called ht hx)))
    exact ih2 (h1.advances hu (hf.opened _ _ _)).fit (hc.operators htable ht) hpy
  | done _ => exact hx
  | binary hl _ hform he h1 _ ih1 ih2 =>
    have hy := ((Advances.refl hf).checked.operatedAt he).fit
    have hpy := ih1 hy (hc.right hl hform ht) (hp.operated hf ht hl (hp.checked hx))
    exact ih2 (h1.advances hu hy).fit (hc.next ht) hpy
  | suffix hl _ hform he h1 _ ih1 ih2 =>
    have hy := ((Advances.refl hf).checked.operatedAt he).fit
    have hpy := ih1 hy (hc.rest hl hform ht) (hp.operated hf ht hl (hp.checked hx))
    exact ih2 (h1.advances hu hy).fit (hc.next ht) hpy

/-! ### Runs that take nothing -/

/-- No step breaks `q` but those that take a token. -/
structure Lasts (u : Setup) (q : Session → Prop) : Prop where
  noted {e x} : e.isTaken = false → q x → q (x.noted e)
  checked {x} : q x → q x.checked
  decided {x} (z : Resolver) : q x → q (x.asked z)
  reported {x} (code : Code) (r : Rule) (expected : KindSet) : q x → q (u.reported code r expected x)
  recovers {x} : q x → q { x with recovering := true }

namespace Lasts

variable {q : Session → Prop} (hq : u.Lasts q)
include hq

/-- What lasts holds as long as the parse is where it was. -/
theorem upholds (pos : Nat) :
    u.Upholds (fun _ _ => True) fun x => pos ≤ x.pos ∧ (x.pos = pos → q x) where
  called _ h := ⟨h.1, fun hp => hq.noted rfl (h.2 hp)⟩
  asked _ h := ⟨h.1, fun hp => hq.noted rfl (h.2 hp)⟩
  opened h := ⟨h.1, fun hp => hq.noted rfl (h.2 hp)⟩
  again h := ⟨h.1, fun hp => hq.noted rfl (h.2 hp)⟩
  checked h := ⟨h.1, fun hp => hq.checked (h.2 hp)⟩
  decided z h := ⟨h.1, fun hp => hq.decided z (h.2 hp)⟩
  matched {place x} hle h := by
    have hlt : pos < (x.matchedAt place).pos := Nat.lt_succ_of_le (Nat.le_trans h.1 hle)
    exact ⟨Nat.le_of_lt hlt, fun hp => absurd hp (Nat.ne_of_gt hlt)⟩
  operated {table level scope left tier r x} hf _ _ h := by
    have hle : pos ≤ x.pos := h.1
    have hlt : pos < (x.checked.operatedAt (u.stream.settle x.pos)).pos :=
      Nat.lt_succ_of_le (Nat.le_trans hle (u.stream.le_settle hf.inside))
    exact ⟨Nat.le_of_lt hlt, fun hp => absurd hp (Nat.ne_of_gt hlt)⟩
  reported _ _ h := by
    rw [reported_pos]
    exact ⟨h.1, fun hp => hq.reported _ _ _ (h.2 hp)⟩
  skipped {context sync n x} hf _ h := by
    by_cases hplaces : u.stream.placesUpTo sync n x.pos = []
    · rw [hplaces]
      exact h
    · have hlt := Nat.lt_of_le_of_lt h.1 (lt_skippedOver context hf.inside hplaces)
      exact ⟨Nat.le_of_lt hlt, fun hp => absurd hp (Nat.ne_of_gt hlt)⟩
  gaveUp h := ⟨h.1, fun hp => hq.recovers (h.2 hp)⟩

variable (hu : u.Regular) {n : Nat} {x x' : Session} {b b' : Builder} (hf : u.Fit x) (hp : x'.pos = x.pos)
include hu hf hp

theorem run {task : Task} (h : u.Runs n task x b x' b') (hx : q x) : q x' :=
  (h.upholds hu u.passes_true (hq.upholds x.pos) hf trivial ⟨Nat.le_refl _, fun _ => hx⟩).2 hp

end Lasts

/-! ### Whole parses -/

theorem Regular.unsignalled (hu : u.Regular) : u.unsignalled.Regular := ⟨hu.eof, hu.founded⟩

/-- What nothing can call off ends with a tree. -/
theorem rooted_unsignalled (hu : u.Regular) (r : Rule) :
    ∃ m, u.unsignalled.Rooted r m (u.unsignalled.last r) := by
  have he := ends_root hu.unsignalled r
  unfold Ends at he
  rw [← Setup.run] at he
  unfold last
  rcases hr : u.unsignalled.run r with ⟨m, x⟩ | ⟨f, x⟩
  · rw [hr] at he
    exact ⟨m, he⟩
  · rw [hr] at he
    exact absurd rfl he.2

/-- What holds at the start and is broken by no step holds where a parse ends that nothing can call off. Of
one that is called off this much is known, that it has done a part of it. -/
theorem Upholds.last (hu : u.Regular) (hc : u.unsignalled.Passes c) (hp : u.unsignalled.Upholds c p)
    (h0 : p (.start u.settings)) (r : Rule) (hr : c (.call r 0 (u.rootScope r)) (.start u.settings))
    (hend : ∀ y, c (.element (.token .eof) (u.rootScope r)) y) : p (u.unsignalled.last r) := by
  obtain ⟨m, y, b, b', hrun, he, -⟩ := rooted_unsignalled hu r
  have hy := hrun.upholds hu.unsignalled hc hp (fit_start _) hr h0
  have hf := (hrun.advances hu.unsignalled (fit_start _)).fit
  exact hp.expectEnd hf hy (hend y) rfl he

end Setup

end KermlText
