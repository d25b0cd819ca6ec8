import KermlText.Proofs.Reached
import KermlText.Proofs.Recall
import KermlText.Proofs.Unique

/-! A parse depends on the memory of its resolver, and on how many tokens it tries, through the answers it
gets only. If the questions that a parse comes to are answered in the same way without memory, or with other
trials, the parse is the same. Memory changes no answer, so it changes no parse. -/

namespace KermlText

/-- What is skipped is the next token, or it is behind that. -/
theorem Stream.settle_le_of_mem_placesUpTo {s : Stream} {sync : KindSet} {n pos i : Nat}
    (h : i ∈ s.placesUpTo sync n pos) : s.settle pos ≤ i := by
  induction n generalizing pos with
  | zero => simp [placesUpTo] at h
  | succ n ih =>
    unfold placesUpTo at h
    rcases he : s.atEnd pos with _ | _
    · rw [s.next?_of_not_atEnd he] at h
      dsimp only at h
      split at h
      · simp at h
      · rcases List.mem_cons.1 h with rfl | h
        · exact Nat.le_refl _
        · exact Nat.le_trans (Nat.le_of_lt (s.lt_settle_succ he)) (ih h)
    · simp [s.next?_of_atEnd he] at h

namespace Setup

open Session

/-- The same parse, with another number of tokens to try or another use of memory. -/
def recast (u : Setup) (lookahead : Nat) (caching : Bool) : Setup :=
  { u with settings := { u.settings with lookahead := lookahead, caching := caching } }

/-! ### Steps that ask nothing -/

section

variable {u : Setup} {l : Nat} {m : Bool} {x x' : Session} {b b' : Builder} (z : Resolver)

theorem reported_asked (code : Code) (r : Rule) (expected : KindSet) :
    u.reported code r expected (x.asked z) = (u.reported code r expected x).asked z := by
  unfold reported
  change (if x.recovering then _ else _) = _
  split
  · rfl
  · change (if u.settings.maxErrors.any (fun n => n ≤ x.errors.length) then _ else _) = _
    split <;> rfl

theorem skippedOver_asked (context : KindSet) (places : List Nat) :
    (x.asked z).skippedOver context places = (x.skippedOver context places).asked z := by
  unfold skippedOver
  split <;> rfl

theorem missed_asked (scope : Scope) (set : KindSet) :
    u.missed scope set (x.asked z) = (u.missed scope set x).asked z := by
  unfold missed
  rw [← skippedOver_asked, ← reported_asked]
  rfl

variable {z}

theorem expectEnd_asked {scope : Scope} {r : Rule} (h : u.expectEnd scope r b x = .ok b' x') :
    u.expectEnd scope r b (x.asked z) = .ok b' (x'.asked z) := by
  rw [expectEnd_eq] at h ⊢
  change (if u.stream.atEnd x.pos then _ else _) = _
  split at h
  · rename_i he
    cases h
    rw [if_pos he]
  · rename_i he
    cases h
    rw [if_neg he, reported_asked, skippedOver_asked]
    rfl

theorem expect_asked (hu : u.Regular) {scope : Scope} {set : KindSet}
    (h : u.expect scope set b x = .ok b' x') : u.expect scope set b (x.asked z) = .ok b' (x'.asked z) := by
  rw [expect_eq hu] at h ⊢
  split at h
  · rename_i hs
    rw [if_pos hs]
    exact expectEnd_asked h
  · rename_i hs
    rw [if_neg hs]
    change (if u.stream.stands x.pos set then _ else _) = _
    split at h
    · rename_i hst
      cases h
      rw [if_pos hst]
      rfl
    · rename_i hst
      rw [if_neg hst]
      dsimp only at h ⊢
      rw [missed_asked]
      change (if u.stream.stands (u.missed scope set x).pos set then _ else _) = _
      split at h
      · rename_i hst'
        cases h
        rw [if_pos hst']
        rfl
      · rename_i hst'
        cases h
        rw [if_neg hst']
        rfl

theorem recover_asked {scope : Scope} {r : Rule} (h : u.recover scope r b x = .ok b' x') :
    u.recover scope r b (x.asked z) = .ok b' (x'.asked z) := by
  rw [recover_eq] at h ⊢
  cases h
  dsimp only
  rw [skippedOver_asked]
  rfl

theorem expectComment_asked {scope : Scope} (h : u.expectComment scope b x = .ok b' x') :
    u.expectComment scope b (x.asked z) = .ok b' (x'.asked z) := by
  have hpos : (x.asked z).pos = x.pos := rfl
  rw [expectComment_eq] at h ⊢
  rw [hpos]
  rcases hi : u.stream.comment? x.pos with _ | i <;> rw [hi] at h <;> cases h
  · exact congrArg _ (reported_asked _ _ _ _)
  · rfl

end

/-! ### Steps that take or skip tokens -/

/-- The next token is still the next one, or it was taken or skipped. -/
structure Onward (u : Setup) (x y : Session) : Prop where
  resolver : y.resolver = x.resolver
  pos : y.pos = x.pos ∨ u.stream.settle x.pos < u.stream.settle y.pos

namespace Onward

variable {u : Setup} {x y z : Session}

theorem trans (h1 : u.Onward x y) (h2 : u.Onward y z) : u.Onward x z := by
  refine ⟨h2.resolver.trans h1.resolver, ?_⟩
  rcases h1.pos with h1 | h1
  · exact h1 ▸ h2.pos
  · rcases h2.pos with h2 | h2
    · exact .inr (h2 ▸ h1)
    · exact .inr (Nat.lt_trans h1 h2)

theorem matchedAt (he : u.stream.atEnd x.pos = false) :
    u.Onward x (x.matchedAt (u.stream.settle x.pos)) :=
  ⟨rfl, .inr (u.stream.lt_settle_succ he)⟩

theorem operatedAt (he : u.stream.atEnd x.pos = false) :
    u.Onward x (x.checked.operatedAt (u.stream.settle x.pos)) :=
  ⟨rfl, .inr (u.stream.lt_settle_succ he)⟩

theorem reported (code : Code) (r : Rule) (expected : KindSet) :
    u.Onward x (u.reported code r expected x) :=
  ⟨by simp, .inl (by simp)⟩

theorem skippedOver (hx : x.pos ≤ u.stream.size) (context sync : KindSet) (n : Nat) :
    u.Onward x (x.skippedOver context (u.stream.placesUpTo sync n x.pos)) := by
  refine ⟨by simp, ?_⟩
  unfold Session.skippedOver
  split
  · exact .inl rfl
  · rename_i last hl
    have hle := Stream.settle_le_of_mem_placesUpTo (List.mem_of_getLast? hl)
    exact .inr (Nat.lt_of_lt_of_le (Nat.lt_succ_of_le hle)
      (u.stream.le_settle (u.stream.kept_placesUpTo hx hl).le_size))

/-- Reporting does not move, so it does not matter whether tokens are skipped from before it. -/
theorem strayed (hx : x.pos ≤ u.stream.size) (code : Code) (r : Rule) (expected context sync : KindSet)
    (n : Nat) :
    u.Onward x ((u.reported code r expected x).skippedOver context (u.stream.placesUpTo sync n x.pos)) := by
  have h := (reported (u := u) (x := x) code r expected).trans
    (skippedOver (by simpa using hx) context sync n)
  rwa [reported_pos] at h

theorem expectEnd (hx : x.pos ≤ u.stream.size) {scope : Scope} {r : Rule} {b b' : Builder}
    (h : u.expectEnd scope r b x = .ok b' y) : u.Onward x y := by
  rw [expectEnd_eq] at h
  split at h
  · cases h
    exact ⟨rfl, .inl rfl⟩
  · cases h
    exact strayed hx _ _ _ _ _ _

theorem expect (hu : u.Regular) (hx : x.pos ≤ u.stream.size) {scope : Scope} {set : KindSet}
    {b b' : Builder} (h : u.expect scope set b x = .ok b' y) : u.Onward x y := by
  have hm : u.Onward x (u.missed scope set x) := strayed hx _ _ _ _ _ _
  rw [expect_eq hu] at h
  split at h
  · exact expectEnd hx h
  · split at h
    · rename_i hst
      cases h
      exact matchedAt (Stream.not_atEnd_of_stands hu.eof hst)
    · dsimp only at h
      split at h
      · rename_i hst
        cases h
        exact hm.trans (matchedAt (Stream.not_atEnd_of_stands hu.eof hst))
      · cases h
        exact ⟨hm.resolver, hm.pos⟩

theorem recover (hx : x.pos ≤ u.stream.size) {scope : Scope} {r : Rule} {b b' : Builder}
    (h : u.recover scope r b x = .ok b' y) : u.Onward x y := by
  rw [recover_eq] at h
  cases h
  exact skippedOver hx _ _ _

end Onward

/-- The resolver of the session remembers rightly what it remembers of the next token. -/
def Recalls (u : Setup) (keys : KindSet) (limit : Nat) (seeing : Bool) (x : Session) : Prop :=
  x.resolver.Recalls u.grammar u.stream keys limit seeing x.pos

namespace Recalls

variable {u : Setup} {keys : KindSet} {limit : Nat} {seeing : Bool} {x y : Session}

theorem onward (h : u.Recalls keys limit seeing x) (hy : u.Onward x y) : u.Recalls keys limit seeing y := by
  unfold Recalls at h ⊢
  rw [hy.resolver]
  rcases hy.pos with hp | hp
  · rwa [hp]
  · exact Resolver.Recalls.passed h hp seeing

theorem expectComment (h : u.Recalls keys limit true x) {scope : Scope} {b b' : Builder}
    (he : u.expectComment scope b x = .ok b' y) : u.Recalls keys limit true y := by
  rw [expectComment_eq] at he
  split at he
  · rename_i i hi
    cases he
    obtain ⟨h1, h2, -⟩ := u.stream.comment?_some hi
    exact Resolver.Recalls.beside h rfl (u.stream.settle_eq_of_between (Nat.le_succ_of_le h1) h2)
  · cases he
    exact h.onward (.reported _ _ _)

end Recalls

end Setup

/-! ### Questions in runs -/

/-- The first question of the task is answered in the same way whichever of two numbers of tokens is
tried. -/
def Task.Agrees (g : Grammar) (s : Stream) (limit limit' : Nat) (task : Task) (pos : Nat) : Prop :=
  match task with
  | .body scope =>
    Resolver.answer g s limit pos scope.rule scope.follow scope.comments =
      Resolver.answer g s limit' pos scope.rule scope.follow scope.comments
  | .element (.optional e) scope | .items e _ scope 0 =>
    Resolver.entry g s limit pos e scope.follow scope.comments =
      Resolver.entry g s limit' pos e scope.follow scope.comments
  | _ => True

theorem Task.agrees_self (g : Grammar) (s : Stream) (limit : Nat) (task : Task) (pos : Nat) :
    task.Agrees g s limit limit pos := by
  unfold Agrees
  split
  · rfl
  · rfl
  · rfl
  · trivial

/-- The task stays inside the rules `seers` if `seeing`, and looks for no comment if not. -/
def Task.Sight (g : Grammar) (seers : List Rule) : Bool → Task → Prop
  | true, .element e _ | true, .items e _ _ _ => e.all (·.within seers) = true
  | true, .row es _ => rowAll (·.within seers) es = true
  | true, .body scope => scope.rule ∈ seers
  | true, .call r _ _ => r ∈ seers
  | true, .operators _ _ _ _ => False
  | false, .element e scope | false, .items e _ scope _ =>
    scope.comments = false ∧ e.unaware g.aware = true
  | false, .row es scope => scope.comments = false ∧ allUnaware g.aware es = true
  | false, .body scope => scope.comments = false ∧ g.aware scope.rule = false
  | false, .call r _ scope => scope.comments = false ∧ g.aware r = false
  | false, .operators table _ scope _ =>
    scope.comments = false ∧ g.aware scope.rule = false ∧ g.table? scope.rule = some table

namespace Task

variable {g : Grammar} {seers : List Rule} {seeing : Bool} {scope : Scope}

theorem sight_rule {r : Rule} {level : Nat} :
    Sight g seers seeing (.element (.rule r) scope) ↔ Sight g seers seeing (.call r level scope) := by
  cases seeing <;> simp [Sight, Element.all, Element.within, Element.unaware]

theorem sight_ruleAt {r : Rule} {level : Nat} :
    Sight g seers seeing (.element (.ruleAt r level) scope) ↔ Sight g seers seeing (.call r level scope) := by
  cases seeing <;> simp [Sight, Element.all, Element.within, Element.unaware]

theorem sight_optional {e : Element} :
    Sight g seers seeing (.element (.optional e) scope) ↔ Sight g seers seeing (.element e scope) := by
  cases seeing <;> simp [Sight, Element.all, Element.within, Element.unaware]

theorem sight_repeated {e : Element} {least : Nat} {resync : Bool} :
    Sight g seers seeing (.element (.repeated e least resync) scope) ↔
      Sight g seers seeing (.items e resync scope least) := by
  cases seeing <;> simp [Sight, Element.all, Element.within, Element.unaware]

theorem sight_seq {es : List Element} :
    Sight g seers seeing (.element (.seq es) scope) ↔ Sight g seers seeing (.row es scope) := by
  cases seeing <;> simp [Sight, Element.all, Element.within, Element.unaware]

theorem sight_labeled {name : String} {many : Bool} {e : Element} :
    Sight g seers seeing (.element (.labeled name many e) scope) ↔
      Sight g seers seeing (.element e scope) := by
  cases seeing <;> simp [Sight, Element.all, Element.within, Element.unaware]

theorem Sight.head {e : Element} {es : List Element} {follow : KindSet}
    (h : Sight g seers seeing (.row (e :: es) scope)) :
    Sight g seers seeing (.element e { scope with follow := follow }) := by
  cases seeing <;> simp_all [Sight, rowAll, allUnaware]

theorem Sight.tail {e : Element} {es : List Element} (h : Sight g seers seeing (.row (e :: es) scope)) :
    Sight g seers seeing (.row es scope) := by
  cases seeing <;> simp_all [Sight, rowAll, allUnaware]

theorem Sight.item {e : Element} {resync : Bool} {need : Nat} {follow context : KindSet}
    (h : Sight g seers seeing (.items e resync scope need)) :
    Sight g seers seeing (.element e { scope with follow := follow, context := context }) := by
  cases seeing <;> exact h

theorem Sight.again {e : Element} {resync : Bool} {need need' : Nat}
    (h : Sight g seers seeing (.items e resync scope need)) :
    Sight g seers seeing (.items e resync scope need') := by
  cases seeing <;> exact h

end Task

namespace Setup

open Session

section

variable {u : Setup} {keys : KindSet} {limit limit' l : Nat} {seeing m : Bool} {x y : Session}
  {scope : Scope} {z : Resolver}

theorem enter_reasked {e : Element} {d : Bool} (hr : u.Recalls keys limit seeing x) (hz : z.Blank limit')
    (ha : Resolver.entry u.grammar u.stream limit x.pos e scope.follow scope.comments =
      Resolver.entry u.grammar u.stream limit' x.pos e scope.follow scope.comments)
    (h : u.enter scope e x = .ok d y) :
    u.Recalls keys limit seeing y ∧
      ∃ z', z'.Blank limit' ∧ (u.recast l m).enter scope e (x.asked z) = .ok d (y.asked z') := by
  obtain ⟨hd, rfl⟩ := enter_ok h
  refine ⟨Resolver.Recalls.enter hr e _ _, _, hz.enter u.grammar u.stream x.pos e scope.follow scope.comments,
    ?_⟩
  have hd' : (z.enter u.grammar u.stream x.pos e scope.follow scope.comments).1 = .ok d := by
    rw [Resolver.enter_eq_entry hz.limit, ← ha, ← Resolver.enter_eq_entry hr.limit, hd]
  rcases hz' : z.enter u.grammar u.stream x.pos e scope.follow scope.comments with ⟨_, z'⟩
  rw [hz'] at hd'
  cases hd'
  have hasked : (x.asked z).resolver.enter (u.recast l m).grammar (u.recast l m).stream (x.asked z).pos e
      scope.follow scope.comments = (.ok d, z') := hz'
  rw [enter_eq, hasked]
  rfl

theorem enterItem_reasked {e : Element} {resync : Bool} {need : Nat} {d : Bool}
    (hr : u.Recalls keys limit seeing x) (hz : z.Blank limit')
    (ha : Task.Agrees u.grammar u.stream limit limit' (.items e resync scope need) x.pos)
    (h : u.enterItem scope e need x.checked = .ok d y) :
    u.Recalls keys limit seeing y ∧
      ∃ z', z'.Blank limit' ∧
        (u.recast l m).enterItem scope e need (x.asked z).checked = .ok d (y.asked z') := by
  unfold enterItem at h ⊢
  cases need with
  | zero => exact enter_reasked (x := x.checked) hr hz ha h
  | succ need =>
    cases h
    exact ⟨hr, z, hz, rfl⟩

theorem decide_reasked {seers : List Rule} (hg : u.grammar.Secluded seers keys) {d : Except Failure Nat}
    (hr : u.Recalls keys limit seeing x) (hz : z.Blank limit')
    (hs : Task.Sight u.grammar seers seeing (.body scope))
    (ha : Resolver.answer u.grammar u.stream limit x.pos scope.rule scope.follow scope.comments =
      Resolver.answer u.grammar u.stream limit' x.pos scope.rule scope.follow scope.comments)
    (h : u.decide scope x = .ok d y) :
    u.Recalls keys limit seeing y ∧
      ∃ z', z'.Blank limit' ∧ (u.recast l m).decide scope (x.asked z) = .ok d (y.asked z') := by
  obtain ⟨hd, hr'⟩ := Resolver.Recalls.decide hg hr scope.rule (fun h => by subst h; exact hs) scope.follow
    scope.comments (fun h => by subst h; exact hs.1)
  obtain ⟨hd', hz'⟩ := hz.decide u.grammar u.stream x.pos scope.rule scope.follow scope.comments
  rw [decide_eq] at h
  cases h
  refine ⟨hr', _, hz', ?_⟩
  rw [decide_eq]
  dsimp only
  rw [hd, ha, ← hd']
  rfl

/-- Where comments come into sight, a key is in front. -/
theorem sight_chosen {seers : List Rule} (hu : u.Regular) (hg : u.grammar.Secluded seers keys) {i : Nat}
    (hr : u.Recalls keys limit seeing x) (hx : x.pos ≤ u.stream.size)
    (hs : Task.Sight u.grammar seers seeing (.body scope)) (hi : i ∈ u.grammar.choices scope.rule)
    (h : u.decide scope x = .ok (.ok i) y) (hy : u.Recalls keys limit seeing y) :
    ∃ seeing', (seeing = true → seeing' = true) ∧ u.Recalls keys limit seeing' y ∧
      Task.Sight u.grammar seers seeing' (.row (Resolver.elements u.grammar scope.rule i) scope) := by
  obtain ⟨a, ha, -⟩ := Grammar.mem_choices.1 hi
  have hmem := List.mem_of_getElem? ha
  rw [Resolver.elements_of_getElem? ha]
  cases seeing with
  | true => exact ⟨true, id, hy, hg.rows _ hs a hmem⟩
  | false =>
    obtain ⟨hc, haware⟩ : scope.comments = false ∧ u.grammar.aware scope.rule = false := hs
    rcases hg.asides _ haware a hmem with hrow | hrow
    · exact ⟨false, id, hy, hc, hrow⟩
    · obtain ⟨q, hq, haq, hl, hn, hkeys⟩ : ∃ q, a.elements = [.rule q] ∧ u.grammar.aware q = true ∧
          (u.grammar.choices scope.rule).length ≠ 1 ∧ u.grammar.nullable q = false ∧
          u.grammar.first q ∪ keys = keys := by
        unfold Grammar.turnsAside at hrow
        split at hrow
        · rename_i q hq
          simp only [Bool.and_eq_true, bne_iff_ne, Bool.not_eq_true', beq_iff_eq] at hrow
          exact ⟨q, hq, hrow.1.1.1, hrow.1.1.2, hrow.1.2, hrow.2⟩
        · cases hrow
      -- the alternative begins with a key, so a key is in front
      obtain ⟨hd, -⟩ := Resolver.Recalls.decide hg hr scope.rule (by simp) scope.follow
        scope.comments fun _ => hc
      obtain ⟨hchoice, rfl⟩ := ok_unique (decide_eq scope x) h
      have hv := Resolver.viable_of_answer hu.eof hu.founded hx hl (hd.symm.trans hchoice.symm)
      rw [Resolver.elements_of_getElem? ha, hq] at hv
      simp only [Resolver.viable, Grammar.firstOfRow, Grammar.rowNullable, rowFirstKinds, allNullable,
        Element.firstKinds, Element.isNullable, hn, hc, Bool.false_eq_true, if_false, Bool.false_and,
        Bool.or_false] at hv
      have hkey : keys.contains (u.stream.kind x.pos) = true := by
        rw [← hkeys, KindSet.contains_union]
        exact Bool.or_eq_true_iff.2 (.inl hv)
      refine ⟨true, fun _ => rfl, Resolver.Recalls.seen hy hkey, ?_⟩
      rw [hq]
      simp [Task.Sight, rowAll, Element.all, Element.within, hg.aware q haq]

theorem sight_inside {seers : List Rule} {r : Rule} {level : Nat}
    (hs : Task.Sight u.grammar seers seeing (.call r level scope)) :
    Task.Sight u.grammar seers seeing (.body (u.inside r scope)) := by
  cases seeing with
  | true => exact hs
  | false =>
    obtain ⟨hc, hr⟩ : scope.comments = false ∧ u.grammar.aware r = false := hs
    exact ⟨by simpa [inside, hc, Grammar.aware] using hr, hr⟩

variable {n : Nat} {task : Task} {x' : Session} {b b' : Builder}

/-- A run is the same without memory and with another number of tokens to try, if the questions that it
comes to are answered in the same way. -/
theorem Runs.reask {seers : List Rule} (hu : u.Regular) (hg : u.grammar.Secluded seers keys)
    (haside : u.grammar.Aside keys) (h : u.Runs n task x b x' b') (hx : u.Fit x)
    (hs : task.Sight u.grammar seers seeing) (hr : u.Recalls keys limit seeing x) (hz : z.Blank limit')
    (hagree : ∀ t y, u.Reaches n task x b t y → t.Agrees u.grammar u.stream limit limit' y.pos) :
    u.Recalls keys limit seeing x' ∧
      ∃ z', z'.Blank limit' ∧ (u.recast l m).Runs n task (x.asked z) b (x'.asked z') b' := by
  induction h generalizing seeing z with
  | token h => exact ⟨hr.onward (.expect hu hx.inside h), z, hz, .token (expect_asked hu h)⟩
  | relation h => exact ⟨hr.onward (.expect hu hx.inside h), z, hz, .relation (expect_asked hu h)⟩
  | oneOf h => exact ⟨hr.onward (.expect hu hx.inside h), z, hz, .oneOf (expect_asked hu h)⟩
  | comment h =>
    cases seeing with
    | true => exact ⟨hr.expectComment h, z, hz, .comment (expectComment_asked h)⟩
    | false => simp [Task.Sight, Element.unaware] at hs
  | rule h ih =>
    obtain ⟨hr', z', hz', h'⟩ := ih hx (Task.sight_rule.1 hs) hr hz fun t y ht => hagree t y (.rule ht)
    exact ⟨hr', z', hz', .rule h'⟩
  | ruleAt h ih =>
    obtain ⟨hr', z', hz', h'⟩ := ih hx (Task.sight_ruleAt.1 hs) hr hz fun t y ht => hagree t y (.ruleAt ht)
    exact ⟨hr', z', hz', .ruleAt h'⟩
  | present he h ih =>
    have hy := (Advances.refl hx).enter he
    obtain ⟨hry, z₁, hz₁, he'⟩ := enter_reasked hr hz (hagree _ _ .here) he
    obtain ⟨hr', z', hz', h'⟩ := ih hy.fit (Task.sight_optional.1 hs) hry hz₁
      fun t y ht => hagree t y (.present he ht)
    exact ⟨hr', z', hz', .present he' h'⟩
  | absent he =>
    obtain ⟨hr', z', hz', he'⟩ := enter_reasked hr hz (hagree _ _ .here) he
    exact ⟨hr', z', hz', .absent he'⟩
  | repeated h ih =>
    obtain ⟨hr', z', hz', h'⟩ := ih hx (Task.sight_repeated.1 hs) hr hz
      fun t y ht => hagree t y (.repeated ht)
    exact ⟨hr', z', hz', .repeated h'⟩
  | seq h ih =>
    obtain ⟨hr', z', hz', h'⟩ := ih hx (Task.sight_seq.1 hs) hr hz fun t y ht => hagree t y (.seq ht)
    exact ⟨hr', z', hz', .seq h'⟩
  | labeled h ih =>
    obtain ⟨hr', z', hz', h'⟩ := ih hx (Task.sight_labeled.1 hs) hr hz
      fun t y ht => hagree t y (.labeled ht)
    exact ⟨hr', z', hz', .labeled h'⟩
  | nil => exact ⟨hr, z, hz, .nil⟩
  | cons h1 h2 ih1 ih2 =>
    obtain ⟨hry, z₁, hz₁, h1'⟩ := ih1 hx hs.head hr hz fun t y ht => hagree t y (.head ht)
    obtain ⟨hr', z', hz', h2'⟩ := ih2 (h1.advances hu hx).fit hs.tail hry hz₁
      fun t y ht => hagree t y (.tail h1 ht)
    exact ⟨hr', z', hz', .cons h1' h2'⟩
  | moved he h1 hp h2 ih1 ih2 =>
    have hy := (Advances.refl hx).checked.enterItem he
    have hadv := h1.advances_from hu hy
    obtain ⟨hry, z₁, hz₁, he'⟩ := enterItem_reasked hr hz (hagree _ _ .here) he
    obtain ⟨hrz, z₂, hz₂, h1'⟩ := ih1 hy.fit hs.item hry hz₁ fun t y ht => hagree t y (.item he ht)
    obtain ⟨hr', z', hz', h2'⟩ := ih2 (hadv.noted _).fit hs.again hrz hz₂
      fun t y ht => hagree t y (.moved he h1 hp ht)
    exact ⟨hr', z', hz', .moved he' h1' hp h2'⟩
  | stuck he h1 hp hk ih =>
    have hy := (Advances.refl hx).checked.enterItem he
    obtain ⟨hry, z₁, hz₁, he'⟩ := enterItem_reasked hr hz (hagree _ _ .here) he
    obtain ⟨hr', z', hz', h1'⟩ := ih hy.fit hs.item hry hz₁ fun t y ht => hagree t y (.item he ht)
    exact ⟨hr', z', hz', .stuck he' h1' hp hk⟩
  | @freed _ _ _ _ _ _ _ _ _ _ w _ _ he h1 hp hk hw h2 ih1 ih2 =>
    have hy := (Advances.refl hx).checked.enterItem he
    have hadv := h1.advances_from hu hy
    obtain ⟨hry, z₁, hz₁, he'⟩ := enterItem_reasked hr hz (hagree _ _ .here) he
    obtain ⟨hrz, z₂, hz₂, h1'⟩ := ih1 hy.fit hs.item hry hz₁ fun t y ht => hagree t y (.item he ht)
    have hfit : u.Fit w := hw ▸ (hadv.strayed _ _ _ _ _ _).fit
    have hrw : u.Recalls keys limit seeing w := hw ▸ hrz.onward (.strayed hadv.fit.inside _ _ _ _ _ _)
    obtain ⟨hr', z', hz', h2'⟩ := ih2 ⟨hfit.inside, hfit.valid⟩ hs.again hrw hz₂
      fun t y ht => hagree t y (.freed he h1 hp hk hw ht)
    refine ⟨hr', z', hz', .freed (w := w.asked z₂) he' h1' hp hk ?_ h2'⟩
    rw [hw, ← skippedOver_asked, ← reported_asked]
    rfl
  | ended he hk =>
    obtain ⟨hr', z', hz', he'⟩ := enterItem_reasked hr hz (hagree _ _ .here) he
    exact ⟨hr', z', hz', .ended he' hk⟩
  | @resumed _ _ _ _ _ _ _ _ w _ _ he hk hw h2 ih =>
    have hy := (Advances.refl hx).checked.enterItem he
    obtain ⟨hry, z₁, hz₁, he'⟩ := enterItem_reasked hr hz (hagree _ _ .here) he
    have hfit : u.Fit w := hw ▸ (hy.strayed _ _ _ _ _ _).fit
    have hrw : u.Recalls keys limit seeing w := hw ▸ hry.onward (.strayed hy.fit.inside _ _ _ _ _ _)
    obtain ⟨hr', z', hz', h2'⟩ := ih ⟨hfit.inside, hfit.valid⟩ hs.again hrw hz₁
      fun t y ht => hagree t y (.resumed he hk hw ht)
    refine ⟨hr', z', hz', .resumed (w := w.asked z₁) he' hk ?_ h2'⟩
    rw [hw, ← skippedOver_asked, ← reported_asked]
    rfl
  | @chosen _ scope x _ _ _ _ _ hd hi h ih =>
    have hx' := (Advances.refl hx).noted (.asked scope.rule scope.follow)
    have hrx : u.Recalls keys limit seeing (x.noted (.asked scope.rule scope.follow)) := hr
    obtain ⟨hry, z₁, hz₁, hd'⟩ := decide_reasked hg hrx hz hs (hagree _ _ .here) hd
    obtain ⟨seeing', hle, hry', hs'⟩ := sight_chosen hu hg hrx hx.inside hs hi hd hry
    obtain ⟨hr', z', hz', h'⟩ := ih (hx'.decide hu hd).fit hs' hry' hz₁
      fun t y ht => hagree t y (.chosen hd ht)
    exact ⟨hr'.weaken hle, z', hz', .chosen hd' hi h'⟩
  | @lost _ scope x _ _ _ _ expected _ _ _ _ hd h =>
    have hx' := (Advances.refl hx).noted (.asked scope.rule scope.follow)
    have hrx : u.Recalls keys limit seeing (x.noted (.asked scope.rule scope.follow)) := hr
    have hy := (hx'.decide hu hd).reported .noAlternative scope.rule expected
    obtain ⟨hry, z₁, hz₁, hd'⟩ := decide_reasked hg hrx hz hs (hagree _ _ .here) hd
    refine ⟨(hry.onward (.reported _ _ _)).onward (.recover hy.fit.inside h), z₁, hz₁, .lost hd' ?_⟩
    rw [← recover_asked h, ← reported_asked]
    rfl
  | @refused r _ scope x _ _ _ h =>
    have hy := ((Advances.refl hx).called r scope).reported .nestingTooDeep r (u.grammar.first r)
    have hrx : u.Recalls keys limit seeing (x.called r scope) := hr
    refine ⟨hrx.onward (.trans (.reported _ _ _) (.recover hy.fit.inside h)), z, hz, .refused ?_⟩
    rw [← recover_asked h, ← reported_asked]
    rfl
  | @inlined n r _ scope _ _ _ _ ht hi h ih =>
    have hy := ((Advances.refl hx).called r scope).noted (.opened (u.settings.maxDepth - n))
    obtain ⟨hr', z', hz', h'⟩ := ih hy.fit (sight_inside hs) hr hz
      fun t y h => hagree t y (.inlined ht hi h)
    exact ⟨hr', z', hz', .inlined ht hi h'⟩
  | @wrapped n r _ scope _ _ _ _ ht hi h ih =>
    have hy := ((Advances.refl hx).called r scope).noted (.opened (u.settings.maxDepth - n))
    obtain ⟨hr', z', hz', h'⟩ := ih hy.fit (sight_inside hs) hr hz
      fun t y h => hagree t y (.wrapped ht hi h)
    exact ⟨hr', z', hz', .wrapped ht hi h'⟩
  | @climbed n r level scope _ _ table _ c _ _ ht h1 h2 ih1 ih2 =>
    have hy := ((Advances.refl hx).called r scope).noted (.opened (u.settings.maxDepth - n))
    cases seeing with
    | true =>
      have hnone := hg.table _ hs
      rw [ht] at hnone
      cases hnone
    | false =>
      obtain ⟨hry, z₁, hz₁, h1'⟩ := ih1 hy.fit hs hr hz fun t y h => hagree t y (.operand ht h)
      have hs' : Task.Sight u.grammar seers false (.operators table level (operandScope r table scope)
          (c.single?.getD c.finish)) := ⟨hs.1, hs.2, ht⟩
      obtain ⟨hr', z', hz', h2'⟩ := ih2 (h1.advances_from hu hy).fit hs' hry hz₁
        fun t y h => hagree t y (.operators ht h1 h)
      exact ⟨hr', z', hz', .climbed ht h1' h2'⟩
  | done hl => exact ⟨hr, z, hz, .done hl⟩
  | @binary _ _ _ scope _ _ _ tier _ _ _ _ _ hl hle hf he h1 h2 ih1 ih2 =>
    have hy := (Advances.refl hx).checked.operatedAt he
    cases seeing with
    | true => cases hs
    | false =>
      have hs' : Task.Sight u.grammar seers false (.call scope.rule tier.operandLevel scope) := ⟨hs.1, hs.2.1⟩
      obtain ⟨hry, z₁, hz₁, h1'⟩ := ih1 hy.fit hs' (hr.onward (.operatedAt he)) hz
        fun t y h => hagree t y (.right hl hle hf he h)
      obtain ⟨hr', z', hz', h2'⟩ := ih2 (h1.advances_from hu hy).fit hs hry hz₁
        fun t y h => hagree t y (.binary hl hle hf he h1 h)
      exact ⟨hr', z', hz', .binary hl hle hf he h1' h2'⟩
  | @suffix _ _ _ scope _ _ _ _ rule _ _ _ _ hl hle hf he h1 h2 ih1 ih2 =>
    have hy := (Advances.refl hx).checked.operatedAt he
    cases seeing with
    | true => cases hs
    | false =>
      have hs' : Task.Sight u.grammar seers false (.body { scope with rule := rule }) :=
        ⟨hs.1, haside.operators _ _ hs.2.1 hs.2.2 _ _ _ hl⟩
      obtain ⟨hry, z₁, hz₁, h1'⟩ := ih1 hy.fit hs' (hr.onward (.operatedAt he)) hz
        fun t y h => hagree t y (.rest hl hle hf he h)
      obtain ⟨hr', z', hz', h2'⟩ := ih2 (h1.advances_from hu hy).fit hs hry hz₁
        fun t y h => hagree t y (.suffix hl hle hf he h1 h)
      exact ⟨hr', z', hz', .suffix hl hle hf he h1' h2'⟩

end

/-- The same of a whole parse. -/
theorem Rooted.reask {u : Setup} {keys : KindSet} {seers : List Rule} {l : Nat} (hu : u.Regular)
    (hg : u.grammar.Secluded seers keys) (haside : u.grammar.Aside keys) {r : Rule} {n : Node} {x : Session}
    (h : u.Rooted r n x)
    (hagree : ∀ t y, u.Comes r t y →
      t.Agrees u.grammar u.stream (max u.settings.lookahead 1) (max l 1) y.pos) :
    ∃ z, (u.recast l false).Rooted r n (x.asked z) := by
  obtain ⟨y, b, c, hr, he, rfl⟩ := h
  have hs : ∃ seeing, Task.Sight u.grammar seers seeing (.call r 0 (u.rootScope r)) := by
    rcases haware : u.grammar.aware r with _ | _
    · exact ⟨false, rfl, haware⟩
    · exact ⟨true, hg.aware r haware⟩
  obtain ⟨seeing, hs⟩ := hs
  obtain ⟨-, z, -, hr'⟩ := hr.reask (m := false) hu hg haside (fit_start u) hs
    (Resolver.recalls_make u.settings.caching u.settings.lookahead) (Resolver.blank_make l) hagree
  exact ⟨z, y.asked z, b, c, hr', expectEnd_asked he, rfl⟩

end Setup

/-- A parse is the same without memory and with another number of tokens to try, if the questions that it
comes to are answered in the same way. -/
theorem parseTokens_reask (r : Rule) (ts : List Token) {settings : Settings} (hc : settings.cancel = none)
    {l : Nat} (hagree : ∀ t y, (Setup.ofTokens ts settings).Comes r t y →
      t.Agrees kerml (.ofTokens ts) (max settings.lookahead 1) (max l 1) y.pos) :
    parseTokens r ts { settings with lookahead := l, caching := false } = parseTokens r ts settings := by
  obtain ⟨p, hp⟩ := parseTokens_answers r ts hc
  obtain ⟨hroot, -⟩ := rooted_last hp
  obtain ⟨z, hz⟩ := hroot.reask (regular_ofTokens ts settings) secluded_kerml aside_kerml hagree
  have hc' : ({ settings with lookahead := l, caching := false } : Settings).cancel = none := hc
  exact (parseTokens_of_rooted hc' hz).2.trans (parseTokens_of_rooted hc hroot).2.symm

/-- With and without memory a parse gives the same tree and the same errors, and sends the same. -/
theorem parseTokens_caching (r : Rule) (ts : List Token) {settings : Settings} (hc : settings.cancel = none) :
    parseTokens r ts (settings.withCaching true) = parseTokens r ts (settings.withCaching false) := by
  have hblank : ∀ m, parseTokens r ts { settings with caching := false } =
      parseTokens r ts (settings.withCaching m) := by
    intro m
    have hm : (settings.withCaching m).cancel = none := hc
    exact parseTokens_reask r ts hm fun t y _ => t.agrees_self _ _ _ _
  exact (hblank true).symm.trans (hblank false)

/-- Behind the arrow alternatives are tried, and the choice among them is remembered to the end. -/
theorem parseTokens_caching_arrow :
    Settings.standard.cancel = none ∧
      ((Setup.ofTokens (scan "x = a->f;") .standard).last .rootNamespace).resolver.cache ≠ [] ∧
      parseTokens .rootNamespace (scan "x = a->f;") (Settings.standard.withCaching true) =
        parseTokens .rootNamespace (scan "x = a->f;") (Settings.standard.withCaching false) :=
  ⟨rfl, by decide +kernel, parseTokens_caching _ _ rfl⟩

end KermlText
