import KermlText.Proofs.Greedy

/-! Trials and greedy readings. A trial that may look at the whole text, and that never has to refuse a
rule, matches only what can be read, and matches wherever there is a greedy reading, up to the place that
the reading leads to. The memo keeps both. -/

namespace KermlText

namespace Recognizer

variable (z : Recognizer)

/-- Nothing is hidden from a trial: it sees the whole stream, and there are no comments in it. -/
structure Clear : Prop where
  eof : z.stream.eof.kind = .eof
  founded : z.grammar.Founded
  closed : z.grammar.Closed
  silent : z.stream.Silent
  horizon : z.horizon = z.stream.size

/-- What is known of a rule at a place is true of what lies ahead there. -/
def Told (r : Rule) (i : Nat) (_ : Bool) (o : Outcome) (j : Nat) : Prop :=
  o ≠ .horizon ∧
    (o = .matched → z.grammar.Spans (.call r) (z.stream.ahead i) (z.stream.ahead j)) ∧
    ∀ v, z.grammar.Greedy (.element (.rule r)) (z.stream.ahead i) v →
      o = .matched ∧ z.stream.ahead j = v

/-- How the end of a step from `t` bears on the readings `m` of a pattern, unless it was cut. -/
structure Tells (s : Pattern) (m : List Kind → List Kind → Prop) (t : Trial) (e : Outcome × Trial) :
    Prop where
  cut : t.cut = true → e.2.cut = true
  comment : e.2.tookComment = t.tookComment
  horizon : e.2.cut = false → e.1 ≠ .horizon
  told : e.2.cut = false → e.2.memo.Holds z.Told
  sound : e.2.cut = false → e.1 = .matched →
    z.grammar.Spans s (z.stream.ahead t.pos) (z.stream.ahead e.2.pos)
  finds : e.2.cut = false → ∀ v, m (z.stream.ahead t.pos) v →
    e.1 = .matched ∧ z.stream.ahead e.2.pos = v

/-- A step that tells about readings wherever it is taken. -/
def Foresees (s : Pattern) (m : List Kind → List Kind → Prop) (step : Step) : Prop :=
  ∀ t, t.pos ≤ z.stream.size → t.memo.Holds z.Known → (t.cut = false → t.memo.Holds z.Told) →
    z.Tells s m t (step t)

variable {z} {s a b c : Pattern} {m ma mb mc : List Kind → List Kind → Prop} {t : Trial}

theorem Tells.imp {e : Outcome × Trial} (h : z.Tells a ma t e)
    (hs : ∀ w v, z.grammar.Spans a w v → z.grammar.Spans b w v)
    (hm : ∀ v, mb (z.stream.ahead t.pos) v → ma (z.stream.ahead t.pos) v) : z.Tells b mb t e :=
  ⟨h.cut, h.comment, h.horizon, h.told, fun hc ho => hs _ _ (h.sound hc ho),
    fun hc v hv => h.finds hc v (hm v hv)⟩

/-- A trial never ends at the horizon, so nothing needs to be told then. -/
theorem Tells.of_horizon {t' : Trial} (h : z.Tells a ma t (.horizon, t')) :
    z.Tells b mb t (.horizon, t') :=
  ⟨h.cut, h.comment, h.horizon, h.told, by simp, fun hc => absurd rfl (h.horizon hc)⟩

theorem Tells.uncut {e : Outcome × Trial} (h : z.Tells s m t e) (he : e.2.cut = false) :
    t.cut = false := by
  rcases hc : t.cut with _ | _
  · rfl
  · rw [h.cut hc] at he
    cases he

theorem limitReached_eq (hz : z.Clear) (t : Trial) : z.limitReached t = false := by
  unfold limitReached
  rcases hb : z.stream.atEnd t.pos with _ | _
  · have hlt := z.stream.settle_lt_of_not_atEnd hb
    have hh := hz.horizon
    simp only [Bool.not_false, Bool.and_true, decide_eq_false_iff_not, Nat.not_le]
    omega
  · simp

theorem guarded_eq (hz : z.Clear) (step : Step) : z.guarded step = step := by
  funext t
  simp [guarded, limitReached_eq hz]

/-- A step that fails tells that nothing can be read. -/
theorem tells_fail (hm : t.cut = false → t.memo.Holds z.Told)
    (hv : ∀ v, ¬ m (z.stream.ahead t.pos) v) : z.Tells s m t (z.fail t) :=
  ⟨id, rfl, by simp [fail], hm, by simp [fail], fun _ v h => absurd h (hv v)⟩

/-- Taking the token that lies ahead tells about a pattern that reads just that. -/
theorem tells_take {k : Kind} {w : List Kind} (hm : t.cut = false → t.memo.Holds z.Told)
    (ha : z.stream.ahead t.pos = k :: w) (hs : z.grammar.Spans s (k :: w) w)
    (hp : ∀ v, m (k :: w) v → v = w) : z.Tells s m t (z.take t) := by
  have hw := Stream.ahead_skip ha
  refine ⟨id, rfl, by simp [take], hm, fun _ _ => ?_, fun _ v hv => ⟨rfl, ?_⟩⟩
  · simpa only [take, ha, hw] using hs
  · rw [ha] at hv
    simp only [take, hw, hp v hv]

section

variable (hz : z.Clear)
include hz

/-- What is seen ahead, if it is not the end, can be taken. -/
theorem ahead_eq_cons {k : Kind} {c : Bool} (hk : z.stream.lookahead t.pos c = k) (he : k ≠ .eof) :
    ∃ w, z.stream.ahead t.pos = k :: w := by
  rw [hz.silent.lookahead hz.eof] at hk
  rcases h : z.stream.ahead t.pos with _ | ⟨a, w⟩
  · rw [h] at hk
    exact absurd hk.symm he
  · rw [h] at hk
    exact ⟨w, by rw [← hk, nextKind_cons]⟩

theorem foresees_token (c : Bool) (k : Kind)
    (hp : ∀ w v, m w v → (k = .eof ∧ w = [] ∧ v = []) ∨ (k ≠ .eof ∧ w = k :: v)) :
    z.Foresees (Element.token k).pattern m (z.token c k) := by
  intro t _ _ hm
  unfold token
  split
  · rename_i hk
    split
    · rename_i he
      have ha := Stream.ahead_of_atEnd he
      refine ⟨id, rfl, by simp, hm, fun _ _ => ?_, fun _ v hv => ⟨rfl, ?_⟩⟩
      · rw [ha]
        simpa [Element.pattern, hk] using Grammar.spans_finish
      · rw [ha] at hv ⊢
        rcases hp _ _ hv with ⟨-, -, h⟩ | ⟨h, -⟩
        · exact h.symm
        · exact absurd hk h
    · rename_i he
      refine tells_fail hm fun v hv => ?_
      rcases hp _ _ hv with ⟨-, h, -⟩ | ⟨h, -⟩
      · exact he (Stream.atEnd_iff_ahead.2 h)
      · exact absurd hk h
  · rename_i hk
    split
    · rename_i hl
      obtain ⟨w, hw⟩ := ahead_eq_cons hz hl hk
      refine tells_take hm hw ?_ fun v hv => ?_
      · simpa [Element.pattern, hk] using Grammar.spans_one (by simp) w
      · rcases hp _ _ hv with ⟨h, -⟩ | ⟨-, h⟩
        · exact absurd h hk
        · exact (List.cons.inj h).2.symm
    · rename_i hl
      refine tells_fail hm fun v hv => ?_
      rcases hp _ _ hv with ⟨h, -⟩ | ⟨-, h⟩
      · exact hk h
      · rw [hz.silent.lookahead hz.eof, h] at hl
        exact hl rfl

theorem foresees_oneOf (c : Bool) (ks : KindSet) :
    z.Foresees (.one ks) (z.grammar.Greedy (.element (.oneOf ks))) (z.oneOf c ks) := by
  intro t _ _ hm
  unfold oneOf
  dsimp only
  split
  · rename_i hk
    simp only [Bool.and_eq_true, bne_iff_ne, ne_eq] at hk
    obtain ⟨w, hw⟩ := ahead_eq_cons hz rfl hk.1.1
    refine tells_take hm hw (Grammar.spans_one hk.2 w) fun v hv => ?_
    cases hv
    rfl
  · rename_i hk
    refine tells_fail hm fun v hv => ?_
    rw [hz.silent.lookahead hz.eof] at hk
    generalize z.stream.ahead t.pos = w at hv hk
    cases hv with
    | oneOf h he hc => simp [h, he, hc] at hk

theorem foresees_comment : z.Foresees .never (z.grammar.Greedy (.element .comment)) z.comment := by
  intro t _ _ hm
  unfold comment
  rw [hz.silent.comment?]
  exact tells_fail hm fun v hv => by cases hv

omit hz in
theorem foresees_optional {e : Element} {strict : Bool} {step : Step} (hs : z.Sure strict step)
    (h : z.Foresees e.pattern (z.grammar.Greedy (.element e)) step) :
    z.Foresees (Element.optional e).pattern (z.grammar.Greedy (.element (.optional e)))
      (optional step) := by
  intro t ht hk hm
  have hl := hs t ht hk
  have hf := h t ht hk hm
  unfold optional
  rcases he : step t with ⟨o, t'⟩
  rw [he] at hl hf
  cases o with
  | matched =>
    refine ⟨hf.cut, hf.comment, by simp, hf.told, fun hc _ => (hf.sound hc rfl).right, fun hc v hv => ?_⟩
    cases hv with
    | present hv => exact hf.finds hc v hv
    | absent hv => exact absurd ⟨_, hf.sound hc rfl⟩ hv
  | horizon => exact hf.of_horizon
  | failed i =>
    refine ⟨hf.cut, hf.comment, by simp, hf.told, fun _ _ => .left (Grammar.spans_empty _),
      fun hc v hv => ?_⟩
    cases hv with
    | present hv => cases (hf.finds hc v hv).1
    | absent hv => exact ⟨rfl, rfl⟩
  | endless => exact absurd rfl hl.ends

omit hz in
/-- A list reads items as long as there are any, and each takes a token. -/
theorem foresees_repeated {e : Element} {step : Step} (hs : z.Sure true step)
    (h : z.Foresees e.pattern (z.grammar.Greedy (.element e)) step) (resync : Bool) (n need : Nat) (t : Trial)
    (ht : t.pos ≤ z.stream.size) (hk : t.memo.Holds z.Known)
    (hm : t.cut = false → t.memo.Holds z.Told) (hn : z.stream.size < z.stream.settle t.pos + n) :
    z.Tells (e.pattern.times need) (z.grammar.Greedy (.element (.repeated e need resync))) t
      (repeated step n need t) := by
  induction n generalizing need t with
  | zero => have := z.stream.settle_le_size t.pos; omega
  | succ n ih =>
    have hl := hs t ht hk
    have hf := h t ht hk hm
    unfold repeated
    rcases he : step t with ⟨o, t'⟩
    rw [he] at hl hf
    cases o with
    | matched =>
      have hlt := hl.lt rfl rfl
      simp only at hlt ⊢
      rw [if_neg (fun hp => by rw [hp] at hlt; exact Nat.lt_irrefl _ hlt)]
      have hg := ih (need - 1) t' hl.inside hl.known hf.told (by omega)
      refine ⟨fun hc => hg.cut (hf.cut hc), hg.comment.trans hf.comment, hg.horizon, hg.told,
        fun hc ho => ?_, fun hc v hv => ?_⟩
      · exact (hf.sound (hg.uncut hc) rfl).times (hg.sound hc ho)
      · cases hv with
        | again h1 h2 =>
          obtain ⟨-, rfl⟩ := hf.finds (hg.uncut hc) _ h1
          exact hg.finds hc v h2
        | none hv => exact absurd ⟨_, hf.sound (hg.uncut hc) rfl⟩ hv
    | horizon => exact hf.of_horizon
    | failed i =>
      simp only
      split
      · rename_i hneed
        refine ⟨hf.cut, hf.comment, by simp, hf.told, by simp, fun hc v hv => ?_⟩
        cases hv with
        | again h1 _ => cases (hf.finds hc _ h1).1
        | none hv => omega
      · rename_i hneed
        obtain rfl : need = 0 := by omega
        refine ⟨hf.cut, hf.comment, by simp, hf.told, fun _ _ => Grammar.spans_many _, fun hc v hv => ?_⟩
        cases hv with
        | again h1 _ => cases (hf.finds hc _ h1).1
        | none hv => exact ⟨rfl, rfl⟩
    | endless => exact absurd rfl hl.ends

omit hz in
/-- One reading behind another. -/
theorem foresees_andThen {strict : Bool} {first second : Step} (hs : z.Sure strict first)
    (h1 : z.Foresees a ma first) (h2 : z.Foresees b mb second)
    (hc : ∀ w v u, z.grammar.Spans a w v → z.grammar.Spans b v u → z.grammar.Spans c w u)
    (hm : ∀ w u, mc w u → ∃ v, ma w v ∧ mb v u) : z.Foresees c mc (andThen first second) := by
  intro t ht hk ht'
  have hl := hs t ht hk
  have hf := h1 t ht hk ht'
  unfold andThen
  rcases he : first t with ⟨o, t'⟩
  rw [he] at hl hf
  -- if the first does not match, nothing can be read
  have hstop : o ≠ .matched → z.Tells c mc t (o, t') := fun ho =>
    ⟨hf.cut, hf.comment, hf.horizon, hf.told, fun _ h => absurd h ho, fun hc v hv =>
      have ⟨_, hv, _⟩ := hm _ _ hv
      absurd (hf.finds hc _ hv).1 ho⟩
  cases o with
  | matched =>
    have hb := h2 t' hl.inside hl.known hf.told
    refine ⟨fun hc => hb.cut (hf.cut hc), hb.comment.trans hf.comment, hb.horizon, hb.told,
      fun h ho => hc _ _ _ (hf.sound (hb.uncut h) rfl) (hb.sound h ho), fun h v hv => ?_⟩
    obtain ⟨w, hm1, hm2⟩ := hm _ _ hv
    obtain ⟨-, rfl⟩ := hf.finds (hb.uncut h) _ hm1
    exact hb.finds h v hm2
  | horizon => exact hf.of_horizon
  | failed i => exact hstop (by simp)
  | endless => exact hstop (by simp)

end

section

variable {call : Bool → Rule → Step}

mutual

theorem foresees_element (hz : z.Clear) (hcall : ∀ c r, z.Sure (z.grammar.solid r) (call c r))
    (hr : ∀ c r, z.Foresees (.call r) (z.grammar.Greedy (.element (.rule r))) (call c r)) (c : Bool) :
    ∀ e : Element, e.founded z.grammar.solid = true →
      z.Foresees e.pattern (z.grammar.Greedy (.element e)) (z.element call c e)
  | .token k, _ => by
    unfold element
    rw [guarded_eq hz]
    refine foresees_token hz c k fun w v hv => ?_
    cases hv with
    | eof => exact .inl ⟨rfl, rfl, rfl⟩
    | token hk => exact .inr ⟨hk, rfl⟩
  | .relation k r, _ => by
    unfold element
    rw [guarded_eq hz]
    refine foresees_token hz c k fun w v hv => ?_
    cases hv with
    | relation hk => exact .inr ⟨hk, rfl⟩
  | .oneOf ks, _ => by
    unfold element
    rw [guarded_eq hz]
    exact foresees_oneOf hz c ks
  | .comment, _ => by
    unfold element
    rw [guarded_eq hz]
    exact foresees_comment hz
  | .rule r, _ => by
    unfold element
    rw [guarded_eq hz]
    exact hr c r
  | .ruleAt r level, _ => by
    unfold element
    rw [guarded_eq hz]
    exact fun t ht hk hm => (hr c r t ht hk hm).imp (fun _ _ => id) fun _ h => by cases h
  | .optional e, he => by
    simp only [Element.founded] at he
    unfold element
    rw [guarded_eq hz]
    exact foresees_optional (sure_element hz.eof hcall c e he) (foresees_element hz hcall hr c e he)
  | .repeated e least resync, he => by
    simp only [Element.founded, Bool.and_eq_true] at he
    have hs := sure_element hz.eof hcall c e he.2
    rw [he.1] at hs
    unfold element
    rw [guarded_eq hz]
    intro t ht hk hm
    have := size_lt_rounds z
    exact foresees_repeated hs (foresees_element hz hcall hr c e he.2) resync z.rounds least t ht hk hm
      (by omega)
  | .seq es, he => by
    simp only [Element.founded] at he
    unfold element
    rw [guarded_eq hz]
    exact foresees_row hz hcall hr c es he
  | .labeled name many e, he => by
    simp only [Element.founded] at he
    unfold element
    rw [guarded_eq hz]
    refine fun t ht hk hm =>
      (foresees_element hz hcall hr c e he t ht hk hm).imp (fun _ _ => id) fun _ h => ?_
    cases h with
    | labeled h => exact h

theorem foresees_row (hz : z.Clear) (hcall : ∀ c r, z.Sure (z.grammar.solid r) (call c r))
    (hr : ∀ c r, z.Foresees (.call r) (z.grammar.Greedy (.element (.rule r))) (call c r)) (c : Bool) :
    ∀ es : List Element, allFounded z.grammar.solid es = true →
      z.Foresees (rowPattern es) (z.grammar.Greedy (.element (.seq es))) (z.row call c es)
  | [], _ => by
    intro t _ _ hm
    unfold row
    refine ⟨id, rfl, by simp, hm, fun _ _ => Grammar.spans_empty _, fun _ v hv => ?_⟩
    cases hv with
    | nil => exact ⟨rfl, rfl⟩
  | e :: es, he => by
    simp only [allFounded, Bool.and_eq_true] at he
    unfold row
    refine foresees_andThen (sure_element hz.eof hcall c e he.1) (foresees_element hz hcall hr c e he.1)
      (foresees_row hz hcall hr c es he.2) (fun _ _ _ => .both) fun w u h => ?_
    cases h with
    | cons h1 h2 => exact ⟨_, h1, h2⟩

end

variable (hz : z.Clear) (hcall : ∀ c r, z.Sure (z.grammar.solid r) (call c r))
  (hr : ∀ c r, z.Foresees (.call r) (z.grammar.Greedy (.element (.rule r))) (call c r)) (c : Bool)

include hz hcall hr

/-- Of alternatives that are tried in order, the first that can be read is taken. -/
theorem foresees_firstMatch (as : List Alternative)
    (ha : ∀ a ∈ as, allFounded z.grammar.solid a.elements = true) (far : Nat) :
    z.Foresees (.any (as.map fun a => rowPattern a.elements)) (z.grammar.FirstOf as)
      (z.firstMatch call c as far) := by
  induction as generalizing far with
  | nil => exact fun t _ _ hm => ⟨id, rfl, by simp [firstMatch], hm, by simp [firstMatch], fun _ _ h => h.elim⟩
  | cons a as ih =>
    intro t ht hk hm
    have hl := sure_row hz.eof hcall c a.elements (ha a (by simp)) t ht hk
    have hf := foresees_row hz hcall hr c a.elements (ha a (by simp)) t ht hk hm
    unfold firstMatch
    rcases he : z.row call c a.elements t with ⟨o, t'⟩
    rw [he] at hl hf
    cases o with
    | matched =>
      refine ⟨hf.cut, hf.comment, by simp, hf.told, fun h _ => (hf.sound h rfl).left, fun h v hv => ?_⟩
      rcases hv with hv | ⟨hv, -⟩
      · exact hf.finds h v hv
      · exact absurd ⟨_, hf.sound h rfl⟩ hv
    | horizon => exact hf.of_horizon
    | failed i =>
      have hi := ih (fun b hb => ha b (List.mem_cons_of_mem _ hb)) (max far i)
        { t' with pos := t.pos } ht hl.known hf.told
      refine ⟨fun h => hi.cut (hf.cut h), hi.comment.trans hf.comment, hi.horizon, hi.told,
        fun h ho => (hi.sound h ho).right, fun h v hv => ?_⟩
      rcases hv with hv | ⟨-, hv⟩
      · cases (hf.finds (hi.uncut h) v hv).1
      · exact hi.finds h v hv
    | endless => exact absurd rfl hl.ends

theorem foresees_alternatives (r : Rule) :
    z.Foresees (z.grammar.operandPattern r) (z.grammar.Greedy (.operand r))
      (z.alternatives call c r) := by
  intro t ht hk hm
  unfold alternatives
  refine (foresees_firstMatch hz hcall hr c _ (fun a ha => ?_) _ t ht hk hm).imp (fun w v h => ?_)
    fun v h => ?_
  · exact hz.founded.rows r a (List.mem_filter.1 ha).1
  · obtain ⟨s, hs, h⟩ := h.of_any
    obtain ⟨a, ha, rfl⟩ := List.mem_map.1 hs
    obtain ⟨ha, hw⟩ := List.mem_filter.1 ha
    simp only [startsWith, Bool.and_eq_true, Bool.not_eq_true'] at hw
    exact Grammar.spans_operand ha hw.1 h
  · cases h with
    | @operand _ i a _ _ ha hl hi h =>
      refine Grammar.firstOf_filter ha ?_ (fun b hb => ?_) hi h
      · -- what is read starts with what lies ahead, so the alternative may be tried
        have hs := Grammar.Spans.row_starts hz.closed h.spans
        simp only [startsWith, hl, Bool.not_false, Bool.true_and, Bool.or_eq_true,
          hz.silent.lookahead hz.eof]
        exact hs.imp_right And.left
      · simp only [startsWith, Bool.and_eq_true, Bool.not_eq_true'] at hb
        exact hb.1

/-- Operators are read as long as there are any, and each takes a token. -/
theorem tells_operators {r : Rule} {table : Table} (htable : z.grammar.table? r = some table)
    (n : Nat) (t : Trial) (ht : t.pos ≤ z.stream.size) (hk : t.memo.Holds z.Known)
    (hm : t.cut = false → t.memo.Holds z.Told) (hn : z.stream.size < z.stream.settle t.pos + n) :
    z.Tells (z.grammar.operatorsPattern r) (z.grammar.Greedy (.operators r)) t
      (z.operators call c r table n t) := by
  induction n generalizing t with
  | zero => have := z.stream.settle_le_size t.pos; omega
  | succ n ih =>
    unfold operators
    rw [guarded_eq hz, hz.silent.lookahead hz.eof]
    split
    · rename_i hl
      refine ⟨id, rfl, by simp, hm, fun _ _ => ?_, fun _ v hv => ⟨rfl, ?_⟩⟩
      · simpa [Grammar.operatorsPattern, htable] using Grammar.spans_many _
      · exact (hv.of_no_operator htable hl).symm
    · rename_i tier node hl
      obtain ⟨w, hw⟩ := ahead_eq_cons (c := c) hz (hz.silent.lookahead hz.eof t.pos c)
        (fun h => by rw [h, hz.founded.eof r table htable] at hl; cases hl)
      rw [hw, nextKind_cons] at hl
      have hend := (Stream.of_ahead_cons hw).1
      have hskip := Stream.ahead_skip hw
      have hland : z.Lands true t (z.take t) := lands_take ht hk fun _ => hend
      have hlt := hland.lt rfl rfl
      -- what stands behind the operator
      have hrest : z.Sure false
          (if tier.form = .binary then z.alternatives call c r else call c node) := by
        split
        · exact (sure_alternatives hz.eof hcall c hz.founded r).weaken
        · exact (hcall c node).weaken
      have hnext : z.Foresees
          (if tier.form = .binary then z.grammar.operandPattern r else .call node)
          (if tier.form = .binary then z.grammar.Greedy (.operand r)
            else z.grammar.Greedy (.element (.rule node)))
          (if tier.form = .binary then z.alternatives call c r else call c node) := by
        split
        · exact foresees_alternatives hz hcall hr c r
        · exact hr c node
      have ht1 := hland.inside
      have hl2 := hrest _ ht1 hk
      have hf := hnext _ ht1 hk hm
      have hahead : z.stream.ahead (z.take t).2.pos = w := hskip
      unfold andThen
      rw [show z.take t = (.matched, (z.take t).2) from rfl]
      dsimp only
      rcases he : (if tier.form = .binary then z.alternatives call c r else call c node)
          (z.take t).2 with ⟨o, t'⟩
      rw [he] at hl2 hf
      have hfound : t'.cut = false → ∀ v, z.grammar.Greedy (.operators r) (z.stream.ahead t.pos) v →
          o = .matched ∧ z.grammar.Greedy (.operators r) (z.stream.ahead t'.pos) v := fun h v hv => by
        rw [hw] at hv
        obtain ⟨u, hu, hv⟩ := hv.of_operator htable hl
        obtain ⟨ho, rfl⟩ := hf.finds h u (by rw [hahead]; exact hu)
        exact ⟨ho, hv⟩
      have hstop : o ≠ .matched → z.Tells (z.grammar.operatorsPattern r)
          (z.grammar.Greedy (.operators r)) t (o, t') := fun ho =>
        ⟨hf.cut, hf.comment, hf.horizon, hf.told, fun _ h => absurd h ho, fun h v hv =>
          absurd (hfound h v hv).1 ho⟩
      cases o with
      | matched =>
        have hle := hl2.le rfl
        have hg := ih t' hl2.inside hl2.known hf.told (by simp only at hle hlt ⊢; omega)
        refine ⟨fun h => hg.cut (hf.cut h), hg.comment.trans hf.comment, hg.horizon, hg.told,
          fun h ho => ?_, fun h v hv => hg.finds h v (hfound (hg.uncut h) v hv).2⟩
        rw [hw]
        refine Grammar.matches_operator htable hl ?_
        have hsound := hf.sound (hg.uncut h) rfl
        rw [hahead] at hsound
        exact hsound.cons (hg.sound h ho)
      | horizon => exact hstop (by simp)
      | failed i => exact hstop (by simp)
      | endless => exact hstop (by simp)

theorem foresees_body (r : Rule) :
    z.Foresees (.call r) (z.grammar.Greedy (.element (.rule r))) (z.body call c r) := by
  have ha := foresees_alternatives hz hcall hr c r
  unfold body
  split
  · rename_i table htable
    have hops : z.Foresees (z.grammar.operatorsPattern r) (z.grammar.Greedy (.operators r))
        (z.operators call c r table z.rounds) := by
      intro t ht hk hm
      have := size_lt_rounds z
      exact tells_operators hz hcall hr c htable _ t ht hk hm (by omega)
    refine foresees_andThen (sure_alternatives hz.eof hcall c hz.founded r) ha hops
      (fun _ _ _ h1 h2 => .call (h1.both h2)) fun w u h => ?_
    cases h with
    | rule h1 h2 => exact ⟨_, h1, h2⟩
  · rename_i htable
    refine fun t ht hk hm => (ha t ht hk hm).imp (fun w v h => ?_) fun v h => ?_
    · refine .call (h.both ?_)
      simpa [Grammar.operatorsPattern, htable] using Grammar.spans_empty v
    · cases h with
      | rule h1 h2 =>
        obtain rfl := h2.of_plain htable
        exact h1

end

/-- A call tells about its rule, whether it is tried or known. -/
theorem foresees_call (hz : z.Clear) (n : Nat) (c : Bool) (r : Rule) :
    z.Foresees (.call r) (z.grammar.Greedy (.element (.rule r))) (z.call n c r) := by
  induction n generalizing c r with
  | zero =>
    intro t _ _ _
    unfold call
    exact ⟨fun _ => rfl, rfl, by simp [fail], by simp [fail], by simp [fail], by simp [fail]⟩
  | succ n ih =>
    intro t ht hk hm
    have htold : t.cut = false → ∀ o j, t.memo.find? r (z.stream.settle t.pos) c = some (o, j) →
        z.Told r (z.stream.settle t.pos) c o j := fun h o j => hm h r _ c o j
    unfold Told at htold
    rw [Stream.ahead_settle] at htold
    unfold call
    dsimp only
    split
    · rename_i stop hf
      refine ⟨id, rfl, by simp, hm, fun h _ => (htold h _ _ hf).2.1 rfl, fun h v hv => ?_⟩
      exact ⟨rfl, ((htold h _ _ hf).2.2 v hv).2⟩
    · rename_i o stop hne hf
      refine ⟨id, rfl, fun h => (htold h _ _ hf).1, hm, fun _ ho => (hne ho).elim, fun h v hv => ?_⟩
      exact (hne ((htold h _ _ hf).2.2 v hv).1).elim
    · have hb := foresees_body hz (fun c r => sure_call hz.eof hz.founded n c r) ih
        (c || (z.grammar.definition r).comments) r t ht hk hm
      refine ⟨hb.cut, hb.comment, hb.horizon, fun h => (hb.told h).insert ?_, hb.sound, hb.finds⟩
      unfold Told
      rw [Stream.ahead_settle]
      exact ⟨hb.horizon h, hb.sound h, hb.finds h⟩

end Recognizer

end KermlText
