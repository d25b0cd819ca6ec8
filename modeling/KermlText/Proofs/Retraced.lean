import KermlText.Proofs.Attempts

/-! Trials that remember find nothing else. What the memo holds of a rule was found at some place in front of a
token, and it is looked up at another in front of the same token. So it is true there too if a rule is never
called at two such places. That is what lanes are for: they follow the places where a trial may stand, and in
one lane a place is known by the token ahead. -/

namespace KermlText

namespace Recognizer

/-- Elements in a row, each from the lane where the one in front left off. -/
def inRow {κ : Type} (runs : Element → κ → κ → Prop) : List Element → κ → κ → Prop
  | [], a, b => a = b
  | e :: es, a, b => ∃ m, runs e a m ∧ inRow runs es m b

/-- The lanes in which trials run. `calls` are the rules that may be called, given whether comments are seen. -/
structure Lanes (z : Recognizer) (κ : Type) where
  lane : κ → Nat → Prop
  calls : Bool → Rule → κ → Prop
  runs : Bool → Element → κ → κ → Prop
  apart : ∀ {c r a b p q}, calls c r a → calls c r b → lane a p → lane b q →
    z.stream.settle p = z.stream.settle q → p = q
  single : ∀ {c e a b p q}, e.isSingle = true → runs c e a b → lane a p → z.behind? c e p = some q → lane b q
  rule : ∀ {c r a b}, runs c (.rule r) a b → b = a ∧ calls c r a
  ruleAt : ∀ {c r level a b}, runs c (.ruleAt r level) a b → b = a ∧ calls c r a
  optional : ∀ {c e a b}, runs c (.optional e) a b → b = a ∧ runs c e a a
  repeated : ∀ {c e least resync a b}, runs c (.repeated e least resync) a b → b = a ∧ runs c e a a
  seq : ∀ {c es a b}, runs c (.seq es) a b → inRow (runs c) es a b
  labeled : ∀ {c name many e a b}, runs c (.labeled name many e) a b → runs c e a b
  rows : ∀ {c r a}, calls c r a → ∀ alt ∈ z.grammar.alternatives r, alt.leftRecursive = false →
    inRow (runs (c || (z.grammar.definition r).comments)) alt.elements a a
  operators : ∀ {c r a table k tier node}, calls c r a → z.grammar.table? r = some table →
    table.lookup k = some (tier, node) →
    (∀ p, lane a p → z.stream.lookahead p (c || (z.grammar.definition r).comments) = k →
      lane a (z.stream.skip p)) ∧
      (tier.form ≠ .binary → calls (c || (z.grammar.definition r).comments) node a)

namespace Lanes

variable {z : Recognizer} {κ : Type} (l : z.Lanes κ)

/-- The attempt runs from lane to lane. -/
def Admits (c : Bool) : Attempt → κ → κ → Prop
  | .element e, a, b => l.runs c e a b
  | .row es, a, b => inRow (l.runs c) es a b
  | .items e _ _, a, b => b = a ∧ l.runs c e a a
  | .firstOf as _, a, b => b = a ∧ ∀ alt ∈ as, inRow (l.runs c) alt.elements a a
  | .operand r, a, b => b = a ∧ ∃ d, c = (d || (z.grammar.definition r).comments) ∧ l.calls d r a
  | .operators r table _, a, b =>
    b = a ∧ z.grammar.table? r = some table ∧ ∃ d, c = (d || (z.grammar.definition r).comments) ∧ l.calls d r a
  | .call r, a, b => b = a ∧ l.calls c r a

variable {l} {c d : Bool} {a b : κ} {p q : Nat} {v : Verdict} {r node : Rule} {tier : Tier}

theorem admits_candidates (h : l.calls d r a) (p : Nat) (far : Nat) :
    l.Admits (d || (z.grammar.definition r).comments)
      (.firstOf (z.candidates (d || (z.grammar.definition r).comments) r p) far) a a := by
  refine ⟨rfl, fun alt halt => ?_⟩
  obtain ⟨hm, hs⟩ := List.mem_filter.1 halt
  simp only [startsWith, Bool.and_eq_true, Bool.not_eq_true'] at hs
  exact l.rows h alt hm hs.1

theorem admits_operandOf (h : l.calls d r a)
    (hn : tier.form ≠ .binary → l.calls (d || (z.grammar.definition r).comments) node a) :
    l.Admits (d || (z.grammar.definition r).comments) (operandOf r node tier) a a := by
  unfold operandOf
  split
  · exact ⟨rfl, d, rfl, h⟩
  · rename_i hf
    exact ⟨rfl, hn hf⟩

/-- A match leads to the lane that the attempt runs to. -/
theorem lane_of_finds {n : Attempt} (h : z.Finds c n p v) (hn : l.Admits c n a b) (hp : l.lane a p)
    (hv : v = .matched q) : l.lane b q := by
  induction h generalizing a b q with
  | limit | miss | spent | short | none | exhausted | stopped => cases hv
  | hit _ he h =>
    cases hv
    exact l.single he hn hp h
  | rule _ _ ih =>
    obtain ⟨rfl, hc⟩ := l.rule hn
    exact ih ⟨rfl, hc⟩ hp hv
  | ruleAt _ _ ih =>
    obtain ⟨rfl, hc⟩ := l.ruleAt hn
    exact ih ⟨rfl, hc⟩ hp hv
  | present _ _ _ ih =>
    obtain ⟨rfl, he⟩ := l.optional hn
    exact ih he hp hv
  | absent =>
    obtain ⟨rfl, -⟩ := l.optional hn
    cases hv
    exact hp
  | repeated _ _ ih =>
    obtain ⟨rfl, he⟩ := l.repeated hn
    exact ih ⟨rfl, he⟩ hp hv
  | seq _ _ ih => exact ih (l.seq hn) hp hv
  | labeled _ _ ih => exact ih (l.labeled hn) hp hv
  | nil =>
    cases hv
    obtain rfl : a = b := hn
    exact hp
  | cons _ _ ih1 ih2 =>
    obtain ⟨m, h1, h2⟩ := hn
    exact ih2 h2 (ih1 h1 hp rfl) hv
  | again _ _ _ ih1 ih2 =>
    obtain ⟨rfl, he⟩ := hn
    exact ih2 ⟨rfl, he⟩ (ih1 he hp rfl) hv
  | still | done | bare =>
    obtain ⟨rfl, -⟩ := hn
    cases hv
    exact hp
  | next _ _ _ ih2 =>
    obtain ⟨rfl, ha⟩ := hn
    exact ih2 ⟨rfl, fun alt h => ha alt (List.mem_cons_of_mem _ h)⟩ hp hv
  | found _ _ ih =>
    obtain ⟨rfl, ha⟩ := hn
    exact ih (ha _ List.mem_cons_self) hp hv
  | operand _ ih =>
    obtain ⟨rfl, d, rfl, hc⟩ := hn
    exact ih (admits_candidates hc _ _) hp hv
  | operator _ ht _ _ ih1 ih2 =>
    obtain ⟨rfl, htable, d, rfl, hc⟩ := hn
    obtain ⟨hskip, hnode⟩ := l.operators hc htable ht
    exact ih2 ⟨rfl, htable, d, rfl, hc⟩ (ih1 (admits_operandOf hc hnode) (hskip _ hp rfl) rfl) hv
  | plain _ _ ih =>
    obtain ⟨rfl, hc⟩ := hn
    exact ih ⟨rfl, _, rfl, hc⟩ hp hv
  | climbed ht _ _ ih1 ih2 =>
    obtain ⟨rfl, hc⟩ := hn
    exact ih2 ⟨rfl, ht, _, rfl, hc⟩ (ih1 ⟨rfl, _, rfl, hc⟩ hp rfl) hv
  | broken _ hne | stranded _ _ _ hne | unbuilt _ _ hne => exact absurd hv (hne q)
  | halted _ hne => rcases hne with rfl | rfl <;> cases hv

variable (l)

/-- What is known of a rule would be found again wherever it may be looked up. -/
def Recorded (r : Rule) (i : Nat) (c : Bool) (o : Outcome) (j : Nat) : Prop :=
  ∀ a p, l.calls c r a → l.lane a p → z.stream.settle p = i → z.Finds c (.call r) p (o.verdict j)

/-- A trial that was not cut stands in its lane, and what it knows is true. -/
def Ready (a : κ) (t : Trial) : Prop := t.cut = false → l.lane a t.pos ∧ t.memo.Holds l.Recorded

/-- How an attempt from `t` ends, unless it was cut. -/
structure Retraced (c : Bool) (n : Attempt) (t : Trial) (e : Outcome × Trial) : Prop where
  cut : t.cut = true → e.2.cut = true
  memo : e.2.cut = false → e.2.memo.Holds l.Recorded
  finds : e.2.cut = false → z.Finds c n t.pos (verdict e)

/-- Steps, given how rules are called, that end so wherever a trial stands in lane `a`. -/
def Retraces (call : Bool → Rule → Step) (c : Bool) (n : Attempt) (a : κ) : Prop :=
  ∀ t, l.Ready a t → l.Retraced c n t (z.step call c n t)

variable {l} {n n' : Attempt} {t u : Trial} {e e' : Outcome × Trial}

theorem Retraced.uncut (h : l.Retraced c n t e) (he : e.2.cut = false) : t.cut = false := by
  rcases hc : t.cut with _ | _
  · rfl
  · rw [h.cut hc] at he
    cases he

/-- An attempt that ends as another does, with a verdict of its own. -/
theorem Retraced.imp (h : l.Retraced c n t e)
    (hv : z.Finds c n t.pos (verdict e) → z.Finds d n' t.pos (verdict e')) (hm : e'.2.memo = e.2.memo) (hc : e'.2.cut = e.2.cut) :
    l.Retraced d n' t e' :=
  ⟨fun ht => hc ▸ h.cut ht, fun he => hm ▸ h.memo (hc ▸ he), fun he => hv (h.finds (hc ▸ he))⟩

/-- An attempt that ends as the last of its parts does. -/
theorem Retraced.after (h1 : l.Retraced c n t e) {u : Trial} (hu : u.cut = e.2.cut) (h2 : l.Retraced d n' u e')
    {k : Bool} {m : Attempt} (hv : z.Finds c n t.pos (verdict e) → z.Finds d n' u.pos (verdict e') →
      z.Finds k m t.pos (verdict e')) : l.Retraced k m t e' :=
  ⟨fun ht => h2.cut (hu ▸ h1.cut ht), h2.memo, fun he => hv (h1.finds (hu ▸ h2.uncut he)) (h2.finds he)⟩

/-- A trial that matched stands in the lane that it ran to. -/
theorem Ready.matched (ht : l.Ready a t) (h : l.Retraced c n t (.matched, u)) (hn : l.Admits c n a b) :
    l.Ready b u :=
  fun hu => ⟨lane_of_finds (h.finds hu) hn (ht (h.uncut hu)).1 rfl, h.memo hu⟩

theorem Ready.back (ht : l.Ready a t) (h : l.Retraced c n t e) : l.Ready a { e.2 with pos := t.pos } :=
  fun hu => ⟨(ht (h.uncut hu)).1, h.memo hu⟩

theorem Ready.still (ht : l.Ready a t) {v : Verdict} (he : e.2 = t) (h : verdict e = v) (hf : z.Finds c n t.pos v) :
    l.Retraced c n t e := by
  subst h
  exact ⟨fun hc => he ▸ hc, fun hc => he ▸ (ht (he ▸ hc)).2, fun _ => hf⟩

/-! ### Elements -/

section

variable {call : Bool → Rule → Step}

theorem retraced_limit (ht : l.Ready a t) (hl : z.limitAt t.pos = true) (e : Element) :
    l.Retraced c (.element e) t (z.step call c (.element e) t) := by
  rw [step, element_limit hl]
  exact ht.still rfl rfl (.limit hl)

theorem retraces_single {e : Element} (he : e.isSingle = true) : l.Retraces call c (.element e) a := by
  intro t ht
  rcases hl : z.limitAt t.pos with _ | _
  · obtain ⟨b, hb⟩ := element_single call c hl he
    rw [step, hb]
    rcases hq : z.behind? c e t.pos with _ | q
    · exact ht.still rfl rfl (.miss hl he hq)
    · exact ⟨id, fun hc => (ht hc).2, fun _ => .hit hl he hq⟩
  · exact retraced_limit ht hl e

/-- What stands under a guard is done short of the limit. -/
theorem retraces_guarded {e : Element} {step : Step} (he : z.element call c e = z.guarded step)
    (h : ∀ t, l.Ready a t → z.limitAt t.pos = false → l.Retraced c (.element e) t (step t)) :
    l.Retraces call c (.element e) a := by
  intro t ht
  rcases hl : z.limitAt t.pos with _ | _
  · rw [Recognizer.step, he, guarded_of_not_limit hl]
    exact h t ht hl
  · exact retraced_limit ht hl e

theorem retraces_optional {e : Element} (h : l.Retraces call c (.element e) a) :
    l.Retraces call c (.element (.optional e)) a := by
  refine retraces_guarded (by rw [element]) fun t ht hl => ?_
  have he := h t ht
  rcases hr : z.element call c e t with ⟨o, u⟩
  rw [step, hr] at he
  cases o with
  | failed i =>
    rw [optional_failed hr]
    exact he.imp (fun hf => .absent hl hf) rfl rfl
  | matched | horizon | endless =>
    rw [optional_present (by simp [hr]), hr]
    exact he.imp (fun hf => .present hl hf (by simp [verdict])) rfl rfl

theorem retraces_items {e : Element} (h : l.Retraces call c (.element e) a) (he : l.runs c e a a) (n need : Nat) :
    l.Retraces call c (.items e n need) a := by
  induction n generalizing need with
  | zero => exact fun t ht => ht.still rfl rfl .spent
  | succ n ih =>
    intro t ht
    have hitem := h t ht
    rcases hr : z.element call c e t with ⟨o, u⟩
    rw [step, hr] at hitem
    rw [step]
    cases o with
    | matched =>
      by_cases hu : u.pos = t.pos
      · rw [repeated_still hr hu]
        refine hitem.imp (fun hf => ?_) rfl rfl
        rw [show verdict (.matched, u) = .matched t.pos from congrArg Verdict.matched hu] at hf ⊢
        exact .still hf
      · rw [repeated_again hr hu]
        exact hitem.after rfl (ih (need - 1) u (ht.matched hitem he)) fun h1 h2 => .again h1 hu h2
    | failed i =>
      rcases Nat.eq_zero_or_pos need with rfl | hn
      · rw [repeated_done hr]
        exact hitem.imp (fun hf => .done hf) rfl rfl
      · rw [repeated_short hr _ hn]
        exact hitem.imp (fun hf => .short hf hn) rfl rfl
    | horizon =>
      rw [repeated_halted (by rw [hr]; exact .inl rfl), hr]
      exact hitem.imp (fun hf => .halted hf (.inl rfl)) rfl rfl
    | endless =>
      rw [repeated_halted (by rw [hr]; exact .inr rfl), hr]
      exact hitem.imp (fun hf => .halted hf (.inr rfl)) rfl rfl

mutual

theorem retraces_element (hcall : ∀ c r a, l.calls c r a → l.Retraces call c (.call r) a) (c : Bool) :
    ∀ (e : Element) (a b : κ), l.runs c e a b → l.Retraces call c (.element e) a
  | .token k, a, b, _ | .relation k _, a, b, _ | .oneOf ks, a, b, _ | .comment, a, b, _ => retraces_single rfl
  | .rule r, a, b, he =>
    retraces_guarded (by rw [element]) fun t ht hl =>
      (hcall c r a (l.rule he).2 t ht).imp (fun hf => .rule hl hf) rfl rfl
  | .ruleAt r _, a, b, he =>
    retraces_guarded (by rw [element]) fun t ht hl =>
      (hcall c r a (l.ruleAt he).2 t ht).imp (fun hf => .ruleAt hl hf) rfl rfl
  | .optional e, a, b, he => retraces_optional (retraces_element hcall c e a a (l.optional he).2)
  | .repeated e least _, a, b, he =>
    have he := (l.repeated he).2
    retraces_guarded (by rw [element]) fun t ht hl =>
      (retraces_items (retraces_element hcall c e a a he) he z.rounds least t ht).imp
        (fun hf => .repeated hl hf) rfl rfl
  | .seq es, a, b, he =>
    retraces_guarded (by rw [element]) fun t ht hl =>
      (retraces_row hcall c es a b (l.seq he) t ht).imp (fun hf => .seq hl hf) rfl rfl
  | .labeled _ _ e, a, b, he =>
    retraces_guarded (by rw [element]) fun t ht hl =>
      (retraces_element hcall c e a b (l.labeled he) t ht).imp (fun hf => .labeled hl hf) rfl rfl

theorem retraces_row (hcall : ∀ c r a, l.calls c r a → l.Retraces call c (.call r) a) (c : Bool) :
    ∀ (es : List Element) (a b : κ), inRow (l.runs c) es a b → l.Retraces call c (.row es) a
  | [], a, b, _ => by
    intro t ht
    rw [step, row]
    exact ht.still rfl rfl .nil
  | e :: es, a, b, hes => by
    obtain ⟨m, he, hes⟩ := hes
    intro t ht
    have h1 := retraces_element hcall c e a m he t ht
    rcases hr : z.element call c e t with ⟨o, u⟩
    rw [step, hr] at h1
    rw [step, row]
    cases o with
    | matched =>
      rw [andThen_matched hr]
      exact h1.after rfl (retraces_row hcall c es m b hes u (ht.matched h1 he)) fun hf1 hf2 => .cons hf1 hf2
    | failed | horizon | endless =>
      rw [andThen_broken (by simp [hr]), hr]
      exact h1.imp (fun hf => .broken hf nofun) rfl rfl

end

/-! ### Rules -/

variable (hcall : ∀ c r a, l.calls c r a → l.Retraces call c (.call r) a)
include hcall

theorem retraces_firstOf (as : List Alternative) (far : Nat)
    (has : ∀ alt ∈ as, inRow (l.runs c) alt.elements a a) : l.Retraces call c (.firstOf as far) a := by
  induction as generalizing far with
  | nil => exact fun t ht => ht.still rfl rfl .none
  | cons alt as ih =>
    intro t ht
    have hrow := retraces_row hcall c alt.elements a a (has alt List.mem_cons_self) t ht
    rcases hr : z.row call c alt.elements t with ⟨o, u⟩
    rw [step, hr] at hrow
    rw [step]
    cases o with
    | failed i =>
      rw [firstMatch_next hr]
      exact hrow.after (u := { u with pos := t.pos }) rfl
        (ih (max far i) (fun alt h => has alt (List.mem_cons_of_mem _ h)) _ (ht.back hrow))
        fun hf1 hf2 => .next hf1 hf2
    | matched | horizon | endless =>
      rw [firstMatch_found (by simp [hr]), hr]
      exact hrow.imp (fun hf => .found hf nofun) rfl rfl

theorem retraces_operand (hr : l.calls d r a) :
    l.Retraces call (d || (z.grammar.definition r).comments) (.operand r) a := fun t ht =>
  (retraces_firstOf hcall _ _ (admits_candidates hr t.pos 0).2 t ht).imp .operand rfl rfl

theorem retraces_operandOf (hr : l.calls d r a)
    (hn : tier.form ≠ .binary → l.calls (d || (z.grammar.definition r).comments) node a) :
    l.Retraces call (d || (z.grammar.definition r).comments) (operandOf r node tier) a := by
  unfold operandOf
  split
  · exact retraces_operand hcall hr
  · rename_i hf
    exact hcall _ _ _ (hn hf)

theorem retraces_operators {table : Table} (htable : z.grammar.table? r = some table) (hr : l.calls d r a)
    (n : Nat) : l.Retraces call (d || (z.grammar.definition r).comments) (.operators r table n) a := by
  induction n with
  | zero => exact fun t ht => ht.still rfl rfl .exhausted
  | succ n ih =>
    intro t ht
    rcases hl : z.limitAt t.pos with _ | _
    · rcases hlook : table.lookup (z.stream.lookahead t.pos (d || (z.grammar.definition r).comments)) with
        _ | ⟨tier, node⟩
      · rw [step, operators_bare hl hlook]
        exact ht.still rfl rfl (.bare hl hlook)
      · obtain ⟨hskip, hnode⟩ := l.operators hr htable hlook
        have hopen : l.Ready a (z.take t).2 := fun hu => ⟨hskip _ (ht hu).1 rfl, (ht hu).2⟩
        have hnext := retraces_operandOf hcall hr hnode _ hopen
        rw [step, operators_operator hl hlook]
        rcases he : z.step call (d || (z.grammar.definition r).comments) (operandOf r node tier) (z.take t).2
          with ⟨o, u⟩
        rw [he] at hnext
        cases o with
        | matched =>
          have hrest := ih u (hopen.matched hnext (admits_operandOf hr hnode))
          rw [andThen_matched he]
          exact ⟨fun hc => hrest.cut (hnext.cut hc), hrest.memo, fun hc =>
            .operator hl hlook (hnext.finds (hrest.uncut hc)) (hrest.finds hc)⟩
        | failed | horizon | endless =>
          rw [andThen_broken (by simp [he]), he]
          exact ⟨hnext.cut, hnext.memo, fun hc => .stranded hl hlook (hnext.finds hc) nofun⟩
    · rw [step, Recognizer.operators, guarded_limit hl]
      exact ht.still rfl rfl (.stopped hl)

/-- What a rule does when it is not known, given how rules are called there. -/
theorem retraced_body (hr : l.calls c r a) (ht : l.Ready a t) :
    l.Retraced c (.call r) t (z.body call (c || (z.grammar.definition r).comments) r t) := by
  have hoperand := retraces_operand hcall hr t ht
  rcases htable : z.grammar.table? r with _ | table
  · rw [body_plain htable]
    exact hoperand.imp (fun hf => .plain htable hf) rfl rfl
  · rcases he : z.alternatives call (c || (z.grammar.definition r).comments) r t with ⟨o, u⟩
    rw [step, he] at hoperand
    rw [body_climbed htable]
    cases o with
    | matched =>
      rw [andThen_matched he]
      exact hoperand.after rfl
        (retraces_operators hcall htable hr z.rounds u (ht.matched hoperand ⟨rfl, _, rfl, hr⟩))
        fun hf1 hf2 => .climbed htable hf1 hf2
    | failed | horizon | endless =>
      rw [andThen_broken (by simp [he]), he]
      exact hoperand.imp (fun hf => .unbuilt htable hf nofun) rfl rfl

end

/-- Whether a rule is known or tried, a call that was not cut does what a recognizer without memo does. -/
theorem retraces_call (n : Nat) (c : Bool) (r : Rule) (a : κ) (hr : l.calls c r a) :
    l.Retraces (z.call n) c (.call r) a := by
  induction n generalizing c r a with
  | zero => exact fun t ht => ⟨fun _ => rfl, nofun, nofun⟩
  | succ n ih =>
    intro t ht
    rw [step]
    unfold call
    dsimp only
    split
    · rename_i stop hk
      refine ⟨id, fun hc => (ht hc).2, fun hc => ?_⟩
      exact (ht hc).2 _ _ _ _ _ hk a t.pos hr (ht hc).1 rfl
    · rename_i o stop hne hk
      have hv : verdict (o, t) = o.verdict stop := Outcome.verdict_of_ne_matched hne
      refine ⟨id, fun hc => (ht hc).2, fun hc => ?_⟩
      exact hv ▸ (ht hc).2 _ _ _ _ _ hk a t.pos hr (ht hc).1 rfl
    · have hbody := retraced_body ih hr ht
      refine ⟨hbody.cut, fun hc => (hbody.memo hc).insert ?_, hbody.finds⟩
      intro b p hb hp hs
      rw [l.apart hb hr hp (ht (hbody.uncut hc)).1 hs]
      exact hbody.finds hc

end Lanes

end Recognizer

end KermlText
