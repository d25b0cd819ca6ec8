import KermlText.Language
import KermlText.Proofs.Heads
import KermlText.Scanner

/-! The test of what an alternative may begin with loses nothing. A recognizer that tries every alternative finds
what the recognizer finds that tries those only which may begin with the kind ahead: the others fail. What it
remembers differs, and so does the farthest place that it reports, but nothing else. -/

namespace KermlText

/-- The two verdicts are one but for the farthest place of a failure. -/
inductive Verdict.Alike : Verdict → Verdict → Prop
  | refl (v : Verdict) : Alike v v
  | failed (i j : Nat) : Alike (.failed i) (.failed j)

namespace Verdict.Alike

variable {v v' : Verdict} {q i : Nat}

theorem eq (h : v.Alike v') (hv : ∀ i, v' ≠ .failed i) : v = v' := by
  cases h with
  | refl => rfl
  | failed i j => exact absurd rfl (hv j)

theorem matched_iff (h : v.Alike v') : v' = .matched q ↔ v = .matched q := by
  cases h with
  | refl => rfl
  | failed i j => exact ⟨nofun, nofun⟩

theorem of_failed (h : v.Alike (.failed i)) : ∃ j, v = .failed j := by
  cases h with
  | refl => exact ⟨i, rfl⟩
  | failed j _ => exact ⟨j, rfl⟩

theorem not_failed (h : v.Alike v') (hv : ∀ i, v' ≠ .failed i) (i : Nat) : v ≠ .failed i := h.eq hv ▸ hv i

end Verdict.Alike

namespace Recognizer

variable {z : Recognizer} {pos : Nat}

/-- A match leads on from the start. -/
theorem Finds.leftAt (hz : z.stream.Silent) {c : Bool} {n : Attempt} {p q : Nat} {v : Verdict}
    (h : z.Finds c n p v) (hp : z.stream.LeftAt pos p) (hv : v = .matched q) : z.stream.LeftAt pos q := by
  induction h generalizing q with
  | limit | miss | spent | short | none | exhausted | stopped => cases hv
  | hit _ _ h =>
    cases hv
    rcases of_behind? h with rfl | rfl | ⟨i, hi, -⟩
    · exact hp
    · exact hp.skip
    · rw [hz.comment?] at hi
      cases hi
  | rule _ _ ih | ruleAt _ _ ih | present _ _ _ ih | repeated _ _ ih | seq _ _ ih | labeled _ _ ih | found _ _ ih
  | operand _ ih | next _ _ _ ih | plain _ _ ih => exact ih hp hv
  | absent | nil | still | done | bare =>
    cases hv
    exact hp
  | cons _ _ ih1 ih2 | again _ _ _ ih1 ih2 | climbed _ _ _ ih1 ih2 => exact ih2 (ih1 hp rfl) hv
  | operator _ _ _ _ ih1 ih2 => exact ih2 (ih1 hp.skip rfl) hv
  | broken _ hne | stranded _ _ _ hne | unbuilt _ _ hne => exact absurd hv (hne q)
  | halted _ hne => rcases hne with rfl | rfl <;> cases hv

/-! ### Trials that try every alternative -/

section

variable (z pos)

/-- What is known of a rule would be found again by the recognizer that tests, and goes with the kind ahead. -/
def Recalled (r : Rule) (i : Nat) (c : Bool) (o : Outcome) (j : Nat) : Prop :=
  (∀ p, z.stream.LeftAt pos p → z.stream.settle p = i → ∃ v, z.Finds c (.call r) p v ∧ v.Alike (o.verdict j)) ∧
    z.Headed pos r i c o j

/-- A trial that was not cut stands where it may have come from `pos`, and what it knows is so. -/
def Mindful (t : Trial) : Prop := t.cut = false → z.stream.LeftAt pos t.pos ∧ t.memo.Holds (z.Recalled pos)

/-- How an attempt from `t` ends, unless it was cut: as the recognizer that tests would end it. -/
structure Traced (c : Bool) (n : Attempt) (t : Trial) (e : Outcome × Trial) : Prop where
  cut : t.cut = true → e.2.cut = true
  memo : e.2.cut = false → e.2.memo.Holds (z.Recalled pos)
  finds : e.2.cut = false → ∃ v, z.Finds c n t.pos v ∧ v.Alike (verdict e)

def Traces (step : Step) (c : Bool) (n : Attempt) : Prop := ∀ t, z.Mindful pos t → z.Traced pos c n t (step t)

end

section

variable {c d : Bool} {n n' : Attempt} {t u : Trial} {e e' : Outcome × Trial}

theorem Traced.uncut (h : z.Traced pos c n t e) (he : e.2.cut = false) : t.cut = false := by
  rcases hc : t.cut with _ | _
  · rfl
  · rw [h.cut hc] at he
    cases he

theorem Traced.imp (h : z.Traced pos c n t e)
    (hv : ∀ v, z.Finds c n t.pos v → v.Alike (verdict e) → ∃ v', z.Finds d n' t.pos v' ∧ v'.Alike (verdict e'))
    (hm : e'.2.memo = e.2.memo) (hc : e'.2.cut = e.2.cut) : z.Traced pos d n' t e' := by
  refine ⟨fun ht => hc ▸ h.cut ht, fun he => hm ▸ h.memo (hc ▸ he), fun he => ?_⟩
  obtain ⟨v, hf, ha⟩ := h.finds (hc ▸ he)
  exact hv v hf ha

/-- An attempt that ends as the last of its parts does. -/
theorem Traced.after (h1 : z.Traced pos c n t e) (hu : u.cut = e.2.cut) (h2 : z.Traced pos d n' u e') {k : Bool}
    {m : Attempt} (hv : ∀ v v', z.Finds c n t.pos v → v.Alike (verdict e) → z.Finds d n' u.pos v' →
      v'.Alike (verdict e') → ∃ w, z.Finds k m t.pos w ∧ w.Alike (verdict e')) : z.Traced pos k m t e' := by
  refine ⟨fun ht => h2.cut (hu ▸ h1.cut ht), h2.memo, fun he => ?_⟩
  obtain ⟨v, hf, ha⟩ := h1.finds (hu ▸ h2.uncut he)
  obtain ⟨v', hf', ha'⟩ := h2.finds he
  exact hv v v' hf ha hf' ha'

theorem Mindful.stands (ht : z.Mindful pos t) (hc : t.cut = false) : z.Stands pos t :=
  ⟨(ht hc).1, fun r i d o j hf => ((ht hc).2 r i d o j hf).2⟩

theorem Mindful.matched (hz : z.stream.Silent) (ht : z.Mindful pos t) (h : z.Traced pos c n t (.matched, u)) :
    z.Mindful pos u := by
  intro hu
  obtain ⟨v, hf, ha⟩ := h.finds hu
  exact ⟨hf.leftAt hz (ht (h.uncut hu)).1 (ha.eq nofun), h.memo hu⟩

theorem Mindful.back (ht : z.Mindful pos t) (h : z.Traced pos c n t e) : z.Mindful pos { e.2 with pos := t.pos } :=
  fun hu => ⟨(ht (h.uncut hu)).1, h.memo hu⟩

theorem Mindful.still (ht : z.Mindful pos t) {v : Verdict} (he : e.2.cut = t.cut ∧ e.2.memo = t.memo)
    (h : verdict e = v) (hf : z.Finds c n t.pos v) : z.Traced pos c n t e := by
  subst h
  exact ⟨fun hc => he.1 ▸ hc, fun hc => he.2 ▸ (ht (he.1 ▸ hc)).2, fun _ => ⟨_, hf, .refl _⟩⟩

end

/-! ### Elements -/

section

variable {call : Bool → Rule → Step} {c : Bool}

section

variable (hl : ∀ p, z.limitAt p = false)
include hl

theorem guarded_eq_of_not_limit (step : Step) : z.guarded step = step := by
  funext t
  exact guarded_of_not_limit (hl t.pos) step

theorem traces_single {e : Element} (he : e.isSingle = true) :
    z.Traces pos (z.element call c e) c (.element e) := by
  intro t ht
  obtain ⟨b, hb⟩ := element_single call c (hl t.pos) he
  rw [hb]
  rcases hq : z.behind? c e t.pos with _ | q
  · exact ht.still ⟨rfl, rfl⟩ rfl (.miss (hl t.pos) he hq)
  · exact ht.still ⟨rfl, rfl⟩ rfl (.hit (hl t.pos) he hq)

theorem traces_optional {e : Element} {step : Step} (h : z.Traces pos step c (.element e)) :
    z.Traces pos (optional step) c (.element (.optional e)) := by
  intro t ht
  have he := h t ht
  rcases hr : step t with ⟨o, u⟩
  rw [hr] at he
  cases o with
  | failed i =>
    rw [optional_failed hr]
    refine he.imp (fun v hf ha => ?_) rfl rfl
    obtain ⟨j, rfl⟩ := ha.of_failed
    exact ⟨_, .absent (hl t.pos) hf, .refl _⟩
  | matched | horizon | endless =>
    rw [optional_present (by rw [hr]; nofun), hr]
    exact he.imp (fun v hf ha => ⟨v, .present (hl t.pos) hf (ha.not_failed nofun), ha⟩) rfl rfl

omit hl in
theorem traces_items (hz : z.stream.Silent) {e : Element} {step : Step} (h : z.Traces pos step c (.element e))
    (n need : Nat) : z.Traces pos (repeated step n need) c (.items e n need) := by
  induction n generalizing need with
  | zero => exact fun t ht => ht.still ⟨rfl, rfl⟩ rfl .spent
  | succ n ih =>
    intro t ht
    have hitem := h t ht
    rcases hr : step t with ⟨o, u⟩
    rw [hr] at hitem
    cases o with
    | matched =>
      by_cases hu : u.pos = t.pos
      · rw [repeated_still hr hu]
        refine hitem.imp (fun v hf ha => ?_) rfl rfl
        have hv : v = .matched t.pos := (ha.eq nofun).trans (congrArg Verdict.matched hu)
        subst hv
        exact ⟨_, .still hf, ha⟩
      · rw [repeated_again hr hu]
        refine hitem.after rfl (ih (need - 1) u (ht.matched hz hitem)) fun v v' hf ha hf' ha' => ?_
        obtain rfl : v = .matched u.pos := ha.eq nofun
        exact ⟨v', .again hf hu hf', ha'⟩
    | failed i =>
      rcases Nat.eq_zero_or_pos need with rfl | hn
      · rw [repeated_done hr]
        refine hitem.imp (fun v hf ha => ?_) rfl rfl
        obtain ⟨j, rfl⟩ := ha.of_failed
        exact ⟨_, .done hf, .refl _⟩
      · rw [repeated_short hr _ hn]
        refine hitem.imp (fun v hf ha => ?_) rfl rfl
        obtain ⟨j, rfl⟩ := ha.of_failed
        exact ⟨_, .short hf hn, ha⟩
    | horizon =>
      rw [repeated_halted (by rw [hr]; exact .inl rfl), hr]
      exact hitem.imp (fun v hf ha => ⟨v, .halted hf (.inl (ha.eq nofun)), ha⟩) rfl rfl
    | endless =>
      rw [repeated_halted (by rw [hr]; exact .inr rfl), hr]
      exact hitem.imp (fun v hf ha => ⟨v, .halted hf (.inr (ha.eq nofun)), ha⟩) rfl rfl

end

mutual

theorem traces_element (hl : ∀ p, z.limitAt p = false) (hz : z.stream.Silent)
    (hcall : ∀ c r, z.Traces pos (call c r) c (.call r)) (c : Bool) :
    ∀ e : Element, z.Traces pos (z.element call c e) c (.element e)
  | .token k => traces_single hl rfl
  | .relation k _ => traces_single hl rfl
  | .oneOf ks => traces_single hl rfl
  | .comment => traces_single hl rfl
  | .rule r => by
    rw [element, guarded_eq_of_not_limit hl]
    exact fun t ht => (hcall c r t ht).imp (fun v hf ha => ⟨v, .rule (hl t.pos) hf, ha⟩) rfl rfl
  | .ruleAt r _ => by
    rw [element, guarded_eq_of_not_limit hl]
    exact fun t ht => (hcall c r t ht).imp (fun v hf ha => ⟨v, .ruleAt (hl t.pos) hf, ha⟩) rfl rfl
  | .optional e => by
    rw [element, guarded_eq_of_not_limit hl]
    exact traces_optional hl (traces_element hl hz hcall c e)
  | .repeated e least _ => by
    rw [element, guarded_eq_of_not_limit hl]
    exact fun t ht => (traces_items hz (traces_element hl hz hcall c e) z.rounds least t ht).imp
      (fun v hf ha => ⟨v, .repeated (hl t.pos) hf, ha⟩) rfl rfl
  | .seq es => by
    rw [element, guarded_eq_of_not_limit hl]
    exact fun t ht => (traces_row hl hz hcall c es t ht).imp (fun v hf ha => ⟨v, .seq (hl t.pos) hf, ha⟩) rfl rfl
  | .labeled _ _ e => by
    rw [element, guarded_eq_of_not_limit hl]
    exact fun t ht => (traces_element hl hz hcall c e t ht).imp (fun v hf ha => ⟨v, .labeled (hl t.pos) hf, ha⟩)
      rfl rfl

theorem traces_row (hl : ∀ p, z.limitAt p = false) (hz : z.stream.Silent)
    (hcall : ∀ c r, z.Traces pos (call c r) c (.call r)) (c : Bool) :
    ∀ es : List Element, z.Traces pos (z.row call c es) c (.row es)
  | [] => by
    rw [row]
    exact fun t ht => ht.still ⟨rfl, rfl⟩ rfl .nil
  | e :: es => by
    intro t ht
    have h1 := traces_element hl hz hcall c e t ht
    rcases hr : z.element call c e t with ⟨o, u⟩
    rw [hr] at h1
    rw [row]
    cases o with
    | matched =>
      rw [andThen_matched hr]
      refine h1.after rfl (traces_row hl hz hcall c es u (ht.matched hz h1)) fun v v' hf ha hf' ha' => ?_
      obtain rfl : v = .matched u.pos := ha.eq nofun
      exact ⟨v', .cons hf hf', ha'⟩
    | failed i =>
      rw [andThen_broken (by rw [hr]; nofun), hr]
      refine h1.imp (fun v hf ha => ?_) rfl rfl
      obtain ⟨j, rfl⟩ := ha.of_failed
      exact ⟨_, .broken hf nofun, ha⟩
    | horizon | endless =>
      rw [andThen_broken (by rw [hr]; nofun), hr]
      refine h1.imp (fun v hf ha => ?_) rfl rfl
      rw [ha.eq nofun] at hf
      exact ⟨_, .broken hf nofun, .refl _⟩

end

end

/-! ### Rules -/

theorem operatorsBy_bare {may : Kind → Alternative → Bool} {call : Bool → Rule → Step} {c : Bool} {r : Rule}
    {table : Table} {t : Trial} (hl : z.limitAt t.pos = false)
    (ht : table.lookup (z.stream.lookahead t.pos c) = none) (n : Nat) :
    z.operatorsBy may call c r table (n + 1) t = (.matched, t) := by
  unfold operatorsBy
  rw [guarded_of_not_limit hl, ht]

theorem operatorsBy_operator {may : Kind → Alternative → Bool} {call : Bool → Rule → Step} {c : Bool}
    {r node : Rule} {table : Table} {tier : Tier} {t : Trial} (hl : z.limitAt t.pos = false)
    (ht : table.lookup (z.stream.lookahead t.pos c) = some (tier, node)) (n : Nat) :
    z.operatorsBy may call c r table (n + 1) t =
      andThen (if tier.form = .binary then z.alternativesBy may call c r else call c node)
        (z.operatorsBy may call c r table n) (z.take t).2 := by
  conv_lhs => unfold operatorsBy
  rw [guarded_of_not_limit hl, ht]
  exact andThen_matched rfl

theorem limitAt_of_far (hfar : z.stream.size ≤ z.horizon) (p : Nat) : z.limitAt p = false := by
  have := z.stream.settle_le_size p
  simp only [limitAt, Stream.atEnd, Bool.and_eq_false_iff, decide_eq_false_iff_not, Bool.not_eq_false',
    beq_iff_eq]
  omega

section

variable {call : Bool → Rule → Step} (hfar : z.stream.size ≤ z.horizon) (hz : z.Plain)
  (hcall : ∀ c r, z.Traces pos (call c r) c (.call r)) (hheads : z.CallHeads pos call)
include hfar hz hcall hheads

/-- An alternative that fails the test fails. -/
theorem failed_of_not_startsWith {c : Bool} {a : Alternative} {t u : Trial} {o : Outcome} (ht : z.Mindful pos t)
    (ha : z.startsWith (z.stream.lookahead t.pos c) a = false) (hlr : a.leftRecursive = false)
    (hr : z.row call c a.elements t = (o, u)) (hu : u.cut = false) : ∃ i, o = .failed i := by
  have hrow := traces_row (limitAt_of_far hfar) hz.silent hcall c a.elements t ht
  rw [hr] at hrow
  have hb := (heads_row hz hheads c a.elements t (ht.stands (hrow.uncut hu))).1
  rw [hr] at hb
  simp only [startsWith, hlr, Bool.not_false, Bool.true_and, Bool.or_eq_false_iff, hz.lookahead] at ha
  cases o with
  | matched =>
    rcases hb.ahead rfl with h | h
    · exact absurd (ha.1.symm.trans h) Bool.false_ne_true
    · exact absurd (ha.2.symm.trans h) Bool.false_ne_true
  | endless => exact absurd (ha.1.symm.trans (hb.endless rfl)) Bool.false_ne_true
  | failed i => exact ⟨i, rfl⟩
  | horizon => exact absurd (hb.horizon rfl) (Nat.not_lt.2 hfar)

theorem traces_firstOf (c : Bool) (as : List Alternative) (far far' : Nat) {t : Trial} (ht : z.Mindful pos t) :
    z.Traced pos c (.firstOf (as.filter (z.startsWith (z.stream.lookahead t.pos c))) far') t
      (z.firstMatch call c (as.filter (untested (z.stream.lookahead t.pos c))) far t) := by
  induction as generalizing far far' t with
  | nil => exact ⟨id, fun hc => (ht hc).2, fun _ => ⟨.failed far', .none, .failed _ _⟩⟩
  | cons a as ih =>
    have huntested : untested (z.stream.lookahead t.pos c) a = !a.leftRecursive := rfl
    cases hlr : a.leftRecursive with
    | true =>
      rw [hlr, Bool.not_true, ← Bool.not_eq_true] at huntested
      have hstarts : ¬z.startsWith (z.stream.lookahead t.pos c) a = true := by simp [startsWith, hlr]
      rw [List.filter_cons_of_neg huntested, List.filter_cons_of_neg hstarts]
      exact ih far far' ht
    | false =>
      have hrow := traces_row (limitAt_of_far hfar) hz.silent hcall c a.elements t ht
      rw [hlr, Bool.not_false] at huntested
      rw [List.filter_cons_of_pos huntested]
      rcases hr : z.row call c a.elements t with ⟨o, u⟩
      rw [hr] at hrow
      cases hs : z.startsWith (z.stream.lookahead t.pos c) a with
      | true =>
        rw [List.filter_cons_of_pos hs]
        cases o with
        | failed i =>
          have hrest (far' : Nat) := ih (max far i) far' (ht.back hrow)
          rw [firstMatch_next hr]
          refine ⟨fun hc => (hrest 0).cut (hrow.cut hc), (hrest 0).memo, fun hu => ?_⟩
          obtain ⟨v, hf, ha⟩ := hrow.finds ((hrest 0).uncut hu)
          obtain ⟨j, rfl⟩ := ha.of_failed
          obtain ⟨v', hf', ha'⟩ := (hrest (max far' j)).finds hu
          exact ⟨v', .next hf hf', ha'⟩
        | matched | horizon | endless =>
          rw [firstMatch_found (by simp [hr]), hr]
          exact hrow.imp (fun v hf ha => ⟨v, .found hf (ha.not_failed (by simp [verdict])), ha⟩) rfl rfl
      | false =>
        have hfail := failed_of_not_startsWith hfar hz hcall hheads ht hs hlr hr
        rw [← Bool.not_eq_true] at hs
        rw [List.filter_cons_of_neg hs]
        cases o with
        | failed i =>
          have hrest := ih (max far i) far' (ht.back hrow)
          rw [firstMatch_next hr]
          exact ⟨fun hc => hrest.cut (hrow.cut hc), hrest.memo, hrest.finds⟩
        | matched | horizon | endless =>
          rw [firstMatch_found (by simp [hr]), hr]
          refine ⟨hrow.cut, fun hu => ?_, fun hu => ?_⟩ <;>
            · obtain ⟨i, hi⟩ := hfail hu
              cases hi

theorem traces_operand (c : Bool) (r : Rule) :
    z.Traces pos (z.alternativesBy untested call c r) c (.operand r) := by
  intro t ht
  exact (traces_firstOf hfar hz hcall hheads c (z.grammar.alternatives r) (z.stream.settle t.pos)
    (z.stream.settle t.pos) ht).imp (fun v hf ha => ⟨v, .operand hf, ha⟩) rfl rfl

theorem traces_operandOf (c : Bool) (r node : Rule) (tier : Tier) :
    z.Traces pos (if tier.form = .binary then z.alternativesBy untested call c r else call c node) c
      (operandOf r node tier) := by
  unfold operandOf
  split
  · exact traces_operand hfar hz hcall hheads c r
  · exact hcall c node

theorem traces_operators (c : Bool) (r : Rule) (table : Table) (n : Nat) :
    z.Traces pos (z.operatorsBy untested call c r table n) c (.operators r table n) := by
  induction n with
  | zero => exact fun t ht => ht.still ⟨rfl, rfl⟩ rfl .exhausted
  | succ n ih =>
    intro t ht
    have hl := limitAt_of_far hfar t.pos
    rcases hlook : table.lookup (z.stream.lookahead t.pos c) with _ | ⟨tier, node⟩
    · rw [operatorsBy_bare hl hlook]
      exact ht.still ⟨rfl, rfl⟩ rfl (.bare hl hlook)
    · have hopen : z.Mindful pos (z.take t).2 := fun hu => ⟨(ht hu).1.skip, (ht hu).2⟩
      have hnext := traces_operandOf hfar hz hcall hheads c r node tier _ hopen
      rw [operatorsBy_operator hl hlook]
      rcases he : (if tier.form = .binary then z.alternativesBy untested call c r else call c node) (z.take t).2
        with ⟨o, u⟩
      rw [he] at hnext
      cases o with
      | matched =>
        have hrest := ih u (hopen.matched hz.silent hnext)
        rw [andThen_matched he]
        refine ⟨fun hc => hrest.cut (hnext.cut hc), hrest.memo, fun hc => ?_⟩
        obtain ⟨v, hf, ha⟩ := hnext.finds (hrest.uncut hc)
        obtain ⟨v', hf', ha'⟩ := hrest.finds hc
        obtain rfl : v = .matched u.pos := ha.eq nofun
        exact ⟨v', .operator hl hlook hf hf', ha'⟩
      | failed i =>
        rw [andThen_broken (by rw [he]; nofun), he]
        refine ⟨hnext.cut, hnext.memo, fun hc => ?_⟩
        obtain ⟨v, hf, ha⟩ := hnext.finds hc
        obtain ⟨j, rfl⟩ := ha.of_failed
        exact ⟨_, .stranded hl hlook hf nofun, ha⟩
      | horizon | endless =>
        rw [andThen_broken (by rw [he]; nofun), he]
        refine ⟨hnext.cut, hnext.memo, fun hc => ?_⟩
        obtain ⟨v, hf, ha⟩ := hnext.finds hc
        rw [ha.eq nofun] at hf
        exact ⟨_, .stranded hl hlook hf nofun, .refl _⟩

/-- What a rule does when it is not known. -/
theorem traces_body (c : Bool) (r : Rule) :
    z.Traces pos (z.bodyBy untested call (c || (z.grammar.definition r).comments) r) c (.call r) := by
  intro t ht
  have hoperand := traces_operand hfar hz hcall hheads (c || (z.grammar.definition r).comments) r t ht
  unfold bodyBy
  rcases htable : z.grammar.table? r with _ | table
  · exact hoperand.imp (fun v hf ha => ⟨v, .plain htable hf, ha⟩) rfl rfl
  · dsimp only
    rcases he : z.alternativesBy untested call (c || (z.grammar.definition r).comments) r t with ⟨o, u⟩
    rw [he] at hoperand
    cases o with
    | matched =>
      have hrest := traces_operators hfar hz hcall hheads (c || (z.grammar.definition r).comments) r table z.rounds u
        (ht.matched hz.silent hoperand)
      rw [andThen_matched he]
      refine hoperand.after rfl hrest fun v v' hf ha hf' ha' => ?_
      obtain rfl : v = .matched u.pos := ha.eq nofun
      exact ⟨v', .climbed htable hf hf', ha'⟩
    | failed i =>
      rw [andThen_broken (by rw [he]; nofun), he]
      refine hoperand.imp (fun v hf ha => ?_) rfl rfl
      obtain ⟨j, rfl⟩ := ha.of_failed
      exact ⟨_, .unbuilt htable hf nofun, ha⟩
    | horizon | endless =>
      rw [andThen_broken (by rw [he]; nofun), he]
      refine hoperand.imp (fun v hf ha => ?_) rfl rfl
      rw [ha.eq nofun] at hf
      exact ⟨_, .unbuilt htable hf nofun, .refl _⟩

end

/-- Whether a rule is known or tried, a call that was not cut ends as the recognizer that tests would end it. -/
theorem traces_callBy (hfar : z.stream.size ≤ z.horizon) (hz : z.Plain) (hg : z.grammar.Saturated) (n : Nat)
    (c : Bool) (r : Rule) : z.Traces pos (z.callBy untested n c r) c (.call r) := by
  induction n generalizing c r with
  | zero => exact fun t ht => ⟨fun _ => rfl, nofun, nofun⟩
  | succ n ih =>
    intro t ht
    unfold callBy
    dsimp only
    split
    · rename_i stop hk
      refine ⟨id, fun hc => (ht hc).2, fun hc => ?_⟩
      exact ((ht hc).2 _ _ _ _ _ hk).1 t.pos (ht hc).1 rfl
    · rename_i o stop hne hk
      have hv : verdict (o, t) = o.verdict stop := Outcome.verdict_of_ne_matched hne
      refine ⟨id, fun hc => (ht hc).2, fun hc => ?_⟩
      exact hv ▸ ((ht hc).2 _ _ _ _ _ hk).1 t.pos (ht hc).1 rfl
    · have hheads : z.CallHeads pos (z.callBy untested n) := fun c r => heads_callBy hz hg c n r
      have hbody := traces_body hfar hz ih hheads c r t ht
      refine ⟨hbody.cut, fun hc => (hbody.memo hc).insert ⟨fun p hp hs => ?_, fun p hs => ?_⟩, hbody.finds⟩
      · rw [eq_of_settle_eq hz.silent (ht (hbody.uncut hc)).1 hp hs]
        exact hbody.finds hc
      · have hb : z.Heads pos (z.grammar.first r) (z.grammar.nullable r)
            (z.bodyBy untested (z.callBy untested n) (c || (z.grammar.definition r).comments) r) :=
          heads_bodyBy hz hg hheads _ r
        exact (hb t (ht.stands (hbody.uncut hc))).1.settled hs

/-! ### Both recognizers -/

/-- What may be known from trials that were started at `pos`. -/
inductive Learnt (z : Recognizer) (pos : Nat) : Memo → Prop
  | nothing : Learnt z pos .empty
  | trial {m} (h : Learnt z pos m) (n : Nat) (c : Bool) (es : List Element) :
    Learnt z pos (z.row (z.call n) c es (.start pos m)).2.memo

theorem callHeads_call (hz : z.Plain) (hg : z.grammar.Saturated) (n : Nat) : z.CallHeads pos (z.call n) :=
  fun c r => callBy_startsWith z n ▸ heads_callBy hz hg c n r

theorem Learnt.stands (hz : z.Plain) (hg : z.grammar.Saturated) {m : Memo} (h : z.Learnt pos m) :
    z.Stands pos (.start pos m) := by
  refine ⟨.inl rfl, ?_⟩
  induction h with
  | nothing => exact Memo.holds_empty _
  | trial _ n c es ih => exact (heads_row hz (callHeads_call hz hg n) c es _ ⟨.inl rfl, ih⟩).2

/-- Where both recognizers find out what a piece does, they find the same. -/
theorem agree_of_finds {c : Bool} {n : Attempt} {p : Nat} {e e' : Outcome × Trial}
    (h : z.Finds c n p (verdict e)) (h' : ∃ v, z.Finds c n p v ∧ v.Alike (verdict e')) :
    (e'.1 = .matched ↔ e.1 = .matched) ∧ (e.1 = .matched → e'.2.pos = e.2.pos) := by
  obtain ⟨v, hf, ha⟩ := h'
  obtain rfl := h.unique hf
  have hiff (q : Nat) := ha.matched_iff (q := q)
  simp only [verdict, Outcome.verdict_eq_matched] at hiff
  refine ⟨⟨fun he => ((hiff _).1 ⟨he, rfl⟩).1, fun he => ((hiff _).2 ⟨he, rfl⟩).1⟩, fun he => ?_⟩
  exact ((hiff _).2 ⟨he, rfl⟩).2

end Recognizer

/-- Alternatives are tested by their first kind, and no match is lost. On a stream without comments, whatever
alternative a trial matches, the kind ahead is one that the alternative may begin with, or the alternative may
be empty. So a recognizer that sees the whole stream and nests no call too deep finds a match of a rule just
where it finds one if it tries every alternative that is not left-recursive, and the match ends at the same place. -/
theorem Recognizer.test_loses_nothing (defs : List Definition) (tables : List Table) {ts : List Token}
    (hts : ∀ t ∈ ts, t.channel ≠ .comment) (horizon pos : Nat) (r : Rule) (c : Bool) :
    let z : Recognizer := ⟨.build defs tables, .ofTokens ts, horizon⟩
    (∀ m, z.Learnt pos m → ∀ a ∈ z.grammar.alternatives r, ∀ n,
      (z.row (z.call n) c a.elements (.start pos m)).1 = .matched →
      (z.grammar.firstOfRow a.elements).contains (z.stream.kind pos) = true ∨
        z.grammar.rowNullable a.elements = true) ∧
    (z.stream.size ≤ horizon → ∀ n n',
      let e := z.alternatives (z.call n) c r (.start pos .empty)
      let e' := z.alternativesBy untested (z.callBy untested n') c r (.start pos .empty)
      e.2.cut = false → e'.2.cut = false →
      (e'.1 = .matched ↔ e.1 = .matched) ∧ (e.1 = .matched → e'.2.pos = e.2.pos)) ∧
    (z.stream.size ≤ horizon → ∀ n n',
      let e := z.call n c r (.start pos .empty)
      let e' := z.callBy untested n' c r (.start pos .empty)
      e.2.cut = false → e'.2.cut = false →
      (e'.1 = .matched ↔ e.1 = .matched) ∧ (e.1 = .matched → e'.2.pos = e.2.pos)) := by
  intro z
  have hz : z.Plain := ⟨hts, Stream.kind_eof_ofTokens ts⟩
  have hg : z.grammar.Saturated := Grammar.saturated_build defs tables
  have hready : (lanesFrom z hz.silent pos).Ready () (.start pos .empty) := fun _ => ⟨.inl rfl, Memo.holds_empty _⟩
  have hmindful : z.Mindful pos (.start pos .empty) := fun _ => ⟨.inl rfl, Memo.holds_empty _⟩
  refine ⟨?_, ?_, ?_⟩
  · intro m hm a _ n hmatch
    exact (heads_row hz (callHeads_call hz hg n) c a.elements _ (hm.stands hz hg)).1.ahead hmatch
  · intro hfar n n' e e' hc hc'
    have h : (lanesFrom z hz.silent pos).Retraced c (.firstOf (z.candidates c r pos) (z.stream.settle pos))
        (.start pos .empty) (z.step (z.call n) c (.firstOf (z.candidates c r pos) (z.stream.settle pos)) _) :=
      Lanes.retraces_firstOf (Lanes.retraces_call n) _ _ (fun _ _ => inRow_unit _) _ hready
    have h' := traces_operand hfar hz (traces_callBy hfar hz hg n') (fun c r => heads_callBy hz hg c n' r) c r _
      hmindful
    exact agree_of_finds (.operand (h.finds hc)) (h'.finds hc')
  · intro hfar n n' e e' hc hc'
    have h := Lanes.retraces_call n c r () trivial _ hready
    have h' := traces_callBy hfar hz hg n' c r _ hmindful
    exact agree_of_finds (h.finds hc) (h'.finds hc')

/-- A name begins as the test asks, and a sum of two names is found with the test and without. -/
theorem Recognizer.test_loses_nothing_sum :
    let z : Recognizer := ⟨.build Rules.all [Rules.operatorTable, Rules.suffixTable], .ofTokens (scan "a + b"), 8⟩
    let e := z.call 40 false .ownedExpression (.start 0 .empty)
    let e' := z.callBy untested 40 false .ownedExpression (.start 0 .empty)
    (∃ a ∈ z.grammar.alternatives .qualifiedName, (z.row (z.call 40) false a.elements (.start 0 .empty)).1 = .matched ∧
      ((z.grammar.firstOfRow a.elements).contains (z.stream.kind 0) = true ∨
        z.grammar.rowNullable a.elements = true)) ∧
    z.stream.size ≤ 8 ∧ e.2.cut = false ∧ e'.2.cut = false ∧ e.1 = .matched ∧ e'.1 = .matched ∧
      e'.2.pos = e.2.pos := by
  intro z e e'
  have hts : ∀ t ∈ scan "a + b", t.channel ≠ .comment := by decide +kernel
  obtain ⟨⟨a, ha, hmatch⟩, hsize, he, hcut, hcut'⟩ :
      (∃ a ∈ z.grammar.alternatives .qualifiedName,
        (z.row (z.call 40) false a.elements (.start 0 .empty)).1 = .matched) ∧
        z.stream.size ≤ 8 ∧ e.1 = .matched ∧ e.2.cut = false ∧ e'.2.cut = false := by decide +kernel
  have hname := (Recognizer.test_loses_nothing Rules.all [Rules.operatorTable, Rules.suffixTable] hts 8 0
    .qualifiedName false).1 .empty .nothing
  obtain ⟨-, -, hcall⟩ := Recognizer.test_loses_nothing Rules.all [Rules.operatorTable, Rules.suffixTable] hts 8 0
    .ownedExpression false
  have hz : z = ⟨.build Rules.all [Rules.operatorTable, Rules.suffixTable], .ofTokens (scan "a + b"), 8⟩ := rfl
  rw [← hz] at hname hcall
  -- The recognizer is kept folded: else the two runs are compared by running them.
  clear_value z
  obtain ⟨hmatched, hpos⟩ := hcall hsize 40 40 hcut hcut'
  exact ⟨⟨a, ha, hmatch, hname a ha 40 hmatch⟩, hsize, hcut, hcut', he, hmatched.2 he, hpos he⟩

end KermlText
