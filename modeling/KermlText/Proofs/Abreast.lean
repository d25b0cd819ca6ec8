import KermlText.Proofs.Decisions

/-! Trials that go abreast. Two recognizers of one grammar, on one stream or on two, pair the places that a
trial may come to. If the same is seen from places of a pair, and both go on from there to places of a pair,
then trials do the same on both sides: they match, fail, get to the horizon or go on for ever together. -/

namespace KermlText

/-- The same outcome, with failures at places of a pair. -/
inductive Outcome.Abreast (F : Nat → Nat → Prop) : Outcome → Outcome → Prop
  | matched : Abreast F .matched .matched
  | horizon : Abreast F .horizon .horizon
  | failed {i i'} (h : F i i') : Abreast F (.failed i) (.failed i')
  | endless : Abreast F .endless .endless

/-- Of a rule at a place, either both memos know nothing or both know the same. `P` pairs the places where
trials stand, and `F` those where they settle. -/
def Memo.Abreast (P F : Nat → Nat → Prop) (m m' : Memo) : Prop :=
  ∀ ⦃i i'⦄, F i i' → ∀ r c, Option.Rel (fun e e' => e.1.Abreast F e'.1 ∧ P e.2 e'.2) (m.find? r i c)
    (m'.find? r i' c)

theorem Memo.abreast_empty (P F : Nat → Nat → Prop) : empty.Abreast P F empty := by
  intro i i' _ r c
  rw [find?_empty, find?_empty]
  exact .none

structure Trial.Abreast (P F : Nat → Nat → Prop) (t t' : Trial) : Prop where
  pos : P t.pos t'.pos
  memo : t.memo.Abreast P F t'.memo

theorem Trial.Abreast.back {P F : Nat → Nat → Prop} {t t' u u' : Trial} (ht : t.Abreast P F t')
    (hu : u.Abreast P F u') : Trial.Abreast P F { u with pos := t.pos } { u' with pos := t'.pos } :=
  ⟨ht.pos, hu.memo⟩

namespace Recognizer

/-- How steps end together. Of trials that go on for ever nothing more is said. -/
inductive Paired (P F : Nat → Nat → Prop) : Outcome × Trial → Outcome × Trial → Prop
  | matched {t t'} (h : t.Abreast P F t') : Paired P F (.matched, t) (.matched, t')
  | horizon {t t'} (h : t.Abreast P F t') : Paired P F (.horizon, t) (.horizon, t')
  | failed {i i' t t'} (hi : F i i') (h : t.Abreast P F t') : Paired P F (.failed i, t) (.failed i', t')
  | endless {t t'} : Paired P F (.endless, t) (.endless, t')

/-- Steps that end together whenever they start together. -/
def StepsAbreast (P F : Nat → Nat → Prop) (step step' : Step) : Prop :=
  ∀ t t', t.Abreast P F t' → Paired P F (step t) (step' t')

/-- The same is seen from places of a pair, and both sides go on from there to such places. At the limit
nobody goes on. -/
structure Abreast (z z' : Recognizer) (P F : Nat → Nat → Prop) : Prop where
  grammar : z'.grammar = z.grammar
  same : ∀ {p p' q q'}, P p p' → P q q' → (p' = q' ↔ p = q)
  order : ∀ {i i' j j'}, F i i' → F j j' → (i' < j' ↔ i < j)
  settle : ∀ {p p'}, P p p' → F (z.stream.settle p) (z'.stream.settle p')
  atEnd : ∀ {p p'}, P p p' → z'.stream.atEnd p' = z.stream.atEnd p
  lookahead : ∀ {p p'}, P p p' → ∀ c, z'.stream.lookahead p' c = z.stream.lookahead p c
  limit : ∀ {t t' : Trial}, P t.pos t'.pos → z'.limitReached t' = z.limitReached t
  skip : ∀ {t t' : Trial}, P t.pos t'.pos → z.limitReached t = false →
    P (z.stream.skip t.pos) (z'.stream.skip t'.pos)
  comment : ∀ {t t' : Trial}, P t.pos t'.pos → z.limitReached t = false →
    Option.Rel (fun i i' => P (i + 1) (i' + 1)) (z.stream.comment? t.pos) (z'.stream.comment? t'.pos)

variable {z z' : Recognizer} {P F : Nat → Nat → Prop}

theorem Abreast.place (h : z.Abreast z' P F) {i i' j j' : Nat} (hi : F i i') (hj : F j j') :
    i' = j' ↔ i = j := by
  have h1 := h.order hi hj
  have h2 := h.order hj hi
  omega

theorem Abreast.max (h : z.Abreast z' P F) {i i' j j' : Nat} (hi : F i i') (hj : F j j') :
    F (Max.max i j) (Max.max i' j') := by
  have hlt := h.order hi hj
  rcases Nat.lt_or_ge i j with hij | hij
  · rwa [Nat.max_eq_right (Nat.le_of_lt hij), Nat.max_eq_right (Nat.le_of_lt (hlt.2 hij))]
  · rwa [Nat.max_eq_left hij, Nat.max_eq_left (Nat.not_lt.1 (mt hlt.1 (Nat.not_lt.2 hij)))]

/-! ### Steps -/

section

variable {step step' first first' second second' : Step}

theorem abreast_optional (hs : StepsAbreast P F step step') :
    StepsAbreast P F (optional step) (optional step') := by
  intro t t' ht
  have hstep := hs t t' ht
  unfold optional
  generalize step t = e at hstep ⊢
  generalize step' t' = e' at hstep ⊢
  cases hstep with
  | matched hu => exact .matched hu
  | horizon hu => exact .horizon hu
  | failed hi hu => exact .matched (ht.back hu)
  | endless => exact .endless

theorem abreast_andThen (h1 : StepsAbreast P F first first') (h2 : StepsAbreast P F second second') :
    StepsAbreast P F (andThen first second) (andThen first' second') := by
  intro t t' ht
  have hfirst := h1 t t' ht
  unfold andThen
  generalize first t = e at hfirst ⊢
  generalize first' t' = e' at hfirst ⊢
  cases hfirst with
  | matched hu => exact h2 _ _ hu
  | horizon hu => exact .horizon hu
  | failed hi hu => exact .failed hi hu
  | endless => exact .endless

variable (h : z.Abreast z' P F)
include h

theorem abreast_repeated (hs : StepsAbreast P F step step') (n need : Nat) :
    StepsAbreast P F (repeated step n need) (repeated step' n need) := by
  induction n generalizing need with
  | zero => exact fun _ _ _ => .endless
  | succ n ih =>
    intro t t' ht
    have hstep := hs t t' ht
    unfold repeated
    generalize step t = e at hstep ⊢
    generalize step' t' = e' at hstep ⊢
    cases hstep with
    | @matched u u' hu =>
      have hpos := h.same hu.pos ht.pos
      dsimp only
      by_cases hp : u.pos = t.pos
      · rw [if_pos hp, if_pos (hpos.2 hp)]
        exact .matched hu
      · rw [if_neg hp, if_neg (mt hpos.1 hp)]
        exact ih (need - 1) u u' hu
    | horizon hu => exact .horizon hu
    | failed hi hu =>
      dsimp only
      split
      · exact .failed hi hu
      · exact .matched (ht.back hu)
    | endless => exact .endless

/-- What stands under a guard is done only where a token may still be looked at. -/
theorem abreast_guarded (hs : ∀ t t', t.Abreast P F t' → z.limitReached t = false →
      Paired P F (step t) (step' t')) :
    StepsAbreast P F (z.guarded step) (z'.guarded step') := by
  intro t t' ht
  unfold guarded
  rw [h.limit ht.pos]
  split
  · exact .horizon ht
  · rename_i hl
    exact hs t t' ht (Bool.not_eq_true _ ▸ hl)

theorem StepsAbreast.guarded (hs : StepsAbreast P F step step') :
    StepsAbreast P F (z.guarded step) (z'.guarded step') :=
  abreast_guarded h fun t t' ht _ => hs t t' ht

section

variable {t t' : Trial} (ht : t.Abreast P F t')
include ht

theorem paired_fail : Paired P F (z.fail t) (z'.fail t') := .failed (h.settle ht.pos) ht

variable (hl : z.limitReached t = false)
include hl

theorem paired_take : Paired P F (z.take t) (z'.take t') := .matched ⟨h.skip ht.pos hl, ht.memo⟩

theorem paired_token (c : Bool) (k : Kind) : Paired P F (z.token c k t) (z'.token c k t') := by
  unfold token
  rw [h.lookahead ht.pos, h.atEnd ht.pos]
  split
  · split
    · exact .matched ht
    · exact paired_fail h ht
  · split
    · exact paired_take h ht hl
    · exact paired_fail h ht

theorem paired_oneOf (c : Bool) (ks : KindSet) : Paired P F (z.oneOf c ks t) (z'.oneOf c ks t') := by
  unfold oneOf
  rw [h.lookahead ht.pos]
  dsimp only
  split
  · exact paired_take h ht hl
  · exact paired_fail h ht

theorem paired_comment : Paired P F (z.comment t) (z'.comment t') := by
  have hrel := h.comment ht.pos hl
  unfold comment
  generalize z.stream.comment? t.pos = i at hrel ⊢
  generalize z'.stream.comment? t'.pos = i' at hrel ⊢
  cases hrel with
  | some hi => exact .matched ⟨hi, ht.memo⟩
  | none => exact paired_fail h ht

end

end

/-! ### Rules -/

/-- Lists and operators go abreast with all the rounds that either side allows, if what they consist of
does. -/
structure EvenRounds (z z' : Recognizer) (P F : Nat → Nat → Prop) (call call' : Bool → Rule → Step) :
    Prop where
  repeated : ∀ c e need, StepsAbreast P F (z.element call c e) (z'.element call' c e) →
    StepsAbreast P F (repeated (z.element call c e) z.rounds need)
      (Recognizer.repeated (z'.element call' c e) z'.rounds need)
  operators : ∀ c r table, StepsAbreast P F (z.alternatives call c r) (z'.alternatives call' c r) →
    (∀ q, StepsAbreast P F (call c q) (call' c q)) →
    StepsAbreast P F (z.operators call c r table z.rounds) (z'.operators call' c r table z'.rounds)

section

variable {call call' : Bool → Rule → Step} (h : z.Abreast z' P F)
include h

/-- With the same number of rounds on both sides. -/
theorem abreast_operators {c : Bool} {r : Rule} (table : Table)
    (ha : StepsAbreast P F (z.alternatives call c r) (z'.alternatives call' c r))
    (hcall : ∀ q, StepsAbreast P F (call c q) (call' c q)) (n : Nat) :
    StepsAbreast P F (z.operators call c r table n) (z'.operators call' c r table n) := by
  induction n with
  | zero => exact fun _ _ _ => .endless
  | succ n ih =>
    unfold operators
    refine abreast_guarded h fun t t' ht hl => ?_
    rw [h.lookahead ht.pos]
    split
    · exact .matched ht
    · rename_i tier node _
      have hnext : StepsAbreast P F
          (if tier.form = .binary then z.alternatives call c r else call c node)
          (if tier.form = .binary then z'.alternatives call' c r else call' c node) := by
        split
        · exact ha
        · exact hcall node
      -- taking the operator goes abreast from here, though not from everywhere
      have htake : (z.take t).2.Abreast P F (z'.take t').2 := ⟨h.skip ht.pos hl, ht.memo⟩
      exact abreast_andThen hnext ih _ _ htake

theorem evenRounds_of_size (hs : z'.stream.size = z.stream.size) (call call' : Bool → Rule → Step) :
    EvenRounds z z' P F call call' := by
  have hr : z'.rounds = z.rounds := by unfold rounds; rw [hs]
  exact ⟨fun c e need he => hr ▸ abreast_repeated h he _ need,
    fun c r table ha hcall => hr ▸ abreast_operators h table ha hcall _⟩

end

section

variable {call call' : Bool → Rule → Step}

mutual

theorem abreast_element (h : z.Abreast z' P F) (heven : EvenRounds z z' P F call call')
    (hcall : ∀ c r, StepsAbreast P F (call c r) (call' c r)) (c : Bool) :
    ∀ e : Element, StepsAbreast P F (z.element call c e) (z'.element call' c e)
  | .token k | .relation k _ => by
    unfold element
    exact abreast_guarded h fun t t' ht hl => paired_token h ht hl c k
  | .oneOf ks => by
    unfold element
    exact abreast_guarded h fun t t' ht hl => paired_oneOf h ht hl c ks
  | .comment => by
    unfold element
    exact abreast_guarded h fun t t' ht hl => paired_comment h ht hl
  | .rule r | .ruleAt r _ => by
    unfold element
    exact (hcall c r).guarded h
  | .optional e => by
    unfold element
    exact (abreast_optional (abreast_element h heven hcall c e)).guarded h
  | .repeated e least _ => by
    have he := abreast_element h heven hcall c e
    unfold element
    exact (heven.repeated c e least he).guarded h
  | .seq es => by
    unfold element
    exact (abreast_row h heven hcall c es).guarded h
  | .labeled _ _ e => by
    unfold element
    exact (abreast_element h heven hcall c e).guarded h

theorem abreast_row (h : z.Abreast z' P F) (heven : EvenRounds z z' P F call call')
    (hcall : ∀ c r, StepsAbreast P F (call c r) (call' c r)) (c : Bool) :
    ∀ es : List Element, StepsAbreast P F (z.row call c es) (z'.row call' c es)
  | [] => by
    unfold row
    exact fun _ _ ht => .matched ht
  | e :: es => by
    unfold row
    exact abreast_andThen (abreast_element h heven hcall c e) (abreast_row h heven hcall c es)

end

variable (h : z.Abreast z' P F) (heven : EvenRounds z z' P F call call')
  (hcall : ∀ c r, StepsAbreast P F (call c r) (call' c r)) (c : Bool)
include h heven hcall

theorem abreast_firstMatch (as : List Alternative) {far far' : Nat} (hfar : F far far') :
    StepsAbreast P F (z.firstMatch call c as far) (z'.firstMatch call' c as far') := by
  induction as generalizing far far' with
  | nil => exact fun _ _ ht => .failed hfar ht
  | cons a as ih =>
    intro t t' ht
    have hrow := abreast_row h heven hcall c a.elements t t' ht
    unfold firstMatch
    generalize z.row call c a.elements t = e at hrow ⊢
    generalize z'.row call' c a.elements t' = e' at hrow ⊢
    cases hrow with
    | matched hu => exact .matched hu
    | horizon hu => exact .horizon hu
    | failed hi hu => exact ih (h.max hfar hi) _ _ (ht.back hu)
    | endless => exact .endless

theorem abreast_alternatives (r : Rule) :
    StepsAbreast P F (z.alternatives call c r) (z'.alternatives call' c r) := by
  intro t t' ht
  have hstarts : z'.startsWith = z.startsWith := by
    funext k a
    rw [startsWith, startsWith, h.grammar]
  unfold alternatives
  rw [h.lookahead ht.pos, h.grammar, hstarts]
  exact abreast_firstMatch h heven hcall c _ (h.settle ht.pos) t t' ht

theorem abreast_body (r : Rule) : StepsAbreast P F (z.body call c r) (z'.body call' c r) := by
  have ha := abreast_alternatives h heven hcall c r
  unfold body
  rw [h.grammar]
  split
  · rename_i table _
    exact abreast_andThen ha (heven.operators c r table ha fun q => hcall c q)
  · exact ha

end

variable (h : z.Abreast z' P F)
include h

theorem abreast_insert {m m' : Memo} (hm : m.Abreast P F m') (r : Rule) {i i' : Nat} (hi : F i i') (c : Bool)
    {o o' : Outcome} (ho : o.Abreast F o') {j j' : Nat} (hj : P j j') :
    (m.insert r i c (o, j)).Abreast P F (m'.insert r i' c (o', j')) := by
  intro k k' hk q d
  rw [Memo.find?_insert, Memo.find?_insert]
  simp only [h.place hi hk]
  split
  · exact .some ⟨ho, hj⟩
  · exact hm hk q d

/-- A call finds the same in both memos, or tries the same and leaves the same behind. -/
theorem abreast_call (heven : ∀ n, EvenRounds z z' P F (z.call n) (z'.call n)) (n : Nat) (c : Bool)
    (r : Rule) : StepsAbreast P F (z.call n c r) (z'.call n c r) := by
  induction n generalizing c r with
  | zero => exact fun t t' ht => paired_fail h ⟨ht.pos, ht.memo⟩
  | succ n ih =>
    intro t t' ht
    have hsettle := h.settle ht.pos
    have hfind := ht.memo hsettle r c
    unfold call
    dsimp only
    generalize t.memo.find? r (z.stream.settle t.pos) c = known at hfind ⊢
    generalize t'.memo.find? r (z'.stream.settle t'.pos) c = known' at hfind ⊢
    cases hfind with
    | @some e e' he =>
      obtain ⟨o, j⟩ := e
      obtain ⟨o', j'⟩ := e'
      obtain ⟨ho, hj⟩ := he
      cases ho with
      | matched => exact .matched ⟨hj, ht.memo⟩
      | horizon => exact .horizon ht
      | failed hi => exact .failed hi ht
      | endless => exact .endless
    | none =>
      have hbody := abreast_body h (heven n) ih (c || (z.grammar.definition r).comments) r t t' ht
      rw [h.grammar]
      generalize z.body (z.call n) (c || (z.grammar.definition r).comments) r t = e at hbody ⊢
      generalize z'.body (z'.call n) (c || (z.grammar.definition r).comments) r t' = e' at hbody ⊢
      cases hbody with
      | matched hu => exact .matched ⟨hu.pos, abreast_insert h hu.memo r hsettle c .matched hu.pos⟩
      | horizon hu => exact .horizon ⟨hu.pos, abreast_insert h hu.memo r hsettle c .horizon hu.pos⟩
      | failed hi hu =>
        exact .failed hi ⟨hu.pos, abreast_insert h hu.memo r hsettle c (.failed hi) hu.pos⟩
      | endless => exact .endless

end Recognizer

/-! ### Decisions -/

namespace Resolver

open Recognizer

structure Ranking.Abreast (F : Nat → Nat → Prop) (rank rank' : Ranking) : Prop where
  completed : rank'.completed = rank.completed
  farthest : Option.Rel (fun p p' => p'.1 = p.1 ∧ F p.2 p'.2) rank.farthest rank'.farthest

theorem Ranking.abreast_empty (F : Nat → Nat → Prop) : Ranking.Abreast F ⟨none, none⟩ ⟨none, none⟩ :=
  ⟨rfl, .none⟩

variable {P F : Nat → Nat → Prop} {y y' : Recognizer} {rank rank' : Ranking}

theorem Ranking.Abreast.choice? (h : rank.Abreast F rank') : rank'.choice? = rank.choice? := by
  have hf := h.farthest
  unfold Ranking.choice?
  rw [h.completed]
  generalize rank.farthest = best at hf ⊢
  generalize rank'.farthest = best' at hf ⊢
  cases hf with
  | none => rfl
  | some hp => simp [hp.1]

theorem Ranking.Abreast.matched (h : rank.Abreast F rank') (i : Nat) :
    (rank.matched i).Abreast F (rank'.matched i) :=
  ⟨by simp only [Ranking.matched, h.completed], h.farthest⟩

theorem Ranking.Abreast.failed (hr : rank.Abreast F rank') (h : y.Abreast y' P F) (i : Nat)
    {place place' : Nat} (hp : F place place') : (rank.failed i place).Abreast F (rank'.failed i place') := by
  obtain ⟨done, best⟩ := rank
  obtain ⟨done', best'⟩ := rank'
  obtain ⟨rfl, hbest⟩ := hr
  unfold Ranking.failed
  dsimp only at hbest ⊢
  cases hbest with
  | none => exact ⟨rfl, .some ⟨rfl, hp⟩⟩
  | @some p p' hb =>
    have hlt := h.order hb.2 hp
    dsimp only
    by_cases hnew : p.2 < place
    · rw [if_pos hnew, if_pos (hlt.2 hnew)]
      exact ⟨rfl, .some ⟨rfl, hp⟩⟩
    · rw [if_neg hnew, if_neg (mt hlt.1 hnew)]
      exact ⟨rfl, .some hb⟩

theorem abreast_tryAll (h : y.Abreast y' P F) (heven : ∀ n, EvenRounds y y' P F (y.call n) (y'.call n))
    {pos pos' : Nat} (hp : P pos pos') (r : Rule) (follow : KindSet) (c : Bool) (is : List Nat) {m m' : Memo}
    (hm : m.Abreast P F m') (hr : rank.Abreast F rank') (cut cut' : Bool) :
    (tryAll y' pos' r follow c is m' rank' cut').1 = (tryAll y pos r follow c is m rank cut).1 := by
  induction is generalizing m m' rank rank' cut cut' with
  | nil =>
    unfold tryAll
    exact congrArg Except.ok hr.choice?
  | cons i is ih =>
    have hrow := abreast_row h (heven maxNesting) (fun c r => abreast_call h heven maxNesting c r) c
      (elements y.grammar r i) (.start pos m) (.start pos' m') ⟨hp, hm⟩
    unfold tryAll tryRow
    rw [h.grammar]
    generalize y.row (y.call maxNesting) c (elements y.grammar r i) (.start pos m) = e at hrow ⊢
    generalize y'.row (y'.call maxNesting) c (elements y.grammar r i) (.start pos' m') = e' at hrow ⊢
    cases hrow with
    | matched ht =>
      dsimp only
      rw [h.limit ht.pos, h.lookahead ht.pos]
      split
      · rfl
      · exact ih ht.memo (hr.matched i) _ _
    | horizon ht => rfl
    | failed hi ht => exact ih ht.memo (hr.failed h i hi) _ _
    | endless => rfl

/-- Trials give no answer only if one of them goes on for ever. -/
theorem endless_of_tryAll {y : Recognizer} {pos : Nat} {r : Rule} {follow : KindSet} {c : Bool}
    {is : List Nat} {m : Memo} {rank : Ranking} {cut : Bool} {e : Failure}
    (h : (tryAll y pos r follow c is m rank cut).1 = .error e) : e = .endless := by
  induction is generalizing m rank cut with
  | nil => cases h
  | cons i is ih =>
    unfold tryAll at h
    split at h
    · cases h
    · cases h
      rfl
    · exact ih h
    · split at h
      · cases h
      · exact ih h

end Resolver

end KermlText
