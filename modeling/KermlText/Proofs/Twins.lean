import KermlText.Proofs.Thinned
import KermlText.Proofs.Trials

/-! Trials on a stream and on what is left of it go the same way, as long as both see the same. They do
where all comments are still there; and where nothing that is tried looks for comments. -/

namespace KermlText

/-! ### Rules that look for comments -/

/-- All comments are still there. -/
def Stream.Sees (s : Stream) (keep : Nat → Prop) : Prop :=
  ∀ i < s.size, (s.token i).channel = .comment → keep i

/-- Where comments are missing, nobody looks for them. -/
theorem Stream.lookahead_eq_kind_of_not_sees {s : Stream} {keep : Nat → Prop} {c : Bool}
    (hc : c = true → s.Sees keep) (hs : ¬s.Sees keep) (pos : Nat) : s.lookahead pos c = s.kind pos := by
  cases c with
  | false => rfl
  | true => exact absurd (hc rfl) hs

section

variable (aware : Rule → Bool)

mutual

/-- Whether nothing in the element looks for comments, if only `aware` rules do. -/
def Element.unaware : Element → Bool
  | .token _ | .oneOf _ | .relation _ _ => true
  | .comment => false
  | .rule r | .ruleAt r _ => !aware r
  | .optional e | .repeated e _ _ | .labeled _ _ e => e.unaware
  | .seq es => allUnaware es

def allUnaware : List Element → Bool
  | [] => true
  | e :: es => e.unaware && allUnaware es

end

end

namespace Grammar

def aware (g : Grammar) (r : Rule) : Bool := (g.definition r).comments

/-- Whether a row, if it looks for comments, begins with one of `keys` and never is the only one. -/
def asides (g : Grammar) (keys : KindSet) (r : Rule) (es : List Element) : Bool :=
  allUnaware g.aware es ||
    (g.choices r).length != 1 && !g.rowNullable es && g.firstOfRow es ∪ keys == keys

/-- Whether only tokens in `keys` lead to rules that look for comments. -/
def isAside (g : Grammar) (keys : KindSet) : Bool :=
  Rule.all.all fun r => g.aware r ||
    (g.alternatives r).all (fun a => g.asides keys r a.elements) &&
      (g.table? r).all fun t => t.tiers.all fun tier => tier.operators.all fun o => !g.aware o.2

structure Aside (g : Grammar) (keys : KindSet) : Prop where
  rows : ∀ r, g.aware r = false → ∀ a ∈ g.alternatives r, allUnaware g.aware a.elements = true ∨
    (g.choices r).length ≠ 1 ∧ g.rowNullable a.elements = false ∧
      ∀ k, (g.firstOfRow a.elements).contains k = true → keys.contains k = true
  operators : ∀ r t, g.aware r = false → g.table? r = some t → ∀ k tier node,
    t.lookup k = some (tier, node) → g.aware node = false

theorem aside_of_isAside {g : Grammar} {keys : KindSet} (h : g.isAside keys = true) : g.Aside keys := by
  have hr : ∀ r, g.aware r = false → (∀ a ∈ g.alternatives r, g.asides keys r a.elements = true) ∧
      ∀ t, g.table? r = some t → ∀ tier ∈ t.tiers, ∀ o ∈ tier.operators, g.aware o.2 = false := by
    intro r hr
    have := List.all_eq_true.1 h r (Rule.mem_all r)
    simp only [hr, Bool.false_or, Bool.and_eq_true, List.all_eq_true, Option.all_eq_true,
      Bool.not_eq_true'] at this
    exact this
  refine ⟨fun r haware a ha => ?_, fun r t haware ht k tier node hl => ?_⟩
  · have := (hr r haware).1 a ha
    simp only [asides, Bool.or_eq_true, Bool.and_eq_true, bne_iff_ne, Bool.not_eq_true', beq_iff_eq] at this
    refine this.imp id fun h => ⟨h.1.1, h.1.2, fun k hk => ?_⟩
    rw [← h.2, KindSet.contains_union, hk, Bool.true_or]
  · obtain ⟨tier', htier, hn⟩ := List.exists_of_findSome?_eq_some hl
    obtain ⟨node', hnode, he⟩ := Option.map_eq_some_iff.1 hn
    cases he
    obtain ⟨o, ho, rfl⟩ := Option.map_eq_some_iff.1 hnode
    exact (hr r haware).2 t ht tier htier o (List.mem_of_find?_eq_some ho)

/-- A row that may begin with another token does not look for comments. -/
theorem Aside.unaware {g : Grammar} {keys : KindSet} (hg : g.Aside keys) {r : Rule} (hr : g.aware r = false)
    {a : Alternative} (ha : a ∈ g.alternatives r) {k : Kind} (hk : keys.contains k = false)
    (hb : (g.firstOfRow a.elements).contains k = true ∨ g.rowNullable a.elements = true) :
    allUnaware g.aware a.elements = true := by
  refine (hg.rows r hr a ha).resolve_right fun ⟨_, hn, hf⟩ => ?_
  have := hf k (hb.resolve_right (by simp [hn]))
  rw [hk] at this
  cases this

end Grammar

/-- The tokens that begin comments, documentation and textual representations. -/
def annotationKeys : KindSet := .ofList [.kwComment, .kwDoc, .kwRep, .kwLanguage]

theorem aside_kerml : kerml.Aside annotationKeys :=
  Grammar.aside_of_isAside (by decide +kernel)

/-! ### Trials in step -/

/-- The outcome at the places of the other stream. -/
def Outcome.moved (f : Nat → Nat) : Outcome → Outcome
  | .failed i => .failed (f i)
  | o => o

/-- What is known of settled places is the same, and of use on both streams. -/
structure Memo.Twins (s : Stream) (keep : Nat → Prop) (f : Nat → Nat) (m m' : Memo) : Prop where
  find? : ∀ r i c, s.settle i = i →
    m'.find? r (f i) c = (m.find? r i c).map fun e => (e.1.moved f, f e.2)
  holds : m.Holds fun _ _ _ o j => s.Stop keep j ∧ ∀ k, o = .failed k → s.settle k = k

structure Trial.Twins (s : Stream) (keep : Nat → Prop) (f : Nat → Nat) (t t' : Trial) : Prop where
  pos : t'.pos = f t.pos
  stop : s.Stop keep t.pos
  memo : t.memo.Twins s keep f t'.memo
  took : t'.tookComment = t.tookComment

/-- What two trials in step come to. A trial that does not end says nothing. -/
inductive Outcome.Twins (s : Stream) (keep : Nat → Prop) (f : Nat → Nat) :
    Outcome × Trial → Outcome × Trial → Prop
  | matched {t t' : Trial} (h : t.Twins s keep f t') : Twins s keep f (.matched, t) (.matched, t')
  | horizon {t t' : Trial} (h : t.Twins s keep f t') : Twins s keep f (.horizon, t) (.horizon, t')
  | failed {t t' : Trial} {i : Nat} (hi : s.settle i = i) (h : t.Twins s keep f t') :
    Twins s keep f (.failed i, t) (.failed (f i), t')
  | endless {t : Trial} {e : Outcome × Trial} : Twins s keep f (.endless, t) e
  | endless' {t : Trial} {e : Outcome × Trial} : Twins s keep f e (.endless, t)

theorem Memo.twins_empty (s : Stream) (keep : Nat → Prop) (f : Nat → Nat) :
    empty.Twins s keep f empty :=
  ⟨fun r i c _ => by simp, holds_empty _⟩

namespace Recognizer

/-- `z'` tries what `z` tries, on what is left of the stream and up to the same token. -/
structure Twins (z z' : Recognizer) (keep : Nat → Prop) (f : Nat → Nat) : Prop where
  grammar : z'.grammar = z.grammar
  stream : z.stream.Thins z'.stream keep f
  horizon : z'.horizon = f z.horizon
  settled : z.stream.settle z.horizon = z.horizon

variable {z z' : Recognizer} {keep : Nat → Prop} {f : Nat → Nat}

/-- Steps that lead from trials in step to trials in step. -/
def StepTwins (z : Recognizer) (keep : Nat → Prop) (f : Nat → Nat) (step step' : Step) : Prop :=
  ∀ t t', t.Twins z.stream keep f t' → Outcome.Twins z.stream keep f (step t) (step' t')

variable {t t' u u' : Trial}

theorem twins_back (ht : t.Twins z.stream keep f t') (hu : u.Twins z.stream keep f u') :
    Trial.Twins z.stream keep f { u with pos := t.pos } { u' with pos := t'.pos } :=
  ⟨ht.pos, ht.stop, hu.memo, hu.took⟩

theorem twins_optional {step step' : Step} (h : z.StepTwins keep f step step') :
    z.StepTwins keep f (optional step) (optional step') := by
  intro t t' ht
  have hstep := h t t' ht
  unfold optional
  generalize step t = e at hstep ⊢
  generalize step' t' = e' at hstep ⊢
  cases hstep with
  | matched hu => exact .matched hu
  | horizon hu => exact .horizon hu
  | failed hi hu => exact .matched (twins_back ht hu)
  | endless => exact .endless
  | endless' => exact .endless'

theorem twins_andThen {first first' second second' : Step} (h1 : z.StepTwins keep f first first')
    (h2 : z.StepTwins keep f second second') :
    z.StepTwins keep f (andThen first second) (andThen first' second') := by
  intro t t' ht
  have hfirst := h1 t t' ht
  unfold andThen
  generalize first t = e at hfirst ⊢
  generalize first' t' = e' at hfirst ⊢
  cases hfirst with
  | matched hu => exact h2 _ _ hu
  | horizon hu => exact .horizon hu
  | failed hi hu => exact .failed hi hu
  | endless => exact .endless
  | endless' => exact .endless'

variable (h : z.Twins z' keep f)
include h

/-- The streams allow a list different numbers of rounds, and neither list that ends notices. -/
theorem twins_repeated {step step' : Step} (hs : z.StepTwins keep f step step') (n n' need : Nat) :
    z.StepTwins keep f (repeated step n need) (repeated step' n' need) := by
  induction n generalizing n' need with
  | zero => exact fun _ _ _ => .endless
  | succ n ih =>
    cases n' with
    | zero => exact fun _ _ _ => .endless'
    | succ n' =>
      intro t t' ht
      have hstep := hs t t' ht
      unfold repeated
      generalize step t = e at hstep ⊢
      generalize step' t' = e' at hstep ⊢
      cases hstep with
      | @matched u u' hu =>
        -- both rounds moved on or neither did, since both stand behind a token that is still there
        have hpos : u'.pos = t'.pos ↔ u.pos = t.pos := by
          rw [hu.pos, ht.pos]
          exact h.stream.eq_iff_of_stop hu.stop ht.stop
        dsimp only
        by_cases hp : u.pos = t.pos
        · rw [if_pos hp, if_pos (hpos.2 hp)]
          exact .matched hu
        · rw [if_neg hp, if_neg (mt hpos.1 hp)]
          exact ih n' (need - 1) _ _ hu
      | horizon hu => exact .horizon hu
      | failed hi hu =>
        dsimp only
        split
        · exact .failed hi hu
        · exact .matched (twins_back ht hu)
      | endless => exact .endless
      | endless' => exact .endless'

theorem limitReached_twins (ht : t.Twins z.stream keep f t') : z'.limitReached t' = z.limitReached t := by
  have hle := ht.stop.le_size
  have hlt := h.stream.lt_iff_of_settled (z.stream.settle_settle t.pos) h.settled
  unfold limitReached
  rw [ht.pos, h.horizon, h.stream.settle hle, h.stream.atEnd hle]
  congr 1
  rw [decide_eq_decide]
  omega

theorem twins_guarded {step step' : Step} (hs : z.StepTwins keep f step step') :
    z.StepTwins keep f (z.guarded step) (z'.guarded step') := by
  intro t t' ht
  unfold guarded
  rw [limitReached_twins h ht]
  split
  · exact .horizon ht
  · exact hs t t' ht

theorem twins_fail : z.StepTwins keep f z.fail z'.fail := by
  intro t t' ht
  unfold fail
  rw [ht.pos, h.stream.settle ht.stop.le_size]
  exact .failed (z.stream.settle_settle _) ht

theorem twins_take : z.StepTwins keep f z.take z'.take := by
  intro t t' ht
  refine .matched ⟨?_, h.stream.stop_skip ht.stop, ht.memo, ht.took⟩
  rw [ht.pos, h.stream.skip ht.stop.le_size]

section

variable {c : Bool} (hc : c = true → z.stream.Sees keep)
include hc

theorem lookahead_twins (ht : t.Twins z.stream keep f t') :
    z'.stream.lookahead t'.pos c = z.stream.lookahead t.pos c := by
  rw [ht.pos]
  exact h.stream.lookahead hc ht.stop.le_size

theorem twins_token (k : Kind) : z.StepTwins keep f (z.token c k) (z'.token c k) := by
  intro t t' ht
  unfold token
  rw [lookahead_twins h hc ht, ht.pos, h.stream.atEnd ht.stop.le_size]
  split
  · split
    · exact .matched ht
    · exact twins_fail h _ _ ht
  · split
    · exact twins_take h _ _ ht
    · exact twins_fail h _ _ ht

theorem twins_oneOf (ks : KindSet) : z.StepTwins keep f (z.oneOf c ks) (z'.oneOf c ks) := by
  intro t t' ht
  unfold oneOf
  rw [lookahead_twins h hc ht]
  dsimp only
  split
  · exact twins_take h _ _ ht
  · exact twins_fail h _ _ ht

end

theorem twins_comment (hs : z.stream.Sees keep) : z.StepTwins keep f z.comment z'.comment := by
  intro t t' ht
  have hj := h.stream.comment? hs ht.stop.le_size
  unfold comment
  rw [ht.pos, hj]
  rcases hi : z.stream.comment? t.pos with _ | i
  · exact twins_fail h _ _ ht
  · obtain ⟨hstop, hf, -⟩ := h.stream.stop_comment hs hi
    exact .matched ⟨hf.symm, hstop, ht.memo, rfl⟩

/-! ### Rules in step -/

section

variable {call call' : Bool → Rule → Step} {c : Bool}

omit h in
mutual

theorem twins_element (h : z.Twins z' keep f)
    (hcall : ∀ c r, (c = true → z.stream.Sees keep) → (z.stream.Sees keep ∨ z.grammar.aware r = false) →
      z.StepTwins keep f (call c r) (call' c r)) (hc : c = true → z.stream.Sees keep) :
    ∀ e : Element, (z.stream.Sees keep ∨ e.unaware z.grammar.aware = true) →
      z.StepTwins keep f (z.element call c e) (z'.element call' c e)
  | .token k, _ | .relation k _, _ => by
    unfold element
    exact twins_guarded h (twins_token h hc k)
  | .oneOf ks, _ => by
    unfold element
    exact twins_guarded h (twins_oneOf h hc ks)
  | .comment, he => by
    unfold element
    exact twins_guarded h (twins_comment h (he.resolve_right (by simp [Element.unaware])))
  | .rule r, he | .ruleAt r _, he => by
    simp only [Element.unaware, Bool.not_eq_true'] at he
    unfold element
    exact twins_guarded h (hcall c r hc he)
  | .optional e, he => by
    simp only [Element.unaware] at he
    unfold element
    exact twins_guarded h (twins_optional (twins_element h hcall hc e he))
  | .repeated e least _, he => by
    simp only [Element.unaware] at he
    unfold element
    exact twins_guarded h (twins_repeated h (twins_element h hcall hc e he) _ _ least)
  | .seq es, he => by
    simp only [Element.unaware] at he
    unfold element
    exact twins_guarded h (twins_row h hcall hc es he)
  | .labeled _ _ e, he => by
    simp only [Element.unaware] at he
    unfold element
    exact twins_guarded h (twins_element h hcall hc e he)

theorem twins_row (h : z.Twins z' keep f)
    (hcall : ∀ c r, (c = true → z.stream.Sees keep) → (z.stream.Sees keep ∨ z.grammar.aware r = false) →
      z.StepTwins keep f (call c r) (call' c r)) (hc : c = true → z.stream.Sees keep) :
    ∀ es : List Element, (z.stream.Sees keep ∨ allUnaware z.grammar.aware es = true) →
      z.StepTwins keep f (z.row call c es) (z'.row call' c es)
  | [], _ => by
    unfold row
    exact fun _ _ ht => .matched ht
  | e :: es, he => by
    simp only [allUnaware, Bool.and_eq_true] at he
    unfold row
    exact twins_andThen (twins_element h hcall hc e (he.imp_right And.left))
      (twins_row h hcall hc es (he.imp_right And.right))

end

variable (hcall : ∀ c r, (c = true → z.stream.Sees keep) →
    (z.stream.Sees keep ∨ z.grammar.aware r = false) → z.StepTwins keep f (call c r) (call' c r))
  (hc : c = true → z.stream.Sees keep)
include hc

section

include hcall

theorem twins_firstMatch (as : List Alternative)
    (ha : ∀ a ∈ as, z.stream.Sees keep ∨ allUnaware z.grammar.aware a.elements = true) {far : Nat}
    (hfar : z.stream.settle far = far) :
    z.StepTwins keep f (z.firstMatch call c as far) (z'.firstMatch call' c as (f far)) := by
  induction as generalizing far with
  | nil => exact fun _ _ ht => .failed hfar ht
  | cons a as ih =>
    intro t t' ht
    have hrow := twins_row h hcall hc a.elements (ha a List.mem_cons_self) t t' ht
    unfold firstMatch
    generalize z.row call c a.elements t = e at hrow ⊢
    generalize z'.row call' c a.elements t' = e' at hrow ⊢
    cases hrow with
    | matched hu => exact .matched hu
    | horizon hu => exact .horizon hu
    | @failed u u' i hi hu =>
      -- the farthest place is a settled one, and those come in the same order
      have hmax : max (f far) (f i) = f (max far i) := by
        have hlt := h.stream.lt_iff_of_settled hfar hi
        rcases Nat.lt_or_ge far i with hlt' | hle
        · rw [Nat.max_eq_right (Nat.le_of_lt hlt'), Nat.max_eq_right (Nat.le_of_lt (hlt.2 hlt'))]
        · rw [Nat.max_eq_left hle, Nat.max_eq_left (Nat.not_lt.1 (mt hlt.1 (Nat.not_lt.2 hle)))]
      dsimp only
      rw [hmax]
      refine ih (fun b hb => ha b (List.mem_cons_of_mem _ hb)) ?_ _ _ (twins_back ht hu)
      rcases Nat.le_total far i with hle | hle
      · rwa [Nat.max_eq_right hle]
      · rwa [Nat.max_eq_left hle]
    | endless => exact .endless
    | endless' => exact .endless'

end

variable {keys : KindSet} (hg : z.grammar.Aside keys)
  (hk : z.stream.Sees keep ∨ ∀ i ≤ z.stream.size, keys.contains (z.stream.kind i) = false)
include hg hk

omit h in
/-- Where comments are missing, no alternative is tried that looks for them. -/
theorem unaware_of_startsWith {r : Rule} (hr : z.stream.Sees keep ∨ z.grammar.aware r = false)
    (ht : t.Twins z.stream keep f t') {a : Alternative}
    (ha : a ∈ (z.grammar.alternatives r).filter (z.startsWith (z.stream.lookahead t.pos c))) :
    z.stream.Sees keep ∨ allUnaware z.grammar.aware a.elements = true := by
  by_cases hv : z.stream.Sees keep
  · exact .inl hv
  · obtain ⟨ha, hs⟩ := List.mem_filter.1 ha
    simp only [startsWith, Bool.and_eq_true, Bool.or_eq_true] at hs
    rw [Stream.lookahead_eq_kind_of_not_sees hc hv] at hs
    exact .inr (hg.unaware (hr.resolve_left hv) ha (hk.resolve_left hv t.pos ht.stop.le_size) hs.2)

include hcall

theorem twins_alternatives (r : Rule) (hr : z.stream.Sees keep ∨ z.grammar.aware r = false) :
    z.StepTwins keep f (z.alternatives call c r) (z'.alternatives call' c r) := by
  intro t t' ht
  have hstarts : z'.startsWith (z.stream.lookahead t.pos c) = z.startsWith (z.stream.lookahead t.pos c) := by
    funext a
    rw [startsWith, startsWith, h.grammar]
  unfold alternatives
  rw [lookahead_twins h hc ht, h.grammar, ht.pos, h.stream.settle ht.stop.le_size]
  dsimp only
  rw [hstarts]
  exact twins_firstMatch h hcall hc _ (fun a ha => unaware_of_startsWith hc hg hk hr ht ha)
    (z.stream.settle_settle _) _ _ ht

theorem twins_operators {r : Rule} (hr : z.stream.Sees keep ∨ z.grammar.aware r = false) {table : Table}
    (htable : z.grammar.table? r = some table) (n n' : Nat) :
    z.StepTwins keep f (z.operators call c r table n) (z'.operators call' c r table n') := by
  induction n generalizing n' with
  | zero => exact fun _ _ _ => .endless
  | succ n ih =>
    cases n' with
    | zero => exact fun _ _ _ => .endless'
    | succ n' =>
      unfold operators
      refine twins_guarded h fun t t' ht => ?_
      rw [lookahead_twins h hc ht]
      split
      · exact .matched ht
      · rename_i tier node hl
        refine twins_andThen (twins_take h) (twins_andThen ?_ (ih n')) t t' ht
        split
        · exact twins_alternatives h hcall hc hg hk r hr
        · exact hcall c node hc (hr.imp_right fun hr => hg.operators r table hr htable _ tier node hl)

theorem twins_body (r : Rule) (hr : z.stream.Sees keep ∨ z.grammar.aware r = false) :
    z.StepTwins keep f (z.body call c r) (z'.body call' c r) := by
  have ha := twins_alternatives h hcall hc hg hk r hr
  unfold body
  rw [h.grammar]
  split
  · rename_i table htable
    exact twins_andThen ha (twins_operators h hcall hc hg hk hr htable _ _)
  · exact ha

end

omit h in
theorem twins_insert (hs : z.stream.Thins z'.stream keep f) {m m' : Memo} (hm : m.Twins z.stream keep f m')
    (r : Rule) {i : Nat} (hi : z.stream.settle i = i) (c : Bool) {o : Outcome} {j : Nat}
    (hj : z.stream.Stop keep j) (ho : ∀ k, o = .failed k → z.stream.settle k = k) :
    (m.insert r i c (o, j)).Twins z.stream keep f (m'.insert r (f i) c (o.moved f, f j)) := by
  refine ⟨fun q k d hk => ?_, hm.holds.insert ⟨hj, ho⟩⟩
  rw [Memo.find?_insert, Memo.find?_insert]
  simp only [hs.eq_iff_of_settled hi hk]
  split
  · rfl
  · exact hm.find? q k d hk

/-- A call finds the same in both memos, or tries the same and leaves the same behind. -/
theorem twins_call {keys : KindSet} (hg : z.grammar.Aside keys)
    (hk : z.stream.Sees keep ∨ ∀ i ≤ z.stream.size, keys.contains (z.stream.kind i) = false) (n : Nat)
    (c : Bool) (r : Rule) (hc : c = true → z.stream.Sees keep)
    (hr : z.stream.Sees keep ∨ z.grammar.aware r = false) :
    z.StepTwins keep f (z.call n c r) (z'.call n c r) := by
  induction n generalizing c r with
  | zero => exact fun t t' ht => twins_fail h _ _ ⟨ht.pos, ht.stop, ht.memo, ht.took⟩
  | succ n ih =>
    intro t t' ht
    have hsettle := h.stream.settle ht.stop.le_size
    have hfind := ht.memo.find? r _ c (z.stream.settle_settle t.pos)
    unfold call
    dsimp only
    rw [ht.pos, hsettle, hfind]
    rcases hf : t.memo.find? r (z.stream.settle t.pos) c with _ | ⟨o, j⟩
    · have hbody : z.StepTwins keep f (z.body (z.call n) (c || (z.grammar.definition r).comments) r)
          (z'.body (z'.call n) (c || (z.grammar.definition r).comments) r) := by
        refine twins_body h ih (fun hc' => ?_) hg hk r hr
        rcases Bool.or_eq_true_iff.1 hc' with hc' | hc'
        · exact hc hc'
        · exact hr.resolve_right fun hr => absurd hc' (Bool.not_eq_true _ ▸ hr)
      have insert : ∀ {o : Outcome} {u u' : Trial}, u.Twins z.stream keep f u' →
          (∀ k, o = .failed k → z.stream.settle k = k) → Trial.Twins z.stream keep f
            { u with memo := u.memo.insert r (z.stream.settle t.pos) c (o, u.pos) }
            { u' with memo := u'.memo.insert r (f (z.stream.settle t.pos)) c (o.moved f, u'.pos) } :=
        fun hu ho => ⟨hu.pos, hu.stop, hu.pos ▸ twins_insert h.stream hu.memo r (z.stream.settle_settle _) c
          hu.stop ho, hu.took⟩
      have hend := hbody t t' ht
      rw [Option.map_none, h.grammar]
      generalize z.body (z.call n) (c || (z.grammar.definition r).comments) r t = e at hend ⊢
      generalize z'.body (z'.call n) (c || (z.grammar.definition r).comments) r t' = e' at hend ⊢
      cases hend with
      | matched hu => exact .matched (insert hu (by simp))
      | horizon hu => exact .horizon (insert hu (by simp))
      | @failed _ _ i hi hu =>
        exact .failed hi (insert (o := .failed i) hu fun _ he => by cases he; exact hi)
      | endless => exact .endless
      | endless' => exact .endless'
    · obtain ⟨hstop, ho⟩ := ht.memo.holds _ _ _ _ _ hf
      rw [Option.map_some]
      cases o with
      | matched => exact .matched ⟨rfl, hstop, ht.memo, ht.took⟩
      | horizon => exact .horizon ht
      | failed i => exact .failed (ho i rfl) ht
      | endless => exact .endless

end Recognizer

end KermlText
