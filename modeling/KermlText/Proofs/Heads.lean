import KermlText.Proofs.Afresh
import KermlText.Proofs.Derivation
import KermlText.Proofs.LeastSets
import KermlText.Proofs.Onsets

/-! What a match begins with. Whichever alternatives a recognizer tries, what it matches on a stream without
comments begins with a kind of the least sets, or it is of a piece that may be empty and takes nothing. So no
match is lost where only those alternatives are tried that may begin with the kind ahead. -/

namespace KermlText

namespace Grammar

/-! ### Grammars whose sets hold what their rules say -/

/-- One more round adds nothing to the sets, and an operator may begin a rule whose operands may be empty. -/
structure Saturated (g : Grammar) : Prop where
  nullable : ∀ {r a}, a ∈ g.alternatives r → g.rowNullable a.elements = true → g.nullable r = true
  first : ∀ {r a}, a ∈ g.alternatives r → ∀ k, (g.firstOfRow a.elements).contains k = true →
    (g.first r).contains k = true
  operator : ∀ {r table k tier node}, g.table? r = some table → table.lookup k = some (tier, node) →
    g.nullable r = true → (g.first r).contains k = true

/-- An operator stands behind the rule in an alternative of the rule. -/
theorem saturated_build (defs : List Definition) (tables : List Table) : (build defs tables).Saturated where
  nullable ha := nullable_of_rowNullable defs tables ha
  first ha _ := first_of_firstOfRow defs tables ha
  operator {r table k tier node} htable hl hnull := by
    obtain ⟨hr, halts⟩ := table?_build htable
    obtain ⟨htier, ho⟩ := Table.mem_tiers_of_lookup hl
    have hrow (e : Element) (es : List Element) (he : ((build defs tables).firstOf e).contains k = true) :
        ((build defs tables).firstOfRow (.rule r :: e :: es)).contains k = true := by
      rw [firstOfRow_cons, firstOfRow_cons, he, Bool.true_or, Bool.and_true, Bool.or_eq_true]
      exact .inr hnull
    by_cases hf : tier.form = .binary
    · have ha := Table.mem_alternatives htier (Table.mem_tierRows.2 (.inl ⟨hf, rfl⟩))
      rw [hr] at ha
      exact first_of_firstOfRow defs tables (halts _ ha) (hrow _ _ (Tier.contains_tokens ho))
    · have ha := Table.mem_alternatives htier (Table.mem_tierRows.2 (.inr ⟨hf, _, ho, rfl⟩))
      rw [hr] at ha
      exact first_of_firstOfRow defs tables (halts _ ha) (hrow _ _ (by simp [firstOf, Element.firstKinds]))

end Grammar

namespace Recognizer

/-! ### Recognizers with another choice of alternatives -/

section

variable (z : Recognizer)

section

-- which alternatives are tried in front of a kind, and how a rule is tried
variable (may : Kind → Alternative → Bool) (call : Bool → Rule → Step) (comments : Bool)

def alternativesBy (r : Rule) : Step := fun t =>
  z.firstMatch call comments ((z.grammar.alternatives r).filter (may (z.stream.lookahead t.pos comments)))
    (z.stream.settle t.pos) t

def operatorsBy (r : Rule) (table : Table) : Nat → Step
  | 0 => fun t => (.endless, t)
  | n + 1 => z.guarded fun t =>
    match table.lookup (z.stream.lookahead t.pos comments) with
    | none => (.matched, t)
    | some (tier, node) =>
      andThen z.take
        (andThen (if tier.form = .binary then z.alternativesBy may call comments r else call comments node)
          (operatorsBy r table n)) t

def bodyBy (r : Rule) : Step :=
  match z.grammar.table? r with
  | some table =>
    andThen (z.alternativesBy may call comments r) (z.operatorsBy may call comments r table z.rounds)
  | none => z.alternativesBy may call comments r

end

/-- Tries a rule as `call` does, but with the alternatives that `may` be tried in front of the kind ahead. -/
def callBy (may : Kind → Alternative → Bool) : Nat → Bool → Rule → Step
  | 0, _, _ => fun t => z.fail { t with cut := true }
  | n + 1, comments, r => fun t =>
    let place := z.stream.settle t.pos
    match t.memo.find? r place comments with
    | some (.matched, stop) => (.matched, { t with pos := stop })
    | some (outcome, _) => (outcome, t)
    | none =>
      let (outcome, t') :=
        z.bodyBy may (callBy may n) (comments || (z.grammar.definition r).comments) r t
      (outcome, { t' with memo := t'.memo.insert r place comments (outcome, t'.pos) })

/-- The alternatives that are there to be tried, whatever they may begin with. -/
def untested (_ : Kind) (a : Alternative) : Bool := !a.leftRecursive

theorem operatorsBy_startsWith (call : Bool → Rule → Step) (c : Bool) (r : Rule) (table : Table) (n : Nat) :
    z.operatorsBy z.startsWith call c r table n = z.operators call c r table n := by
  induction n with
  | zero => rfl
  | succ n ih =>
    unfold operatorsBy operators
    rw [ih]
    rfl

theorem bodyBy_startsWith (call : Bool → Rule → Step) (c : Bool) (r : Rule) :
    z.bodyBy z.startsWith call c r = z.body call c r := by
  unfold bodyBy body
  rcases z.grammar.table? r with _ | table
  · rfl
  · dsimp only
    rw [operatorsBy_startsWith]
    rfl

/-- With the test of what an alternative may begin with, this is the recognizer itself. -/
theorem callBy_startsWith (n : Nat) : z.callBy z.startsWith n = z.call n := by
  induction n with
  | zero => rfl
  | succ n ih =>
    have hbody : z.bodyBy z.startsWith (z.callBy z.startsWith n) = z.body (z.call n) := by
      funext c r
      rw [ih, bodyBy_startsWith]
    funext c r t
    unfold callBy
    rw [hbody]
    rfl

end

/-! ### The kind ahead -/

def anyKind : KindSet := .ofList Kind.all

theorem contains_anyKind (k : Kind) : anyKind.contains k = true := by
  rw [anyKind, KindSet.contains_ofList]
  exact Kind.mem_all k

section

variable (z : Recognizer) (pos : Nat)

/-- What came of a piece at `p` goes with the kind ahead: a match begins with one of `ks`, or the piece may be
empty and the match took nothing. `pos` is where the trial was started. -/
structure Begins (ks : KindSet) (nullable : Bool) (p : Nat) (o : Outcome) (q : Nat) : Prop where
  left : o = .matched → z.stream.LeftAt pos q
  ahead : o = .matched → ks.contains (z.stream.kind p) = true ∨ nullable = true
  still : o = .matched → ks.contains (z.stream.kind p) = true ∨ z.stream.settle q = z.stream.settle p
  endless : o = .endless → ks.contains (z.stream.kind p) = true
  horizon : o = .horizon → z.horizon < z.stream.size

/-- What is known of a rule goes with the kind at the place where it is known. -/
def Headed (r : Rule) (i : Nat) (_ : Bool) (o : Outcome) (j : Nat) : Prop :=
  ∀ p, z.stream.settle p = i → z.Begins pos (z.grammar.first r) (z.grammar.nullable r) p o j

/-- The trial stands where it may have come from `pos`, and what it knows goes with the kinds. -/
structure Stands (t : Trial) : Prop where
  left : z.stream.LeftAt pos t.pos
  memo : t.memo.Holds (z.Headed pos)

/-- Steps whose outcome goes with the kind ahead, wherever the trial stands. -/
def Heads (ks : KindSet) (nullable : Bool) (step : Step) : Prop :=
  ∀ t, z.Stands pos t →
    z.Begins pos ks nullable t.pos (step t).1 (step t).2.pos ∧ (step t).2.memo.Holds (z.Headed pos)

end

variable {z : Recognizer} {pos : Nat}

section

variable {ks ks' : KindSet} {nullable nullable' : Bool} {p q i : Nat} {o : Outcome} {step step' : Step}

theorem Begins.failed : z.Begins pos ks nullable p (.failed i) q := by constructor <;> simp

theorem Begins.limited (h : z.horizon < z.stream.size) : z.Begins pos ks nullable p .horizon q :=
  ⟨by simp, by simp, by simp, by simp, fun _ => h⟩

theorem Begins.stuck (h : ks.contains (z.stream.kind p) = true) : z.Begins pos ks nullable p .endless q :=
  ⟨by simp, by simp, by simp, fun _ => h, by simp⟩

theorem Begins.matched (hl : z.stream.LeftAt pos q)
    (ha : ks.contains (z.stream.kind p) = true ∨ nullable = true)
    (hs : ks.contains (z.stream.kind p) = true ∨ z.stream.settle q = z.stream.settle p) :
    z.Begins pos ks nullable p .matched q :=
  ⟨fun _ => hl, fun _ => ha, fun _ => hs, by simp, by simp⟩

theorem Begins.stays (hp : z.stream.LeftAt pos p) (hn : nullable = true) : z.Begins pos ks nullable p .matched p :=
  .matched hp (.inr hn) (.inr rfl)

theorem Begins.taken (hl : z.stream.LeftAt pos q) (hk : ks.contains (z.stream.kind p) = true) :
    z.Begins pos ks nullable p .matched q :=
  .matched hl (.inl hk) (.inl hk)

theorem Begins.imp (h : z.Begins pos ks nullable p o q)
    (hks : ks.contains (z.stream.kind p) = true → ks'.contains (z.stream.kind p) = true)
    (hn : nullable = true → nullable' = true) : z.Begins pos ks' nullable' p o q :=
  ⟨h.left, fun ho => (h.ahead ho).imp hks hn, fun ho => (h.still ho).imp_left hks, fun ho => hks (h.endless ho),
    h.horizon⟩

/-- Only the token ahead counts. -/
theorem Begins.settled (h : z.Begins pos ks nullable p o q) {w : Nat} (hw : z.stream.settle w = z.stream.settle p) :
    z.Begins pos ks nullable w o q := by
  have hkind : z.stream.kind w = z.stream.kind p := congrArg (fun i => (z.stream.token i).kind) hw
  exact ⟨h.left, hkind ▸ h.ahead, fun ho => hkind ▸ hw ▸ h.still ho, hkind ▸ h.endless, h.horizon⟩

theorem Heads.imp (h : z.Heads pos ks nullable step) (hks : ∀ k, ks.contains k = true → ks'.contains k = true)
    (hn : nullable = true → nullable' = true) : z.Heads pos ks' nullable' step :=
  fun t ht => ⟨(h t ht).1.imp (hks _) hn, (h t ht).2⟩

/-- What comes of a second piece goes with the kind ahead of the first, for the first began with that kind or
took nothing. -/
theorem Begins.after {ks'' : KindSet} {nullable'' : Bool} {w : Nat} (h : z.Begins pos ks nullable p .matched q)
    (h' : z.Begins pos ks' nullable' q o w)
    (hks : ks.contains (z.stream.kind p) = true → ks''.contains (z.stream.kind p) = true)
    (hks' : nullable = true → ks'.contains (z.stream.kind p) = true → ks''.contains (z.stream.kind p) = true)
    (hn : nullable = true → nullable' = true → nullable'' = true) : z.Begins pos ks'' nullable'' p o w := by
  by_cases hk : ks.contains (z.stream.kind p) = true
  · exact ⟨h'.left, fun _ => .inl (hks hk), fun _ => .inl (hks hk), fun _ => hks hk, h'.horizon⟩
  · have hnull := (h.ahead rfl).resolve_left hk
    have hs := (h.still rfl).resolve_left hk
    have hkind : z.stream.kind q = z.stream.kind p := congrArg (fun i => (z.stream.token i).kind) hs
    refine ⟨h'.left, fun ho => ?_, fun ho => ?_, fun ho => ?_, h'.horizon⟩
    · exact (h'.ahead ho).imp (fun hk => hks' hnull (hkind ▸ hk)) (hn hnull)
    · exact (h'.still ho).imp (fun hk => hks' hnull (hkind ▸ hk)) fun h => h.trans hs
    · exact hks' hnull (hkind ▸ h'.endless ho)

theorem Heads.guarded (h : z.Heads pos ks nullable step) : z.Heads pos ks nullable (z.guarded step) := by
  intro t ht
  unfold Recognizer.guarded
  cases hl : z.limitReached t with
  | false => exact h t ht
  | true =>
    refine ⟨.limited ?_, ht.memo⟩
    simp only [limitReached, Stream.atEnd, Bool.and_eq_true, decide_eq_true_eq, Bool.not_eq_true',
      beq_eq_false_iff_ne] at hl
    have := z.stream.settle_le_size t.pos
    omega

theorem Heads.optional (h : z.Heads pos ks nullable step) : z.Heads pos ks true (optional step) := by
  intro t ht
  obtain ⟨hb, hm⟩ := h t ht
  unfold Recognizer.optional
  generalize step t = e at hb hm ⊢
  obtain ⟨_ | _ | _ | _, t'⟩ := e
  · exact ⟨hb.imp id fun _ => rfl, hm⟩
  · exact ⟨hb.imp id fun _ => rfl, hm⟩
  · exact ⟨.stays ht.left rfl, hm⟩
  · exact ⟨hb.imp id fun _ => rfl, hm⟩

theorem Heads.andThen (h : z.Heads pos ks nullable step) (h' : z.Heads pos ks' nullable' step') :
    z.Heads pos (ks ∪ if nullable then ks' else ∅) (nullable && nullable') (andThen step step') := by
  have hleft {k} (hk : ks.contains k = true) : (ks ∪ if nullable then ks' else ∅).contains k = true := by
    rw [KindSet.contains_union, hk, Bool.true_or]
  intro t ht
  obtain ⟨hb, hm⟩ := h t ht
  unfold Recognizer.andThen
  generalize step t = e at hb hm ⊢
  obtain ⟨_ | _ | _ | _, t'⟩ := e
  · obtain ⟨hb', hm'⟩ := h' t' ⟨hb.left rfl, hm⟩
    refine ⟨hb.after hb' hleft (fun hn hk => ?_) fun hn hn' => ?_, hm'⟩
    · rw [if_pos hn, KindSet.contains_union, hk, Bool.or_true]
    · rw [hn, hn', Bool.true_and]
  · exact ⟨.limited (hb.horizon rfl), hm⟩
  · exact ⟨.failed, hm⟩
  · exact ⟨.stuck (hleft (hb.endless rfl)), hm⟩

/-- Where there are no comments a place is known by the token ahead. -/
theorem eq_of_settle_eq (hz : z.stream.Silent) (hp : z.stream.LeftAt pos p) (hq : z.stream.LeftAt pos q)
    (h : z.stream.settle q = z.stream.settle p) : q = p :=
  (hp.eq_of_commentsBefore hq h (by rw [hz.commentsBefore, hz.commentsBefore])).symm

/-- Where all kinds are allowed it only matters that a match stays on the way and that the horizon is a limit. -/
theorem Begins.loose (hl : o = .matched → z.stream.LeftAt pos q) (hh : o = .horizon → z.horizon < z.stream.size) :
    z.Begins pos anyKind true p o q :=
  ⟨hl, fun _ => .inr rfl, fun _ => .inl (contains_anyKind _), fun _ => contains_anyKind _, hh⟩

theorem Heads.loose (h : z.Heads pos ks nullable step) : z.Heads pos anyKind true step :=
  h.imp (fun k _ => contains_anyKind k) fun _ => rfl

theorem Heads.looseThen (h : z.Heads pos anyKind true step) (h' : z.Heads pos anyKind true step') :
    z.Heads pos anyKind true (Recognizer.andThen step step') := (h.andThen h').loose

/-- A list goes on whatever was ahead of it. -/
theorem Heads.items (h : z.Heads pos anyKind true step) (n need : Nat) :
    z.Heads pos anyKind true (Recognizer.repeated step n need) := by
  induction n generalizing need with
  | zero => exact fun t ht => ⟨.stuck (contains_anyKind _), ht.memo⟩
  | succ n ih =>
    intro t ht
    obtain ⟨hb, hm⟩ := h t ht
    unfold Recognizer.repeated
    generalize step t = e at hb hm ⊢
    obtain ⟨_ | _ | _ | _, t'⟩ := e
    · dsimp only
      split
      · exact ⟨hb, hm⟩
      · obtain ⟨hb', hm'⟩ := ih (need - 1) t' ⟨hb.left rfl, hm⟩
        exact ⟨.loose hb'.left hb'.horizon, hm'⟩
    · exact ⟨hb, hm⟩
    · dsimp only
      split
      · exact ⟨.failed, hm⟩
      · exact ⟨.stays ht.left rfl, hm⟩
    · exact ⟨hb, hm⟩

/-- A list whose first item takes nothing is over. -/
theorem Heads.repeated (hz : z.stream.Silent) (h : z.Heads pos ks nullable step) (n need : Nat) :
    z.Heads pos ks (need == 0 || nullable) (repeated step (n + 1) need) := by
  intro t ht
  obtain ⟨hb, hm⟩ := h t ht
  unfold Recognizer.repeated
  generalize step t = e at hb hm ⊢
  obtain ⟨_ | _ | _ | _, t'⟩ := e
  · dsimp only
    split
    · exact ⟨hb.imp id fun hn => by rw [hn, Bool.or_true], hm⟩
    · rename_i hp
      have hk : ks.contains (z.stream.kind t.pos) = true :=
        (hb.still rfl).resolve_right fun hs => hp (eq_of_settle_eq hz ht.left (hb.left rfl) hs)
      obtain ⟨hb', hm'⟩ := h.loose.items n (need - 1) t' ⟨hb.left rfl, hm⟩
      exact ⟨⟨hb'.left, fun _ => .inl hk, fun _ => .inl hk, fun _ => hk, hb'.horizon⟩, hm'⟩
  · exact ⟨.limited (hb.horizon rfl), hm⟩
  · dsimp only
    split
    · exact ⟨.failed, hm⟩
    · rename_i hn
      have hneed : (need == 0) = true := by rw [beq_iff_eq]; omega
      exact ⟨.stays ht.left (by rw [hneed, Bool.true_or]), hm⟩
  · exact ⟨.stuck (hb.endless rfl), hm⟩

end

/-! ### Elements -/

theorem exists_rounds (z : Recognizer) : ∃ n, z.rounds = n + 1 :=
  Nat.exists_eq_succ_of_ne_zero (Nat.ne_of_gt (Nat.zero_lt_of_lt (size_lt_rounds z)))

/-- Tokens as the recognizer sees them where there are no comments. -/
structure Plain (z : Recognizer) : Prop where
  silent : z.stream.Silent
  eof : z.stream.eof.kind = .eof

theorem Plain.lookahead (hz : z.Plain) (p : Nat) (c : Bool) : z.stream.lookahead p c = z.stream.kind p := by
  rw [hz.silent.lookahead hz.eof, ← Stream.kind_eq_nextKind hz.eof]

section

variable {c : Bool}

theorem heads_token (hz : z.Plain) (k : Kind) : z.Heads pos (.single k) false (z.token c k) := by
  intro t ht
  unfold token
  split
  · rename_i hk
    split
    · rename_i he
      have hkind : z.stream.kind t.pos = k := by
        rw [hk, Stream.kind, Stream.current_of_atEnd he, hz.eof]
      exact ⟨.matched ht.left (.inl (by simp [hkind])) (.inr rfl), ht.memo⟩
    · exact ⟨.failed, ht.memo⟩
  · split
    · rename_i hk
      rw [hz.lookahead] at hk
      have hks : (KindSet.single k).contains (z.stream.kind t.pos) = true := by simp [hk]
      exact ⟨.taken ht.left.skip hks, ht.memo⟩
    · exact ⟨.failed, ht.memo⟩

theorem heads_take : z.Heads pos anyKind true z.take :=
  fun _ ht => ⟨.taken ht.left.skip (contains_anyKind _), ht.memo⟩

theorem heads_oneOf (hz : z.Plain) (ks : KindSet) : z.Heads pos ks false (z.oneOf c ks) := by
  intro t ht
  unfold oneOf
  dsimp only
  split
  · rename_i hk
    simp only [Bool.and_eq_true, hz.lookahead] at hk
    exact ⟨.taken ht.left.skip hk.2, ht.memo⟩
  · exact ⟨.failed, ht.memo⟩

theorem heads_comment (hz : z.Plain) : z.Heads pos (.single .blockComment) false z.comment := by
  intro t ht
  unfold comment
  rw [hz.silent.comment?]
  exact ⟨.failed, ht.memo⟩

end

section

variable {call : Bool → Rule → Step} {c : Bool}

/-- Calls of a rule begin with the kinds of the rule. -/
def CallHeads (z : Recognizer) (pos : Nat) (call : Bool → Rule → Step) : Prop :=
  ∀ c r, z.Heads pos (z.grammar.first r) (z.grammar.nullable r) (call c r)

mutual

theorem heads_element (hz : z.Plain) (hcall : z.CallHeads pos call) (c : Bool) :
    ∀ e : Element, z.Heads pos (z.grammar.firstOf e) (z.grammar.isNullable e) (z.element call c e)
  | .token k | .relation k _ => by
    unfold element
    exact (heads_token hz k).guarded
  | .oneOf ks => by
    unfold element
    exact (heads_oneOf hz ks).guarded
  | .comment => by
    unfold element
    exact (heads_comment hz).guarded
  | .rule r | .ruleAt r _ => by
    unfold element
    exact (hcall c r).guarded
  | .optional e => by
    unfold element
    exact (heads_element hz hcall c e).optional.guarded
  | .repeated e least _ => by
    obtain ⟨n, hn⟩ := z.exists_rounds
    unfold element
    rw [hn]
    exact ((heads_element hz hcall c e).repeated hz.silent n least).guarded
  | .seq es => by
    unfold element
    exact (heads_row hz hcall c es).guarded
  | .labeled _ _ e => by
    unfold element
    exact (heads_element hz hcall c e).guarded

theorem heads_row (hz : z.Plain) (hcall : z.CallHeads pos call) (c : Bool) :
    ∀ es : List Element, z.Heads pos (z.grammar.firstOfRow es) (z.grammar.rowNullable es) (z.row call c es)
  | [] => by
    intro t ht
    unfold row
    exact ⟨.stays ht.left rfl, ht.memo⟩
  | e :: es => by
    unfold row
    refine ((heads_element hz hcall c e).andThen (heads_row hz hcall c es)).imp (fun k hk => ?_) id
    rw [Grammar.firstOfRow_cons]
    rw [KindSet.contains_union] at hk
    cases hn : z.grammar.isNullable e <;> simpa [hn] using hk

end

end

/-! ### Rules -/

section

variable {may : Kind → Alternative → Bool} {call : Bool → Rule → Step} (hz : z.Plain)
  (hg : z.grammar.Saturated) (hcall : z.CallHeads pos call) (c : Bool)
include hz hg hcall

theorem heads_firstMatch {r : Rule} (as : List Alternative) (has : ∀ a ∈ as, a ∈ z.grammar.alternatives r)
    (far : Nat) : z.Heads pos (z.grammar.first r) (z.grammar.nullable r) (z.firstMatch call c as far) := by
  induction as generalizing far with
  | nil => exact fun t ht => ⟨.failed, ht.memo⟩
  | cons a as ih =>
    have ha := has a List.mem_cons_self
    intro t ht
    obtain ⟨hb, hm⟩ := (heads_row hz hcall c a.elements).imp (hg.first ha) (hg.nullable ha) t ht
    unfold firstMatch
    generalize z.row call c a.elements t = e at hb hm ⊢
    obtain ⟨_ | _ | i | _, t'⟩ := e
    · exact ⟨hb, hm⟩
    · exact ⟨hb, hm⟩
    · exact ih (fun b hb => has b (List.mem_cons_of_mem a hb)) (max far i) { t' with pos := t.pos } ⟨ht.left, hm⟩
    · exact ⟨hb, hm⟩

theorem heads_alternativesBy (r : Rule) :
    z.Heads pos (z.grammar.first r) (z.grammar.nullable r) (z.alternativesBy may call c r) :=
  fun t ht => heads_firstMatch hz hg hcall c _ (fun _ ha => (List.mem_filter.1 ha).1) _ t ht

theorem heads_operand (r node : Rule) (tier : Tier) : z.Heads pos anyKind true
    (if tier.form = .binary then z.alternativesBy may call c r else call c node) := by
  split
  · exact (heads_alternativesBy hz hg hcall c r).loose
  · exact (hcall c node).loose

theorem heads_operatorsBy_loose (r : Rule) (table : Table) (n : Nat) :
    z.Heads pos anyKind true (z.operatorsBy may call c r table n) := by
  induction n with
  | zero => exact fun t ht => ⟨.stuck (contains_anyKind _), ht.memo⟩
  | succ n ih =>
    unfold operatorsBy
    refine Heads.guarded fun t ht => ?_
    rcases table.lookup (z.stream.lookahead t.pos c) with _ | ⟨tier, node⟩
    · exact ⟨.stays ht.left rfl, ht.memo⟩
    · exact heads_take.looseThen ((heads_operand hz hg hcall c r node tier).looseThen ih) t ht

/-- Behind an operand there is an operator, or nothing is taken. -/
theorem heads_operatorsBy {table : Table} {ks : KindSet}
    (hks : ∀ k tier node, table.lookup k = some (tier, node) → ks.contains k = true) (r : Rule) (n : Nat) :
    z.Heads pos ks true (z.operatorsBy may call c r table (n + 1)) := by
  have hloose : z.Heads pos anyKind true (z.operatorsBy may call c r table (n + 1)) :=
    heads_operatorsBy_loose hz hg hcall c r table (n + 1)
  unfold operatorsBy at hloose ⊢
  intro t ht
  obtain ⟨hb, hm⟩ := hloose t ht
  refine ⟨?_, hm⟩
  unfold Recognizer.guarded at hb ⊢
  cases hl : z.limitReached t with
  | true =>
    simp only [hl, if_true] at hb ⊢
    exact .limited (hb.horizon rfl)
  | false =>
    simp only [hl, Bool.false_eq_true, if_false] at hb ⊢
    rcases hop : table.lookup (z.stream.lookahead t.pos c) with _ | ⟨tier, node⟩
    · exact .stays ht.left rfl
    · rw [hop] at hb
      have hk : ks.contains (z.stream.kind t.pos) = true := hks _ tier node (hz.lookahead t.pos c ▸ hop)
      exact ⟨hb.left, fun _ => .inl hk, fun _ => .inl hk, fun _ => hk, hb.horizon⟩

theorem heads_bodyBy (r : Rule) :
    z.Heads pos (z.grammar.first r) (z.grammar.nullable r) (z.bodyBy may call c r) := by
  have hoperand : z.Heads pos (z.grammar.first r) (z.grammar.nullable r) (z.alternativesBy may call c r) :=
    heads_alternativesBy hz hg hcall c r
  unfold bodyBy
  rcases htable : z.grammar.table? r with _ | table
  · exact hoperand
  · -- the operators begin with kinds of the rule where that matters, which is where its operands may be empty
    have hoperators (ks : KindSet)
        (hks : ∀ k tier node, table.lookup k = some (tier, node) → ks.contains k = true) :
        z.Heads pos ks true (z.operatorsBy may call c r table z.rounds) := by
      obtain ⟨n, hn⟩ := z.exists_rounds
      rw [hn]
      exact heads_operatorsBy hz hg hcall c hks r n
    cases hn : z.grammar.nullable r with
    | true =>
      rw [hn] at hoperand
      refine (hoperand.andThen (hoperators (z.grammar.first r) fun k tier node hl => ?_)).imp
        (fun k hk => by simpa using hk) id
      exact hg.operator htable hl hn
    | false =>
      rw [hn] at hoperand
      refine (hoperand.andThen (hoperators table.operators fun k tier node hl => ?_)).imp
        (fun k hk => by simpa using hk) id
      exact Table.contains_operators hl

omit hcall in
/-- What is known of a rule, and what is found out about it, begins with a kind of the rule. -/
theorem heads_callBy (n : Nat) (r : Rule) :
    z.Heads pos (z.grammar.first r) (z.grammar.nullable r) (z.callBy may n c r) := by
  induction n generalizing c r with
  | zero => exact fun t ht => ⟨.failed, ht.memo⟩
  | succ n ih =>
    intro t ht
    unfold callBy
    dsimp only
    split
    · rename_i stop hf
      exact ⟨ht.memo _ _ _ _ _ hf t.pos rfl, ht.memo⟩
    · rename_i o stop hne hf
      have hb := ht.memo _ _ _ _ _ hf t.pos rfl
      cases o with
      | matched => exact (hne rfl).elim
      | horizon => exact ⟨.limited (hb.horizon rfl), ht.memo⟩
      | failed i => exact ⟨.failed, ht.memo⟩
      | endless => exact ⟨.stuck (hb.endless rfl), ht.memo⟩
    · obtain ⟨hb, hm⟩ := heads_bodyBy hz hg ih (c || (z.grammar.definition r).comments) r t ht
      exact ⟨hb, hm.insert fun p hp => hb.settled hp⟩

end

end Recognizer

end KermlText
