import KermlText.Proofs.Circles
import KermlText.Proofs.Queries
import KermlText.Scanner

/-! Lookahead ends. Where no operator is seen at the end of input, and no list goes in a circle, each trial comes to
an outcome, and so does each decision that is made of trials. Without either it may go on for ever. -/

namespace KermlText

namespace Recognizer

variable {z : Recognizer} {pos : Nat} {strict steady : Bool} {step : Step} {t u : Trial}

/-! ### Elements -/

/-- What it takes for all trials from `pos` to end: no operator is seen at the end of input, and no list goes in a
circle. -/
structure Ending (z : Recognizer) (pos : Nat) : Prop where
  inside : pos ≤ z.stream.size
  eof : z.stream.eof.kind = .eof
  sets : z.grammar.Saturated
  operators : ∀ r table, z.grammar.table? r = some table → ∀ p, pos ≤ p → z.stream.atEnd p = true →
    ∀ c, table.lookup (z.stream.lookahead p c) = none
  lists : z.stream.Calm pos ∨
    ∀ r, ∀ a ∈ z.grammar.alternatives r, ∀ item ∈ rowItems a.elements, z.grammar.goesOn item = true

theorem Fit.imp {strict' : Bool} (h : z.Fit pos strict steady step) (hs : strict' = true → strict = true) :
    z.Fit pos strict' steady step :=
  ⟨h.comes.imp hs, h.ordered, h.rising, h.gathers, h.told⟩

/-- A token is taken, or the trial stays where it was. -/
theorem take_still (h : z.take t = (.matched, u)) (hab : z.Abides t u) : u.pos = t.pos := by
  cases h
  rcases he : z.stream.atEnd t.pos with _ | _
  · have hlt := z.stream.lt_settle_succ he
    have hsettle := hab.settle
    simp only [Stream.skip, Stream.next?_of_not_atEnd _ he, Option.getD_some] at hsettle
    omega
  · simp [Stream.skip, Stream.next?_of_atEnd _ he]

section

variable {c : Bool}

theorem fit_token (heof : z.stream.eof.kind = .eof) (k : Kind) :
    z.Fit pos (z.grammar.consumes (.token k)) steady (z.guarded (z.token c k)) := by
  refine .of_still (comes_guarded (comes_token heof c k)) (gathers_guarded (gathers_token c k))
    (abreast_guarded (abreast_self z) fun t t' ht hl => paired_token (abreast_self z) ht hl c k) fun {t u} he hab => ?_
  have he := of_guarded_matched he
  unfold token at he
  split at he
  · split at he
    · cases he
      rfl
    · cases he
  · split at he
    · exact take_still he hab
    · cases he

theorem fit_oneOf (heof : z.stream.eof.kind = .eof) (ks : KindSet) :
    z.Fit pos strict steady (z.guarded (z.oneOf c ks)) := by
  refine .of_still (comes_guarded ((comes_oneOf heof c ks).imp fun _ => rfl)) (gathers_guarded (gathers_oneOf c ks))
    (abreast_guarded (abreast_self z) fun t t' ht hl => paired_oneOf (abreast_self z) ht hl c ks) fun {t u} he hab => ?_
  have he := of_guarded_matched he
  unfold oneOf at he
  dsimp only at he
  split at he
  · exact take_still he hab
  · cases he

theorem comment_matched (h : z.comment t = (.matched, u)) : ∃ i, z.stream.comment? t.pos = some i ∧ u.pos = i + 1 := by
  unfold comment at h
  split at h
  · rename_i i hi
    cases h
    exact ⟨i, hi, rfl⟩
  · cases h

/-- Of two places in front of a token only the first is in front of a comment. -/
theorem fit_comment (hp : pos ≤ z.stream.size) : z.Fit pos false steady (z.guarded z.comment) where
  comes := comes_guarded (comes_comment hp)
  ordered hc t u t' u' ht hu hab hlt _ heu _ _ := by
    obtain ⟨i, hi, -⟩ := comment_matched (of_guarded_matched heu)
    rw [hc.comment? ht.left hu.left hp hlt hab.settle] at hi
    cases hi
  rising _ t t' _ het _ := by
    obtain ⟨i, hi, hpos⟩ := comment_matched (of_guarded_matched het)
    obtain ⟨hle, -, -⟩ := z.stream.comment?_some hi
    omega
  gathers := gathers_guarded gathers_comment
  told := abreast_guarded (abreast_self z) fun t t' ht hl => paired_comment (abreast_self z) ht hl

end

section

variable {call : Bool → Rule → Step}

/-- Calls of a rule that takes tokens take one. -/
def CallFit (z : Recognizer) (pos : Nat) (call : Bool → Rule → Step) : Prop :=
  ∀ c r, z.Fit pos (z.grammar.consumes (.rule r)) (z.grammar.consumes (.rule r)) (call c r)

mutual

theorem fit_element (heof : z.stream.eof.kind = .eof) (hp : pos ≤ z.stream.size) (hcall : z.CallFit pos call)
    (c : Bool) : ∀ e : Element, (z.stream.Calm pos ∨ ∀ item ∈ e.items, z.grammar.goesOn item = true) →
      z.Fit pos (z.grammar.consumes e) (z.grammar.steady e) (z.element call c e)
  | .token k, _ | .relation k _, _ => by
    unfold element
    exact fit_token heof k
  | .oneOf ks, _ => by
    unfold element
    exact fit_oneOf heof ks
  | .comment, _ => by
    unfold element
    exact (fit_comment hp).imp fun hm => by
      simp [Grammar.consumes, Grammar.leads, Grammar.firstOf, Element.firstKinds] at hm
  | .rule r, _ | .ruleAt r _, _ => by
    unfold element
    rw [Grammar.steady, Element.rules, List.all_cons, List.all_nil, Bool.and_true]
    exact (hcall c r).guarded
  | .optional e, hl => by
    unfold element
    exact (fit_element heof hp hcall c e hl).optional.guarded
  | .repeated e least _, hl => by
    have he := fit_element heof hp hcall c e (hl.imp_right fun h item hi => h item (List.mem_cons_of_mem e hi))
    have hstraight : z.Straight pos (z.element call c e) := by
      rcases hl with hc | hl
      · exact he.straight_of_calm hc
      · rcases Bool.or_eq_true _ _ ▸ hl e List.mem_cons_self with hm | hs
        · rw [hm] at he
          exact he.straight_of_strict
        · rw [hs] at he
          exact he.straight_of_steady
    unfold element
    exact ((he.repeated hp hstraight least).imp Grammar.consumes_repeated).guarded
  | .seq es, hl => by
    unfold element
    exact (fit_row heof hp hcall c es hl).guarded
  | .labeled _ _ e, hl => by
    unfold element
    exact (fit_element heof hp hcall c e hl).guarded

theorem fit_row (heof : z.stream.eof.kind = .eof) (hp : pos ≤ z.stream.size) (hcall : z.CallFit pos call)
    (c : Bool) : ∀ es : List Element, (z.stream.Calm pos ∨ ∀ item ∈ rowItems es, z.grammar.goesOn item = true) →
      z.Fit pos (z.grammar.rowConsumes es) (z.grammar.rowSteady es) (z.row call c es)
  | [], _ => by
    unfold row
    refine .of_still (fun t ht => ht.stays) (gathers_of_eq fun t => rfl) (fun _ _ ht => .matched ht) fun he _ => ?_
    cases he
    rfl
  | e :: es, hl => by
    unfold row
    rw [Grammar.rowSteady_cons]
    refine ((fit_element heof hp hcall c e ?_).andThen (fit_row heof hp hcall c es ?_)).imp fun h => ?_
    · exact hl.imp_right fun h item hi => h item (List.mem_append_left _ hi)
    · exact hl.imp_right fun h item hi => h item (List.mem_append_right _ hi)
    · exact Bool.or_eq_true _ _ ▸ Grammar.consumes_of_rowConsumes h

end

/-! ### Rules -/

variable (h : z.Ending pos) (hcall : z.CallFit pos call) (c : Bool)

theorem comes_firstMatch (as : List Alternative) (has : ∀ a ∈ as, z.Comes pos strict (z.row call c a.elements))
    (far : Nat) : z.Comes pos strict (z.firstMatch call c as far) := by
  induction as generalizing far with
  | nil => exact fun t ht => ht.fails far
  | cons a as ih =>
    intro t ht
    have hs := has a List.mem_cons_self t ht
    unfold firstMatch
    generalize z.row call c a.elements t = e at hs ⊢
    obtain ⟨_ | _ | i | _, t'⟩ := e
    · exact hs
    · exact hs
    · have hrest := ih (fun b hb => has b (List.mem_cons_of_mem a hb)) (max far i) { t' with pos := t.pos }
        ⟨ht.left, hs.poised.memo⟩
      exact ⟨hrest.poised, hrest.ends, hrest.le, hrest.lt⟩
    · exact hs

include h hcall

theorem Ending.comes_alternatives (r : Rule) :
    z.Comes pos (z.grammar.consumes (.rule r)) (z.alternatives call c r) := by
  intro t ht
  refine comes_firstMatch c _ (fun a ha => ?_) _ t ht
  have ha := (List.mem_filter.1 ha).1
  exact (fit_row h.eof h.inside hcall c a.elements (h.lists.imp_right fun hl => hl r a ha)).comes.imp
    (h.sets.rowConsumes ha)

/-- Each operator takes a token, so there are no more operators than tokens. -/
theorem Ending.arrives_operators {r : Rule} {table : Table} (htable : z.grammar.table? r = some table) (n : Nat)
    (t : Trial) (ht : z.Poised pos t) (hn : z.stream.size < z.stream.settle t.pos + n) :
    z.Arrives pos false t (z.operators call c r table n t) := by
  induction n generalizing t with
  | zero => exact absurd (z.stream.settle_le_size t.pos) (Nat.not_le.2 hn)
  | succ n ih =>
    unfold Recognizer.operators guarded
    split
    · exact ht.limits
    · dsimp only
      split
      · exact ht.stays
      · rename_i tier node hop
        have hend : z.stream.atEnd t.pos = false := Bool.eq_false_iff.2 fun hend => by
          rw [h.operators r table htable t.pos ht.left.le hend c] at hop
          cases hop
        have hoperand : z.Comes pos false (if tier.form = .binary then z.alternatives call c r else call c node) := by
          split
          · exact (h.comes_alternatives hcall c r).imp nofun
          · exact (hcall c node).comes.imp nofun
        have htake : z.Arrives pos true t (z.take t) := ht.takes fun _ => hend
        have hlt := htake.lt rfl rfl
        have hs := hoperand _ htake.poised
        unfold andThen
        rw [show z.take t = (.matched, (z.take t).2) from rfl]
        dsimp only
        generalize (if tier.form = .binary then z.alternatives call c r else call c node) (z.take t).2 = e at hs ⊢
        obtain ⟨_ | _ | i | _, t'⟩ := e
        · -- the operator took a token, so the rounds that are left are enough for what comes behind it
          have hle := hs.le rfl
          have hrest := ih t' hs.poised (by dsimp only at hle hlt; omega)
          exact ⟨hrest.poised, hrest.ends, fun ho => Nat.le_trans (Nat.le_of_lt hlt) (Nat.le_trans hle (hrest.le ho)),
            nofun⟩
        · exact hs.poised.limits
        · exact hs.poised.fails i
        · exact absurd rfl hs.ends

theorem Ending.comes_body (r : Rule) : z.Comes pos (z.grammar.consumes (.rule r)) (z.body call c r) := by
  have hoperand := h.comes_alternatives hcall c r
  unfold body
  split
  · rename_i table htable
    have hoperators : z.Comes pos false (z.operators call c r table z.rounds) := fun t ht => by
      have hrounds := size_lt_rounds z
      exact h.arrives_operators hcall c htable _ t ht (by omega)
    exact (comes_andThen hoperand hoperators).imp fun hm => by rw [hm, Bool.true_or]
  · exact hoperand

end

/-- A call that matches and learns nothing finds the match in the memo. -/
theorem find?_of_call {n : Nat} {c : Bool} {r : Rule} (he : z.call n c r t = (.matched, u)) (hm : u.memo = t.memo) :
    t.memo.find? r (z.stream.settle t.pos) c = some (.matched, u.pos) := by
  cases n with
  | zero => cases he
  | succ n =>
    unfold call at he
    dsimp only at he
    split at he
    · rename_i stop hk
      cases he
      exact hk
    · rename_i o stop hne hk
      cases he
      exact absurd rfl hne
    · rename_i hk
      obtain ⟨-, rfl⟩ := Prod.mk.inj he
      -- the match was learned just now
      have hnew := (Memo.mem_of_find? (m := t.memo) (r := r) (i := z.stream.settle t.pos) (c := c)).1
      rw [← hm] at hnew
      exact absurd (hm ▸ hk) (hnew (Memo.mem_insert.2 (.inl rfl)))

theorem Ending.comes_call (h : z.Ending pos) {n : Nat} (hcall : z.CallFit pos (z.call n)) (c : Bool) (r : Rule) :
    z.Comes pos (z.grammar.consumes (.rule r)) (z.call (n + 1) c r) := by
  intro t ht
  unfold call
  dsimp only
  split
  · rename_i stop hk
    obtain ⟨hleft, hle, hlt⟩ := (ht.memo _ _ _ _ _ hk).2 rfl
    exact ⟨⟨hleft, ht.memo⟩, nofun, fun _ => hle, fun _ hm => hlt hm⟩
  · rename_i o stop hne hk
    exact ⟨ht, (ht.memo _ _ _ _ _ hk).1, fun ho => (hne ho).elim, fun ho => (hne ho).elim⟩
  · have hb := h.comes_body hcall (c || (z.grammar.definition r).comments) r t ht
    have hknown : z.Attains pos r (z.stream.settle t.pos) c
        (z.body (z.call n) (c || (z.grammar.definition r).comments) r t).1
        (z.body (z.call n) (c || (z.grammar.definition r).comments) r t).2.pos :=
      ⟨hb.ends, fun ho => ⟨hb.poised.left, hb.le ho, hb.lt ho⟩⟩
    exact ⟨⟨hb.poised.left, hb.poised.memo.insert hknown⟩, hb.ends, hb.le, hb.lt⟩

/-- Where a call learns nothing, it leads to one place from all places in front of a token. -/
theorem Ending.callFit (h : z.Ending pos) (n : Nat) : z.CallFit pos (z.call n) := by
  have hfit {n : Nat} {c : Bool} {r : Rule} (hcomes : z.Comes pos (z.grammar.consumes (.rule r)) (z.call n c r)) :
      z.Fit pos (z.grammar.consumes (.rule r)) (z.grammar.consumes (.rule r)) (z.call n c r) := by
    refine ⟨hcomes, fun _ t u t' u' _ _ hab _ het heu ht' hu' => ?_, fun hm t t' ht het ht' => ?_, gathers_call n c r,
      abreast_call (abreast_self z) (fun n => evenRounds_of_size (abreast_self z) rfl _ _) n c r⟩
    · have hk := find?_of_call het ht'.memo
      have hk' := find?_of_call heu hu'.memo
      rw [hab.settle, hab.memo, hk] at hk'
      exact Nat.le_of_eq (Prod.mk.inj (Option.some.inj hk')).2
    · rw [hm] at hcomes
      exact absurd ht' (hcomes.not_abides ht het)
  induction n with
  | zero => exact fun c r => hfit fun t ht => ⟨⟨ht.left, ht.memo⟩, nofun, nofun, nofun⟩
  | succ n ih => exact fun c r => hfit (h.comes_call ih c r)

end Recognizer

/-- At the end a comment may be ahead, and nothing else. -/
theorem lookup_of_atEnd {s : Stream} (heof : s.eof.kind = .eof) {table : Table} (h1 : table.lookup .eof = none)
    (h2 : table.lookup .blockComment = none) {p : Nat} (hend : s.atEnd p = true) (c : Bool) :
    table.lookup (s.lookahead p c) = none := by
  unfold Stream.lookahead
  split
  · exact h2
  · rw [Stream.kind, Stream.current_of_atEnd hend, heof, h1]

/-- No list of the language goes in a circle. -/
theorem goesOn_kerml (r : Rule) : ∀ a ∈ kerml.alternatives r, ∀ item ∈ rowItems a.elements,
    kerml.goesOn item = true := by
  have h : (Rule.all.all fun r =>
      (kerml.alternatives r).all fun a => (rowItems a.elements).all kerml.goesOn) = true := by decide +kernel
  simp only [List.all_eq_true] at h
  exact h r (Rule.mem_all r)

/-! ### Decisions -/

namespace Resolver

open Recognizer

/-- Trials of alternatives come to an answer. -/
theorem tryAll_ends {z : Recognizer} {pos : Nat} (h : z.Ending pos) (r : Rule) (follow : KindSet) (c : Bool)
    (is : List Nat) {memo : Memo} (hm : memo.Holds (z.Attains pos)) (rank : Ranking) (cut : Bool) :
    ∃ o cut', tryAll z pos r follow c is memo rank cut = (.ok o, cut') := by
  induction is generalizing memo rank cut with
  | nil => exact ⟨_, _, rfl⟩
  | cons i is ih =>
    have hlists : z.stream.Calm pos ∨ ∀ item ∈ rowItems (elements z.grammar r i), z.grammar.goesOn item = true := by
      refine h.lists.imp_right fun hl => ?_
      unfold elements
      split
      · rename_i a ha
        exact hl r a (List.mem_of_getElem? ha)
      · exact fun item hi => nomatch hi
    have hs := (fit_row h.eof h.inside (h.callFit maxNesting) c _ hlists).comes (.start pos memo) ⟨.inl rfl, hm⟩
    unfold tryAll tryRow
    generalize z.row (z.call maxNesting) c (elements z.grammar r i) (.start pos memo) = e at hs ⊢
    obtain ⟨_ | _ | place | _, t⟩ := e
    · dsimp only
      split
      · exact ⟨_, _, rfl⟩
      · exact ih hs.poised.memo _ _
    · exact ⟨_, _, rfl⟩
    · exact ih hs.poised.memo _ _
    · exact absurd rfl hs.ends

/-- Lookahead ends, whatever the rules are, if no operator is seen at the end of input, where it takes nothing, and
if no two comments stand in front of one token. With more comments it ends if in each list an item takes a token
or calls only rules that do. -/
theorem lookahead_ends (defs : List Definition) (tables : List Table) (ts : List Token) {pos : Nat}
    (hpos : pos ≤ ts.length) :
    let g : Grammar := .build defs tables
    let s : Stream := .ofTokens ts
    (∀ r table, g.table? r = some table → ∀ p, pos ≤ p → s.atEnd p = true →
      ∀ c, table.lookup (s.lookahead p c) = none) →
    (s.Calm pos ∨ ∀ r, ∀ a ∈ g.alternatives r, ∀ item ∈ rowItems a.elements, g.goesOn item = true) →
    ∀ (z : Resolver) (follow : KindSet) (c : Bool),
      (∀ r candidates f, (z.decide g s pos r candidates follow c).1 = .error f →
        ∃ q place offset expected k, f = .noAlternative q place offset expected k) ∧
      ∀ e : Element, (s.Calm pos ∨ ∀ item ∈ e.items, g.goesOn item = true) →
        ∃ b, (z.enter g s pos e follow c).1 = .ok b := by
  intro g s hop hlists z follow c
  have hending : (z.recognizer g s pos).Ending pos := by
    refine ⟨?_, Stream.kind_eof_ofTokens ts, Grammar.saturated_build defs tables, hop, hlists⟩
    simpa [recognizer, s, Stream.size, Stream.ofTokens] using hpos
  refine ⟨fun r candidates f hf => ?_, fun e he => ?_⟩
  · unfold decide at hf
    split at hf
    · cases hf
    · dsimp only at hf
      split at hf
      · cases hf
      · split at hf
        · cases hf
          exact ⟨_, _, _, _, _, rfl⟩
        · cases hf
        · rename_i first rest _ _
          obtain ⟨o, cut, ho⟩ := tryAll_ends hending r follow c (first :: rest) (Memo.holds_empty _) ⟨none, none⟩ false
          rw [ho] at hf
          cases hf
  · have hs := (fit_element hending.eof hending.inside (hending.callFit maxNesting) c e he).comes (.start pos .empty)
      ⟨.inl rfl, Memo.holds_empty _⟩
    unfold enter
    dsimp only
    split
    · exact ⟨_, rfl⟩
    · split
      · exact ⟨_, rfl⟩
      · unfold tryElement
        generalize (z.recognizer g s pos).element _ c e (.start pos .empty) = x at hs ⊢
        obtain ⟨_ | _ | place | _, t⟩ := x
        · exact ⟨_, rfl⟩
        · exact ⟨_, rfl⟩
        · exact ⟨_, rfl⟩
        · exact absurd rfl hs.ends

/-- Between these comments lookahead for an expression ends. -/
theorem lookahead_ends_comments :
    let s : Stream := .ofTokens (scan "( /* a */ /* b */ /* c */ x ) /* d */")
    (∀ r table, kerml.table? r = some table → ∀ p, 1 ≤ p → s.atEnd p = true →
      ∀ c, table.lookup (s.lookahead p c) = none) ∧
    (∀ r, ∀ a ∈ kerml.alternatives r, ∀ item ∈ rowItems a.elements, kerml.goesOn item = true) ∧
    s.commentsBefore 1 = 3 ∧
    ∃ b, ((make 32 true).enter kerml s 1 (.rule .ownedExpression) (.single .ident) false).1 = .ok b := by
  intro s
  have hop : ∀ r table, kerml.table? r = some table → ∀ p, 1 ≤ p → s.atEnd p = true →
      ∀ c, table.lookup (s.lookahead p c) = none := fun r table htable p _ hend c =>
    lookup_of_atEnd (Stream.kind_eof_ofTokens _) (founded_kerml.eof r table htable)
      (founded_kerml.blockComment r table htable) hend c
  exact ⟨hop, goesOn_kerml, by decide +kernel,
    (lookahead_ends Rules.all [Rules.operatorTable, Rules.suffixTable] _ (by decide +kernel) hop (.inr goesOn_kerml)
      (make 32 true) (.single .ident) false).2 (.rule .ownedExpression) (.inr nofun)⟩

/-! ### Circles -/

theorem enter_endless {g : Grammar} {s : Stream} {z : Resolver} {pos : Nat} {e : Element} {follow : KindSet} {c : Bool}
    (hfirst : (g.firstOf e).contains (s.lookahead pos c) = true)
    (hfollow : follow.contains (s.lookahead pos c) = true)
    (h : ((z.recognizer g s pos).tryElement c e (.start pos .empty)).1 = .endless) :
    (z.enter g s pos e follow c).1 = .error .endless := by
  unfold enter
  dsimp only
  rw [hfirst, hfollow]
  rcases he : (z.recognizer g s pos).tryElement c e (.start pos .empty) with ⟨o, t⟩
  rw [he] at h
  cases h
  rfl

/-- The end of input as an operator. -/
def endTable : Table := ⟨.ownedExpression, [⟨0, .binary, false, [(.eof, .operatorExpression)]⟩]⟩

/-- An empty operand, and the end of input as an operator behind it. -/
def endOperator : Grammar := .build [⟨.ownedExpression, false, false, [⟨[], false⟩]⟩] [endTable]

/-- The end of input is no token to be taken, so it is there behind any number of operators. -/
theorem endOperator_endless (n : Nat) :
    let z := (make 32 true).recognizer endOperator (.ofTokens []) 0
    (z.call (n + 1) false .ownedExpression (.start 0 .empty)).1 = .endless := by
  intro z
  have hop : endTable.lookup (z.stream.lookahead 0 false) =
      some (⟨0, .binary, false, [(.eof, .operatorExpression)]⟩, .operatorExpression) := rfl
  have hoperand (c : Bool) : z.alternatives (z.call n) c .ownedExpression (.start 0 .empty) =
      (.matched, .start 0 .empty) := alternatives_of_nil rfl
  exact call_endless (Memo.find?_empty _ _ _) rfl (hoperand _)
    (operators_endless (by decide +kernel) hop (by rw [if_pos rfl]; exact hoperand _) z.rounds)

/-- Rules for no comment, for one and for two. -/
def commentRules : Grammar :=
  .build [⟨.subsetting, false, false, [⟨[], false⟩]⟩, ⟨.redefinition, false, false, [⟨[.comment], false⟩]⟩,
    ⟨.featureTyping, false, false, [⟨[.comment, .comment], false⟩]⟩] []

/-- Tries each of the rules, so that it is known where they lead. -/
def trying : Element :=
  .seq [.optional (.seq [.rule .subsetting, .token .comma]), .optional (.seq [.rule .redefinition, .token .comma]),
    .optional (.seq [.rule .featureTyping, .token .comma])]

/-- In front of three comments it leads behind the first of them, and from there back in front of it. -/
def turning : Element :=
  .seq [.optional (.seq [.comment, .comment, .comment, .rule .featureTyping]),
    .optional (.seq [.comment, .comment, .rule .subsetting]),
    .optional (.seq [.optional (.seq [.comment, .comment, .comment]), .comment, .rule .redefinition])]

/-- All that the rounds ask for is known, so the list goes round between the same two places. -/
theorem turning_endless :
    let z := (make 32 true).recognizer commentRules (.ofTokens (scan "/*1*//*2*//*3*/")) 0
    let t := (z.element (z.call maxNesting) true trying (.start 0 .empty)).2
    ∀ rounds need, (repeated (z.element (z.call maxNesting) true turning) rounds need t).1 = .endless := by
  intro z t
  have h : (after (listOn (z.element (z.call maxNesting) true turning)) 2 t).map
      (fun u => (u.pos, u.memo.count z.keys, u.tookComment, u.cut)) =
        some (t.pos, t.memo.count z.keys, t.tookComment, t.cut) := by decide +kernel
  -- the rounds are not run again
  clear_value z t
  obtain ⟨u, hu, he⟩ := Option.map_eq_some_iff.1 h
  simp only [Prod.mk.injEq] at he
  obtain ⟨hpos, hcount, htook, hcut⟩ := he
  have hmemo := (gathers_element (gathers_call maxNesting) true turning).memo_eq hu hcount
  have hut : u = ⟨t.pos, t.memo, t.tookComment, t.cut⟩ := by rw [← hpos, ← hmemo, ← htook, ← hcut]
  exact repeated_endless (k := 1) (hu.trans (congrArg some hut))

/-- Lookahead goes on for ever where the end of input is an operator, and in a list that goes back and forth between
comments. -/
theorem lookahead_endless :
    ((make 32 true).enter endOperator (.ofTokens []) 0 (.rule .ownedExpression) (.single .eof) false).1 =
      .error .endless ∧
    ((make 32 true).enter commentRules (.ofTokens (scan "/*1*//*2*//*3*/")) 0
      (.seq [trying, .repeated turning 0 false]) (.single .blockComment) true).1 = .error .endless := by
  constructor
  · refine enter_endless (by decide +kernel) (by decide +kernel) ?_
    unfold tryElement element
    exact guarded_endless (by decide +kernel) (endOperator_endless 255)
  · refine enter_endless (by decide +kernel) (by decide +kernel) ?_
    have hlist := turning_endless
    refine seq_endless (by decide +kernel) (by decide +kernel) ?_
    rw [element]
    exact guarded_endless (by decide +kernel) (hlist _ _)

end Resolver

end KermlText
