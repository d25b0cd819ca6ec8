import KermlText.Proofs.Annotated

/-! What a match begins with and what it takes. A match begins with a kind that lookahead expects, or takes
nothing; an item of a list takes a token; and no bad token is taken. -/

namespace KermlText

namespace Grammar

variable (g : Grammar)

/-- Whether the sets of the grammar hold what its rows say, and no rule is empty that looks for comments or has
operators. -/
def isCovered : Bool :=
  Rule.all.all fun r =>
    ((g.alternatives r).all fun a => a.leftRecursive ||
      decide (g.firstOfRow a.elements ∪ g.first r = g.first r) && (!g.rowNullable a.elements || g.nullable r)) &&
    (!(g.aware r || (g.table? r).isSome) || !g.nullable r) &&
    (!g.aware r || !(g.first r).contains .blockComment)

structure Covered (g : Grammar) : Prop where
  first : ∀ r, ∀ a ∈ g.alternatives r, a.leftRecursive = false → ∀ k,
    (g.firstOfRow a.elements).contains k = true → (g.first r).contains k = true
  nullable : ∀ r, ∀ a ∈ g.alternatives r, a.leftRecursive = false → g.rowNullable a.elements = true →
    g.nullable r = true
  aware : ∀ r, g.aware r = true → g.nullable r = false ∧ (g.first r).contains .blockComment = false
  table : ∀ r t, g.table? r = some t → g.nullable r = false

variable {g}

theorem covered_of_isCovered (h : g.isCovered = true) : g.Covered := by
  simp only [isCovered, Bool.and_eq_true, List.all_eq_true, Bool.or_eq_true, Bool.not_eq_true',
    decide_eq_true_eq] at h
  have hrow := fun r a ha (hl : a.leftRecursive = false) =>
    ((h r (Rule.mem_all r)).1.1 a ha).resolve_left (by simp [hl])
  refine ⟨fun r a ha hl k hk => KindSet.contains_of_union_eq (hrow r a ha hl).1 hk, fun r a ha hl hn => ?_,
    fun r hr => ⟨?_, ?_⟩, fun r t ht => ?_⟩
  · exact (hrow r a ha hl).2.resolve_left (by simp [hn])
  · exact (h r (Rule.mem_all r)).1.2.resolve_left (by simp [hr])
  · exact (h r (Rule.mem_all r)).2.resolve_left (by simp [hr])
  · exact (h r (Rule.mem_all r)).1.2.resolve_left (by simp [ht])

end Grammar

theorem covered_kerml : kerml.Covered :=
  Grammar.covered_of_isCovered (by decide +kernel)

namespace Attempt

variable (g : Grammar)

/-- Lookahead expects the kind of what is attempted. -/
def Opens (k : Kind) : Attempt → Prop
  | .element e | .items e _ _ => (g.firstOf e).contains k = true
  | .row es => (g.firstOfRow es).contains k = true
  | .firstOf as _ => ∃ a ∈ as, (g.firstOfRow a.elements).contains k = true
  | .operand r | .call r => (g.first r).contains k = true
  | .operators _ table _ => table.operators.contains k = true

/-- What is attempted may be empty. -/
def Empty : Attempt → Prop
  | .element e => g.isNullable e = true
  | .items e _ need => need = 0 ∨ g.isNullable e = true
  | .row es => g.rowNullable es = true
  | .firstOf as _ => ∃ a ∈ as, g.rowNullable a.elements = true
  | .operand r | .call r => g.nullable r = true
  | .operators _ _ _ => True

/-- A match surely takes a token. -/
def Takes : Attempt → Prop
  | .element e => e.takes g.solid = true
  | .items e _ need => need ≠ 0 ∧ e.takes g.solid = true
  | .row es => anyTakes g.solid es = true
  | .firstOf as _ => ∀ a ∈ as, anyTakes g.solid a.elements = true
  | .operand r | .call r => g.solid r = true
  | .operators _ _ _ => False

end Attempt

namespace Grammar

variable {g : Grammar} {e : Element} {es : List Element} {k : Kind}

theorem firstOfRow_cons : (g.firstOfRow (e :: es)).contains k =
    ((g.firstOf e).contains k || (g.isNullable e && (g.firstOfRow es).contains k)) := by
  unfold firstOfRow firstOf isNullable
  conv_lhs => unfold rowFirstKinds
  split
  · rename_i h
    rw [KindSet.contains_union, h, Bool.true_and]
  · rename_i h
    simp [h]

theorem rowNullable_cons : g.rowNullable (e :: es) = (g.isNullable e && g.rowNullable es) := rfl

end Grammar

/-- No default-channel token between the two places is a bad one. -/
def Stream.Clean (s : Stream) (p q : Nat) : Prop :=
  ∀ i, p ≤ i → i < q → (s.token i).channel = .default → (s.token i).kind ≠ .error

namespace Stream.Clean

variable {s : Stream} {p q i : Nat}

theorem refl (p : Nat) : s.Clean p p := fun _ h1 h2 => absurd h2 (Nat.not_lt.2 h1)

theorem trans (h1 : s.Clean p q) (h2 : s.Clean q i) : s.Clean p i := fun j hp hi hd =>
  (Nat.lt_or_ge j q).elim (fun hq => h1 j hp hq hd) fun hq => h2 j hq hi hd

theorem gap (h : i < s.settle p) : s.Clean p (i + 1) := fun _ h1 h2 hd =>
  absurd hd (s.channel_ne_of_lt_settle h1 (Nat.lt_of_lt_of_le h2 h))

theorem skip (he : s.atEnd p = false) (hk : s.kind p ≠ .error) : s.Clean p (s.skip p) := by
  rw [skip_of_not_atEnd he]
  intro j h1 h2 hd
  rcases Nat.eq_or_lt_of_le (Nat.le_of_lt_succ h2) with rfl | hlt
  · exact hk
  · exact absurd hd (s.channel_ne_of_lt_settle h1 hlt)

/-- Where no bad token was taken on the way to the end none is ahead. -/
theorem kind_ne_error (heof : s.eof.kind = .eof) (h : s.Clean 0 q) (hq : s.atEnd q = true) (i : Nat) :
    s.kind i ≠ .error := by
  rcases he : s.atEnd i with _ | _
  · have hlt := s.settle_lt_of_not_atEnd he
    have hbefore : s.settle i < q := Nat.lt_of_not_le fun hle => by
      have := s.settle_mono hle (Nat.le_of_lt hlt)
      rw [s.settle_settle, s.atEnd_iff.1 hq] at this
      exact absurd hlt (Nat.not_lt.2 this)
    exact h _ (Nat.zero_le _) hbefore (s.channel_settle hlt)
  · rw [kind, current_of_atEnd he, heof]
    decide

end Stream.Clean

namespace Recognizer

variable {z : Recognizer} {c : Bool} {n : Attempt} {p q : Nat} {v : Verdict}

/-! ### What is taken -/

/-- A match that surely takes a token moves on. -/
theorem Finds.takes (heof : z.stream.eof.kind = .eof) (hg : z.grammar.Founded) (h : z.Finds c n p v)
    (hn : n.Takes z.grammar) (hv : v = .matched q) : p < q := by
  have hskip : ∀ {p c}, z.stream.lookahead p c ≠ .eof → z.stream.lookahead p c ≠ .blockComment →
      p < z.stream.skip p := fun {p c} h1 h2 => by
    have he := Stream.not_atEnd_of_lookahead heof h1 h2
    rw [Stream.skip_of_not_atEnd he]
    exact Nat.lt_succ_of_le (Stream.le_settle_of_not_atEnd he)
  have htoken : ∀ {p c k q}, k ≠ .eof → k ≠ .blockComment → z.behindToken? c k p = some q → p < q :=
    fun {p c k q} h1 h2 h => by
      obtain ⟨-, rfl, rfl⟩ := (of_behindToken? h).resolve_left fun hk => h1 hk.1
      exact hskip h1 h2
  induction h generalizing q with
  | limit | miss | spent | short | none | exhausted | stopped => cases hv
  | @hit c e p q' _ he h =>
    cases hv
    cases e with
    | token k | relation k _ =>
      simp only [Attempt.Takes, Element.takes, Bool.and_eq_true, bne_iff_ne] at hn
      exact htoken hn.1 hn.2 h
    | oneOf ks =>
      obtain ⟨h1, h2, -, rfl⟩ := of_behind?_oneOf h
      exact hskip h1 h2
    | comment => cases hn
    | rule | ruleAt | optional | repeated | seq | labeled => cases he
  | rule _ _ ih | ruleAt _ _ ih | seq _ _ ih | labeled _ _ ih => exact ih hn hv
  | present | absent => cases hn
  | repeated _ _ ih =>
    simp only [Attempt.Takes, Element.takes, Bool.and_eq_true, bne_iff_ne] at hn
    exact ih hn hv
  | nil => cases hn
  | cons h1 h2 ih1 ih2 =>
    simp only [Attempt.Takes, anyTakes, Bool.or_eq_true] at hn
    rcases hn with hn | hn
    · exact Nat.lt_of_lt_of_le (ih1 hn rfl) (h2.forth hv).le
    · exact Nat.lt_of_le_of_lt (h1.forth rfl).le (ih2 hn hv)
  | again _ _ h2 ih1 _ => exact Nat.lt_of_lt_of_le (ih1 hn.2 rfl) (h2.forth hv).le
  | still _ ih => exact absurd (ih hn.2 rfl) (Nat.lt_irrefl _)
  | done => exact absurd rfl hn.1
  | next _ _ _ ih => exact ih (fun a ha => hn a (List.mem_cons_of_mem _ ha)) hv
  | found _ _ ih => exact ih (hn _ List.mem_cons_self) hv
  | @operand c r p v _ ih =>
    refine ih (fun a ha => ?_) hv
    obtain ⟨hm, hs⟩ := List.mem_filter.1 ha
    simp only [startsWith, Bool.and_eq_true, Bool.not_eq_true'] at hs
    exact hg.takes r hn a hm hs.1
  | bare | operator => cases hn
  | plain _ _ ih => exact ih hn hv
  | climbed _ _ h2 ih1 _ => exact Nat.lt_of_lt_of_le (ih1 hn rfl) (h2.forth hv).le
  | broken _ hne | stranded _ _ _ hne | unbuilt _ _ hne => exact absurd hv (hne q)
  | halted _ hne => rcases hne with rfl | rfl <;> cases hv

section

variable {keys : KindSet} {inner : Rule → Bool} {a b : Bool} (heof : z.stream.eof.kind = .eof)
  (ha : z.grammar.Annotated keys inner)
include heof ha

/-! ### What a match begins with -/

/-- A token that matches is expected. -/
theorem starts_single {e : Element} (he : e.isSingle = true)
    (hn : e.Leads keys inner c a b) (h : z.behind? c e p = some q) :
    (z.grammar.firstOf e).contains (z.stream.lookahead p c) = true := by
  have htoken : ∀ k, (k = .eof → c = false) → z.behindToken? c k p = some q →
      (KindSet.single k).contains (z.stream.lookahead p c) = true := fun k hk h => by
    rcases of_behindToken? h with ⟨rfl, hend, -⟩ | ⟨-, rfl, -⟩
    · simp [hk rfl, Stream.lookahead, Stream.kind, Stream.current_of_atEnd hend, heof]
    · simp
  cases e with
  | token k => exact htoken k (Element.Leads.token ha hn).2.2 h
  | relation k r => exact htoken k (Element.Leads.relation hn).2.2 h
  | oneOf ks => exact (of_behind?_oneOf h).2.2.1
  | comment =>
    obtain ⟨i, hi, -⟩ := Option.map_eq_some_iff.1 h
    cases hn with
    | plain hn => cases hn
    | key hn => cases hn
    | remark => simp [Stream.lookahead, hi, Grammar.firstOf, Element.firstKinds]
  | rule | ruleAt | optional | repeated | seq | labeled => cases he

/-- A match begins with a kind that lookahead expects, or it is empty. -/
theorem Finds.starts (hg : z.grammar.Covered) (h : z.Finds c n p v)
    (hn : (z.annotationLanes heof ha).Admits c n a b) (hv : v = .matched q) :
    n.Opens z.grammar (z.stream.lookahead p c) ∨ n.Empty z.grammar ∧ q = p := by
  have hoperand : ∀ {c r p q far}, (Attempt.firstOf (z.candidates c r p) far).Opens z.grammar
        (z.stream.lookahead p c) ∨ (Attempt.firstOf (z.candidates c r p) far).Empty z.grammar ∧ q = p →
      (Attempt.operand r).Opens z.grammar (z.stream.lookahead p c) ∨
        (Attempt.operand r).Empty z.grammar ∧ q = p := fun {c r p q far} h => by
    have hmem : ∀ alt ∈ z.candidates c r p, alt ∈ z.grammar.alternatives r ∧ alt.leftRecursive = false :=
      fun alt halt => by
        obtain ⟨hm, hs⟩ := List.mem_filter.1 halt
        simp only [startsWith, Bool.and_eq_true, Bool.not_eq_true'] at hs
        exact ⟨hm, hs.1⟩
    rcases h with ⟨alt, halt, hk⟩ | ⟨⟨alt, halt, hk⟩, hqp⟩
    · exact .inl (hg.first r alt (hmem alt halt).1 (hmem alt halt).2 _ hk)
    · exact .inr ⟨hg.nullable r alt (hmem alt halt).1 (hmem alt halt).2 hk, hqp⟩
  -- where a rule looks for comments and is called from where they are not seen, none is there
  have hcall : ∀ {c r p q a}, (z.annotationLanes heof ha).calls c r a →
      (Attempt.operand r).Opens z.grammar (z.stream.lookahead p (c || (z.grammar.definition r).comments)) ∨
        (Attempt.operand r).Empty z.grammar ∧ q = p →
      (Attempt.call r).Opens z.grammar (z.stream.lookahead p c) ∨ (Attempt.call r).Empty z.grammar ∧ q = p :=
    fun {c r p q a} hc h => by
      rcases haware : (z.grammar.definition r).comments with _ | _
      · rw [haware, Bool.or_false] at h
        exact h
      · obtain ⟨hnull, hnb⟩ := hg.aware r haware
        obtain ⟨rfl, hi⟩ := hc
        have hout : c = false := by
          cases c with
          | false => rfl
          | true => rw [show (z.grammar.definition r).comments = false from ha.inner r (hi rfl)] at haware; cases haware
        subst hout
        rw [haware] at h
        have hopen : (z.grammar.first r).contains (z.stream.lookahead p true) = true :=
          h.resolve_right fun hn => by
            rw [show z.grammar.nullable r = true from hn.1] at hnull
            cases hnull
        have hk : z.stream.lookahead p true ≠ .blockComment := fun hk => by
          rw [hk, hnb] at hopen
          cases hopen
        rw [Stream.lookahead_eq_kind hk] at hopen
        exact .inl hopen
  induction h generalizing a b q with
  | limit | miss | spent | short | none | exhausted | stopped => cases hv
  | hit _ he h =>
    cases hv
    exact .inl (starts_single heof ha he hn h)
  | rule _ _ ih => exact ih ⟨rfl, (Element.Leads.rule hn).2⟩ hv
  | ruleAt => exact absurd hn Element.Leads.not_ruleAt
  | present _ _ _ ih => exact (ih (Element.Leads.optional hn).2 hv).imp_right fun h => ⟨rfl, h.2⟩
  | absent =>
    cases hv
    exact .inr ⟨rfl, rfl⟩
  | repeated _ _ ih =>
    refine (ih ⟨rfl, (Element.Leads.repeated hn).2⟩ hv).imp_right (And.imp_left fun h => ?_)
    simpa [Attempt.Empty, Grammar.isNullable, Element.isNullable] using h
  | seq _ _ ih => exact ih (Element.Leads.seq hn) hv
  | labeled _ _ ih => exact ih (Element.Leads.labeled hn) hv
  | nil =>
    cases hv
    exact .inr ⟨rfl, rfl⟩
  | cons _ _ ih1 ih2 =>
    obtain ⟨m, hn1, hn2⟩ := hn
    simp only [Attempt.Opens, Attempt.Empty, Grammar.firstOfRow_cons, Grammar.rowNullable_cons,
      Bool.or_eq_true, Bool.and_eq_true]
    rcases ih1 hn1 rfl with h1 | ⟨h1, rfl⟩
    · exact .inl (.inl h1)
    · exact (ih2 hn2 hv).imp (fun h2 => .inr ⟨h1, h2⟩) fun h2 => ⟨⟨h1, h2.1⟩, h2.2⟩
  | again _ hq _ ih1 _ => exact .inl ((ih1 hn.2 rfl).resolve_right fun h => hq h.2)
  | still _ ih =>
    cases hv
    exact (ih hn.2 rfl).imp_right fun h => ⟨.inr h.1, rfl⟩
  | done =>
    cases hv
    exact .inr ⟨.inl rfl, rfl⟩
  | next _ _ _ ih =>
    refine (ih ⟨rfl, fun alt h => hn.2 alt (List.mem_cons_of_mem _ h)⟩ hv).imp ?_ (And.imp_left ?_) <;>
      exact fun h => h.imp fun alt halt => ⟨List.mem_cons_of_mem _ halt.1, halt.2⟩
  | found _ _ ih =>
    refine (ih (hn.2 _ List.mem_cons_self) hv).imp ?_ (And.imp_left ?_) <;>
      exact fun hk => ⟨_, List.mem_cons_self, hk⟩
  | operand _ ih =>
    obtain ⟨-, d, rfl, hd⟩ := hn
    exact hoperand (ih (Lanes.admits_candidates hd _ _) hv)
  | bare =>
    cases hv
    exact .inr ⟨trivial, rfl⟩
  | operator _ ht _ _ _ _ => exact .inl (Table.contains_operators ht)
  | plain _ _ ih => exact hcall hn.2 (ih ⟨rfl, _, rfl, hn.2⟩ hv)
  | climbed ht _ _ ih1 _ =>
    refine hcall hn.2 (.inl ((ih1 ⟨rfl, _, rfl, hn.2⟩ rfl).resolve_right fun h => ?_))
    exact absurd h.1 (by simp [Attempt.Empty, hg.table _ _ ht])
  | broken _ hne | stranded _ _ _ hne | unbuilt _ _ hne => exact absurd hv (hne q)
  | halted _ hne => rcases hne with rfl | rfl <;> cases hv

/-! ### No bad tokens -/

theorem clean_single {e : Element} (he : e.isSingle = true) (hn : e.Leads keys inner c a b)
    (h : z.behind? c e p = some q) : z.stream.Clean p q := by
  have htoken : ∀ {k q}, k ≠ .error → k ≠ .blockComment → z.behindToken? c k p = some q → z.stream.Clean p q :=
    fun {k q} h1 h2 h => by
      rcases of_behindToken? h with ⟨-, -, rfl⟩ | ⟨hne, rfl, rfl⟩
      · exact .refl _
      · exact .skip (Stream.not_atEnd_of_lookahead heof hne h2) (Stream.lookahead_eq_kind h2 ▸ h1)
  cases e with
  | token k =>
    obtain ⟨hnb, herror, -⟩ := Element.Leads.token ha hn
    exact htoken herror hnb h
  | relation k r =>
    obtain ⟨hnb, herror, -⟩ := Element.Leads.relation hn
    exact htoken herror hnb h
  | oneOf ks =>
    obtain ⟨hne, hnb, hk, rfl⟩ := of_behind?_oneOf h
    cases hn with
    | plain hn =>
      simp only [Element.all, Element.isQuiet, Bool.and_eq_true, Bool.not_eq_true'] at hn
      refine .skip (Stream.not_atEnd_of_lookahead heof hne hnb) fun herror => ?_
      rw [Stream.lookahead_eq_kind hnb, herror, hn.1] at hk
      cases hk
    | key hn | remark hn => cases hn
  | comment =>
    obtain ⟨i, hi, rfl⟩ := Option.map_eq_some_iff.1 h
    exact .gap (z.stream.comment?_some hi).2.1
  | rule | ruleAt | optional | repeated | seq | labeled => cases he

/-- A match takes no bad token. -/
theorem Finds.clean (h : z.Finds c n p v) (hn : (z.annotationLanes heof ha).Admits c n a b)
    (hv : v = .matched q) : z.stream.Clean p q := by
  induction h generalizing a b q with
  | limit | miss | spent | short | none | exhausted | stopped => cases hv
  | hit _ he h =>
    cases hv
    exact clean_single heof ha he hn h
  | rule _ _ ih => exact ih ⟨rfl, (Element.Leads.rule hn).2⟩ hv
  | ruleAt => exact absurd hn Element.Leads.not_ruleAt
  | present _ _ _ ih => exact ih (Element.Leads.optional hn).2 hv
  | repeated _ _ ih => exact ih ⟨rfl, (Element.Leads.repeated hn).2⟩ hv
  | seq _ _ ih => exact ih (Element.Leads.seq hn) hv
  | labeled _ _ ih => exact ih (Element.Leads.labeled hn) hv
  | absent | nil | still | done | bare =>
    cases hv
    exact .refl _
  | cons _ _ ih1 ih2 =>
    obtain ⟨m, hn1, hn2⟩ := hn
    exact (ih1 hn1 rfl).trans (ih2 hn2 hv)
  | again _ _ _ ih1 ih2 => exact (ih1 hn.2 rfl).trans (ih2 ⟨rfl, hn.2⟩ hv)
  | next _ _ _ ih => exact ih ⟨rfl, fun alt h => hn.2 alt (List.mem_cons_of_mem _ h)⟩ hv
  | found _ _ ih => exact ih (hn.2 _ List.mem_cons_self) hv
  | operand _ ih =>
    obtain ⟨-, d, rfl, hd⟩ := hn
    exact ih (Lanes.admits_candidates hd _ _) hv
  | operator _ ht _ _ ih1 ih2 =>
    obtain ⟨-, htable, d, rfl, hd⟩ := hn
    obtain ⟨-, hne, hnb, herror⟩ := ha.operators _ _ _ _ _ htable ht
    have hskip := Stream.Clean.skip (Stream.not_atEnd_of_lookahead heof hne hnb)
      (Stream.lookahead_eq_kind hnb ▸ herror)
    have hnode := ((z.annotationLanes heof ha).operators hd htable ht).2
    exact hskip.trans ((ih1 (Lanes.admits_operandOf hd hnode) rfl).trans (ih2 ⟨rfl, htable, d, rfl, hd⟩ hv))
  | plain _ _ ih => exact ih ⟨rfl, _, rfl, hn.2⟩ hv
  | climbed ht _ _ ih1 ih2 => exact (ih1 ⟨rfl, _, rfl, hn.2⟩ rfl).trans (ih2 ⟨rfl, ht, _, rfl, hn.2⟩ hv)
  | broken _ hne | stranded _ _ _ hne | unbuilt _ _ hne => exact absurd hv (hne q)
  | halted _ hne => rcases hne with rfl | rfl <;> cases hv

end

end Recognizer

end KermlText
