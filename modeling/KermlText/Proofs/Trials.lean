import KermlText.Language
import KermlText.Proofs.Stretch
import KermlText.Recognizer

/-! A trial always ends. A list goes round only as long as its item matches, so it is enough that an
item which matches takes a token: then the stream settles further on in each round. What the memo holds
was found by trials too, so it is kept as an invariant that a known match leads as far as a trial. -/

namespace KermlText

/-! ### The memo -/

namespace Memo

theorem key_inj {r q : Rule} {i j : Nat} {b c : Bool} (h : key r i b = key q j c) :
    r = q ∧ i = j ∧ b = c := by
  have hr := Rule.index_lt r
  have hq := Rule.index_lt q
  unfold key Rule.count at *
  have hb := b.toNat_lt
  have hc := c.toNat_lt
  refine ⟨Rule.index_inj (by omega), by omega, ?_⟩
  have : b.toNat = c.toNat := by omega
  revert this
  cases b <;> cases c <;> simp

@[simp] theorem find?_empty (r : Rule) (i : Nat) (c : Bool) : empty.find? r i c = none := by
  simp [find?, empty]

theorem find?_insert (m : Memo) (r q : Rule) (i j : Nat) (b c : Bool) (e : Outcome × Nat) :
    (m.insert r i b e).find? q j c =
      if r = q ∧ i = j ∧ b = c then some e else m.find? q j c := by
  simp only [find?, insert, Std.TreeMap.getElem?_insert, Std.compare_eq_iff_eq]
  by_cases h : key r i b = key q j c
  · rw [if_pos h, if_pos (key_inj h)]
  · rw [if_neg h, if_neg]
    rintro ⟨rfl, rfl, rfl⟩
    exact h rfl

/-- All that is known satisfies `p`. -/
def Holds (p : Rule → Nat → Bool → Outcome → Nat → Prop) (m : Memo) : Prop :=
  ∀ r i c o j, m.find? r i c = some (o, j) → p r i c o j

theorem holds_empty (p : Rule → Nat → Bool → Outcome → Nat → Prop) : empty.Holds p := by
  intro r i c o j h
  simp at h

theorem Holds.insert {p : Rule → Nat → Bool → Outcome → Nat → Prop} {m : Memo} (hm : m.Holds p)
    {r : Rule} {i : Nat} {c : Bool} {o : Outcome} {j : Nat} (h : p r i c o j) :
    (m.insert r i c (o, j)).Holds p := by
  intro q k d o' j' hf
  rw [find?_insert] at hf
  split at hf
  · rename_i he
    obtain ⟨rfl, rfl, rfl⟩ := he
    cases hf
    exact h
  · exact hm q k d o' j' hf

end Memo

/-! ### Elements that take a token -/

section

variable (solid : Rule → Bool)

mutual

/-- Whether a match of the element surely takes a default-channel token, if `solid` rules do. -/
def Element.takes : Element → Bool
  | .token k | .relation k _ => k != .eof && k != .blockComment
  | .oneOf _ => true
  | .comment | .optional _ => false
  | .rule r | .ruleAt r _ => solid r
  | .repeated e min _ => min != 0 && e.takes
  | .seq es => anyTakes es
  | .labeled _ _ e => e.takes

def anyTakes : List Element → Bool
  | [] => false
  | e :: es => e.takes || anyTakes es

end

mutual

/-- Whether the items of all lists in the element take a token. -/
def Element.founded : Element → Bool
  | .token _ | .relation _ _ | .oneOf _ | .comment | .rule _ | .ruleAt _ _ => true
  | .optional e | .labeled _ _ e => e.founded
  | .repeated e _ _ => e.takes solid && e.founded
  | .seq es => allFounded es

def allFounded : List Element → Bool
  | [] => true
  | e :: es => e.founded && allFounded es

end

end

namespace Grammar

/-- A rule that is never empty and never at the end of input is expected to take a token. -/
def solid (g : Grammar) (r : Rule) : Bool := !g.nullable r && !(g.first r).contains .eof

/-- Whether trials of the grammar make progress: the items of lists and the solid rules take a token,
and so does each operator. -/
def isFounded (g : Grammar) : Bool :=
  Rule.all.all fun r =>
    (g.alternatives r).all (fun a => allFounded g.solid a.elements &&
      (!g.solid r || a.leftRecursive || anyTakes g.solid a.elements)) &&
    (g.table? r).all fun t => (t.lookup .eof).isNone && (t.lookup .blockComment).isNone

structure Founded (g : Grammar) : Prop where
  rows : ∀ r, ∀ a ∈ g.alternatives r, allFounded g.solid a.elements = true
  takes : ∀ r, g.solid r = true → ∀ a ∈ g.alternatives r, a.leftRecursive = false →
    anyTakes g.solid a.elements = true
  eof : ∀ r t, g.table? r = some t → t.lookup .eof = none
  blockComment : ∀ r t, g.table? r = some t → t.lookup .blockComment = none

theorem founded_of_isFounded {g : Grammar} (h : g.isFounded = true) : g.Founded := by
  simp only [isFounded, List.all_eq_true, Bool.and_eq_true, Option.all_eq_true_iff_get,
    Option.isNone_iff_eq_none] at h
  refine ⟨fun r a ha => ((h r (Rule.mem_all r)).1 a ha).1, fun r hr a ha hl => ?_,
    fun r t ht => ?_, fun r t ht => ?_⟩
  · simpa [hr, hl] using ((h r (Rule.mem_all r)).1 a ha).2
  · simpa [ht] using ((h r (Rule.mem_all r)).2 (by simp [ht])).1
  · simpa [ht] using ((h r (Rule.mem_all r)).2 (by simp [ht])).2

end Grammar

theorem founded_kerml : kerml.Founded :=
  Grammar.founded_of_isFounded (by decide +kernel)

/-! ### Trials end -/

namespace Recognizer

variable (z : Recognizer)

/-- A known match leads to a place inside the stream, and a rule that takes tokens leads further. -/
def Known (r : Rule) (i : Nat) (_ : Bool) (o : Outcome) (j : Nat) : Prop :=
  o ≠ .endless ∧ (o = .matched → j ≤ z.stream.size ∧ i ≤ z.stream.settle j ∧
    (z.grammar.solid r = true → i < z.stream.settle j))

/-- How a step from `t` may end. A `strict` step that matches takes a token. -/
structure Lands (strict : Bool) (t : Trial) (e : Outcome × Trial) : Prop where
  inside : e.2.pos ≤ z.stream.size
  known : e.2.memo.Holds z.Known
  ends : e.1 ≠ .endless
  le : e.1 = .matched → z.stream.settle t.pos ≤ z.stream.settle e.2.pos
  lt : e.1 = .matched → strict = true → z.stream.settle t.pos < z.stream.settle e.2.pos

/-- A step that ends wherever it is taken. -/
def Sure (strict : Bool) (step : Step) : Prop :=
  ∀ t, t.pos ≤ z.stream.size → t.memo.Holds z.Known → z.Lands strict t (step t)

variable {z}

theorem Sure.weaken {strict : Bool} {step : Step} (h : z.Sure strict step) : z.Sure false step := by
  intro t ht hm
  obtain ⟨h1, h2, h3, h4, -⟩ := h t ht hm
  exact ⟨h1, h2, h3, h4, by simp⟩

theorem sure_fail (strict : Bool) : z.Sure strict z.fail := by
  intro t ht hm
  exact ⟨ht, hm, by simp [fail], by simp [fail], by simp [fail]⟩

theorem lands_take {strict : Bool} {t : Trial} (ht : t.pos ≤ z.stream.size)
    (hm : t.memo.Holds z.Known) (h : strict = true → z.stream.atEnd t.pos = false) :
    z.Lands strict t (z.take t) := by
  rcases hb : z.stream.atEnd t.pos with _ | _
  · have hlt := z.stream.settle_lt_of_not_atEnd hb
    have hs : z.stream.skip t.pos = z.stream.settle t.pos + 1 := by
      simp [Stream.skip, Stream.next?_of_not_atEnd _ hb]
    have hn := z.stream.lt_settle_succ hb
    refine ⟨?_, hm, by simp [take], fun _ => ?_, fun _ _ => ?_⟩
    · simp only [take, hs]; omega
    · simp only [take, hs]; omega
    · simp only [take, hs]; exact hn
  · have hs : z.stream.skip t.pos = t.pos := by simp [Stream.skip, Stream.next?_of_atEnd _ hb]
    refine ⟨by simpa [take, hs] using ht, hm, by simp [take], by simp [take, hs], fun _ hst => ?_⟩
    simp [hb] at h
    simp [h] at hst

theorem sure_token (hs : z.stream.eof.kind = .eof) (c : Bool) (k : Kind) :
    z.Sure (k != .eof && k != .blockComment) (z.token c k) := by
  intro t ht hm
  unfold token
  split
  · rename_i hk
    split
    · exact ⟨ht, hm, by simp, by simp, by simp [hk]⟩
    · exact sure_fail _ t ht hm
  · split
    · rename_i hl
      refine lands_take ht hm fun hk => Stream.not_atEnd_of_lookahead hs (c := c) ?_ ?_
      · rw [hl]; simp at hk; exact hk.1
      · rw [hl]; simp at hk; exact hk.2
    · exact sure_fail _ t ht hm

theorem sure_oneOf (hs : z.stream.eof.kind = .eof) (c : Bool) (ks : KindSet) :
    z.Sure true (z.oneOf c ks) := by
  intro t ht hm
  unfold oneOf
  dsimp only
  split
  · rename_i hk
    simp only [Bool.and_eq_true, bne_iff_ne, ne_eq] at hk
    exact lands_take ht hm fun _ => Stream.not_atEnd_of_lookahead hs (c := c) hk.1.1 hk.1.2
  · exact sure_fail _ t ht hm

theorem sure_comment : z.Sure false z.comment := by
  intro t ht hm
  unfold comment
  split
  · rename_i i hi
    obtain ⟨h1, h2, -⟩ := z.stream.comment?_some hi
    have hle := z.stream.settle_le_size t.pos
    refine ⟨by simp only; omega, hm, by simp, fun _ => ?_, by simp⟩
    exact z.stream.settle_mono (by simp only; omega) (by simp only; omega)
  · exact sure_fail _ t ht hm

theorem sure_guarded {strict : Bool} {step : Step} (h : z.Sure strict step) :
    z.Sure strict (z.guarded step) := by
  intro t ht hm
  unfold guarded
  split
  · exact ⟨ht, hm, by simp, by simp, by simp⟩
  · exact h t ht hm

theorem sure_andThen {a b : Bool} {first second : Step} (h1 : z.Sure a first)
    (h2 : z.Sure b second) : z.Sure (a || b) (andThen first second) := by
  intro t ht hm
  have hf := h1 t ht hm
  unfold andThen
  rcases he : first t with ⟨o, t'⟩
  rw [he] at hf
  cases o with
  | matched =>
    have hg := h2 t' hf.inside hf.known
    have hle := hf.le rfl
    refine ⟨hg.inside, hg.known, hg.ends, fun ho => Nat.le_trans hle (hg.le ho), fun ho hs => ?_⟩
    rcases Bool.or_eq_true _ _ ▸ hs with hs | hs
    · exact Nat.lt_of_lt_of_le (hf.lt rfl hs) (hg.le ho)
    · exact Nat.lt_of_le_of_lt hle (hg.lt ho hs)
  | horizon => exact ⟨hf.inside, hf.known, by simp, by simp, by simp⟩
  | failed i => exact ⟨hf.inside, hf.known, by simp, by simp, by simp⟩
  | endless => exact absurd rfl hf.ends

theorem sure_optional {strict : Bool} {step : Step} (h : z.Sure strict step) :
    z.Sure false (optional step) := by
  intro t ht hm
  have hf := h t ht hm
  unfold optional
  rcases he : step t with ⟨o, t'⟩
  rw [he] at hf
  cases o with
  | matched => exact ⟨hf.inside, hf.known, by simp, fun _ => hf.le rfl, by simp⟩
  | horizon => exact ⟨hf.inside, hf.known, by simp, by simp, by simp⟩
  | failed i => exact ⟨ht, hf.known, by simp, fun _ => Nat.le_refl _, by simp⟩
  | endless => exact absurd rfl hf.ends

/-- Each round settles further on, so there are no more rounds than tokens. -/
theorem sure_repeated {step : Step} (h : z.Sure true step) (n need : Nat) (t : Trial)
    (ht : t.pos ≤ z.stream.size) (hm : t.memo.Holds z.Known)
    (hn : z.stream.size < z.stream.settle t.pos + n) :
    z.Lands (need != 0) t (repeated step n need t) := by
  induction n generalizing need t with
  | zero => have := z.stream.settle_le_size t.pos; omega
  | succ n ih =>
    have hf := h t ht hm
    unfold repeated
    rcases he : step t with ⟨o, t'⟩
    rw [he] at hf
    cases o with
    | matched =>
      have hlt := hf.lt rfl rfl
      simp only at hlt ⊢
      split
      · exact ⟨hf.inside, hf.known, by simp, hf.le, fun _ _ => hlt⟩
      · have hg := ih (need - 1) t' hf.inside hf.known (by omega)
        refine ⟨hg.inside, hg.known, hg.ends, fun ho => ?_, fun ho _ => ?_⟩
        · exact Nat.le_trans (Nat.le_of_lt hlt) (hg.le ho)
        · exact Nat.lt_of_lt_of_le hlt (hg.le ho)
    | horizon => exact ⟨hf.inside, hf.known, by simp, by simp, by simp⟩
    | failed i =>
      simp only
      split
      · exact ⟨hf.inside, hf.known, by simp, by simp, by simp⟩
      · rename_i hneed
        have : need = 0 := by omega
        exact ⟨ht, hf.known, by simp, fun _ => Nat.le_refl _, by simp [this]⟩
    | endless => exact absurd rfl hf.ends

theorem size_lt_rounds (z : Recognizer) : z.stream.size + 1 < z.rounds := by
  unfold rounds Rule.count
  have h := Nat.mul_le_mul_right (z.stream.size + 2)
    (show 1 ≤ 115 * 2 * (z.stream.size + 1) + 1 by omega)
  omega

section

variable {call : Bool → Rule → Step}

mutual

theorem sure_element (hs : z.stream.eof.kind = .eof)
    (hcall : ∀ c r, z.Sure (z.grammar.solid r) (call c r)) (c : Bool) :
    ∀ e : Element, e.founded z.grammar.solid = true →
      z.Sure (e.takes z.grammar.solid) (z.element call c e)
  | .token k, _ => by
    unfold element; exact sure_guarded (by simpa [Element.takes] using sure_token hs c k)
  | .relation k _, _ => by
    unfold element; exact sure_guarded (by simpa [Element.takes] using sure_token hs c k)
  | .oneOf ks, _ => by
    unfold element; exact sure_guarded (by simpa [Element.takes] using sure_oneOf hs c ks)
  | .comment, _ => by
    unfold element; exact sure_guarded (by simpa [Element.takes] using sure_comment)
  | .rule r, _ => by
    unfold element; exact sure_guarded (by simpa [Element.takes] using hcall c r)
  | .ruleAt r _, _ => by
    unfold element; exact sure_guarded (by simpa [Element.takes] using hcall c r)
  | .optional e, he => by
    simp only [Element.founded] at he
    unfold element
    exact sure_guarded (by simpa [Element.takes] using sure_optional (sure_element hs hcall c e he))
  | .repeated e min _, he => by
    simp only [Element.founded, Bool.and_eq_true] at he
    have ih := sure_element hs hcall c e he.2
    rw [he.1] at ih
    unfold element
    refine sure_guarded fun t ht hm => ?_
    have hr := size_lt_rounds z
    simpa [Element.takes, he.1] using sure_repeated ih z.rounds min t ht hm (by omega)
  | .seq es, he => by
    simp only [Element.founded] at he
    unfold element
    exact sure_guarded (by simpa [Element.takes] using sure_row hs hcall c es he)
  | .labeled _ _ e, he => by
    simp only [Element.founded] at he
    unfold element
    exact sure_guarded (by simpa [Element.takes] using sure_element hs hcall c e he)

theorem sure_row (hs : z.stream.eof.kind = .eof)
    (hcall : ∀ c r, z.Sure (z.grammar.solid r) (call c r)) (c : Bool) :
    ∀ es : List Element, allFounded z.grammar.solid es = true →
      z.Sure (anyTakes z.grammar.solid es) (z.row call c es)
  | [], _ => by
    intro t ht hm
    unfold row
    exact ⟨ht, hm, by simp, fun _ => Nat.le_refl _, by simp [anyTakes]⟩
  | e :: es, he => by
    simp only [allFounded, Bool.and_eq_true] at he
    unfold row
    simpa [anyTakes] using sure_andThen (sure_element hs hcall c e he.1) (sure_row hs hcall c es he.2)

end

variable (hs : z.stream.eof.kind = .eof) (hcall : ∀ c r, z.Sure (z.grammar.solid r) (call c r))
  (c : Bool)

include hs hcall

theorem sure_firstMatch {strict : Bool} (as : List Alternative)
    (hf : ∀ a ∈ as, allFounded z.grammar.solid a.elements = true)
    (ha : ∀ a ∈ as, strict = true → anyTakes z.grammar.solid a.elements = true) (far : Nat) :
    z.Sure strict (z.firstMatch call c as far) := by
  induction as generalizing far with
  | nil =>
    intro t ht hm
    exact ⟨ht, hm, by simp [firstMatch], by simp [firstMatch], by simp [firstMatch]⟩
  | cons a as ih =>
    intro t ht hm
    have hr := sure_row hs hcall c a.elements (hf a (by simp)) t ht hm
    unfold firstMatch
    rcases he : z.row call c a.elements t with ⟨o, t'⟩
    rw [he] at hr
    cases o with
    | matched =>
      exact ⟨hr.inside, hr.known, by simp, hr.le, fun _ hst => hr.lt rfl (ha a (by simp) hst)⟩
    | horizon => exact ⟨hr.inside, hr.known, by simp, by simp, by simp⟩
    | failed i =>
      have hi := ih (fun b hb => hf b (List.mem_cons_of_mem _ hb))
        (fun b hb => ha b (List.mem_cons_of_mem _ hb)) (max far i) { t' with pos := t.pos } ht hr.known
      exact ⟨hi.inside, hi.known, hi.ends, hi.le, hi.lt⟩
    | endless => exact absurd rfl hr.ends

variable (hg : z.grammar.Founded)

include hg

theorem sure_alternatives (r : Rule) :
    z.Sure (z.grammar.solid r) (z.alternatives call c r) := by
  intro t ht hm
  refine sure_firstMatch hs hcall c _ (fun a ha => ?_) (fun a ha hr => ?_) _ t ht hm
  · exact hg.rows r a (List.mem_filter.1 ha).1
  · obtain ⟨ha, hw⟩ := List.mem_filter.1 ha
    simp only [startsWith, Bool.and_eq_true, Bool.not_eq_true'] at hw
    exact hg.takes r hr a ha hw.1

/-- Each operator takes a token, so there are no more operators than tokens. -/
theorem sure_operators {r : Rule} {table : Table} (h1 : table.lookup .eof = none)
    (h2 : table.lookup .blockComment = none) (n : Nat) (t : Trial) (ht : t.pos ≤ z.stream.size)
    (hm : t.memo.Holds z.Known) (hn : z.stream.size < z.stream.settle t.pos + n) :
    z.Lands false t (z.operators call c r table n t) := by
  induction n generalizing t with
  | zero => have := z.stream.settle_le_size t.pos; omega
  | succ n ih =>
    unfold operators guarded
    split
    · exact ⟨ht, hm, by simp, by simp, by simp⟩
    · dsimp only
      split
      · exact ⟨ht, hm, by simp, fun _ => Nat.le_refl _, by simp⟩
      · rename_i tier node hl
        have hend : z.stream.atEnd t.pos = false :=
          Stream.not_atEnd_of_lookahead hs (c := c) (fun h => by simp [h, h1] at hl)
            (fun h => by simp [h, h2] at hl)
        have htake : z.Lands true t (z.take t) := lands_take ht hm fun _ => hend
        have hrest : z.Sure false
            (if tier.form = .binary then z.alternatives call c r else call c node) := by
          split
          · exact (sure_alternatives hs hcall c hg r).weaken
          · exact (hcall c node).weaken
        -- the operator moves on, so the rounds that are left are enough for what comes behind it
        have hlt := htake.lt rfl rfl
        have ht2 := hrest _ htake.inside htake.known
        unfold andThen
        rw [show z.take t = (.matched, (z.take t).2) from rfl]
        dsimp only
        rcases he : (if tier.form = .binary then z.alternatives call c r else call c node)
            (z.take t).2 with ⟨o, t'⟩
        rw [he] at ht2
        cases o with
        | matched =>
          have hle := ht2.le rfl
          have hg' := ih t' ht2.inside ht2.known (by simp only at hle hlt ⊢; omega)
          refine ⟨hg'.inside, hg'.known, hg'.ends, fun ho => ?_, by simp⟩
          exact Nat.le_trans (Nat.le_of_lt hlt) (Nat.le_trans hle (hg'.le ho))
        | horizon => exact ⟨ht2.inside, ht2.known, by simp, by simp, by simp⟩
        | failed i => exact ⟨ht2.inside, ht2.known, by simp, by simp, by simp⟩
        | endless => exact absurd rfl ht2.ends

theorem sure_body (r : Rule) : z.Sure (z.grammar.solid r) (z.body call c r) := by
  have ha := sure_alternatives hs hcall c hg r
  unfold body
  split
  · rename_i table htable
    have hops : z.Sure false (z.operators call c r table z.rounds) := by
      intro t ht hm
      have hr := size_lt_rounds z
      exact sure_operators hs hcall c hg (hg.eof r table htable) (hg.blockComment r table htable)
        _ t ht hm (by omega)
    simpa using sure_andThen ha hops
  · exact ha

end

/-- A call is tried once at a place; what is known of it leads as far as the trial did. -/
theorem sure_call (hs : z.stream.eof.kind = .eof) (hg : z.grammar.Founded) (n : Nat) (c : Bool)
    (r : Rule) : z.Sure (z.grammar.solid r) (z.call n c r) := by
  induction n generalizing c r with
  | zero => intro t ht hm; exact ⟨ht, hm, by simp [call, fail], by simp [call, fail], by simp [call, fail]⟩
  | succ n ih =>
    intro t ht hm
    unfold call
    dsimp only
    split
    · rename_i stop hk
      obtain ⟨h1, h2⟩ := hm _ _ _ _ _ hk
      obtain ⟨hin, hle, hlt⟩ := h2 rfl
      exact ⟨hin, hm, by simp, fun _ => hle, fun _ hr => hlt hr⟩
    · rename_i o stop hne hk
      obtain ⟨h1, h2⟩ := hm _ _ _ _ _ hk
      exact ⟨ht, hm, h1, fun ho => (hne ho).elim, fun ho => (hne ho).elim⟩
    · have hb := sure_body hs ih (c || (z.grammar.definition r).comments) hg r t ht hm
      refine ⟨hb.inside, hb.known.insert ⟨hb.ends, fun ho => ⟨hb.inside, hb.le ho, hb.lt ho⟩⟩,
        hb.ends, hb.le, hb.lt⟩

end Recognizer

end KermlText
