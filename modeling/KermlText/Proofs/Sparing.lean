import KermlText.Proofs.Derivation
import KermlText.Proofs.Paths
import KermlText.Proofs.Sites

/-! Tokens that recovery spares: those that a list around can go on with. Where a token is missing or a rule is
given up, none of them is skipped. A list that skips by itself does so in front of none of them, though behind
the first token it minds only its own items. And a list of members whose item took nothing skips the one token
it is stuck at, whichever it is. -/

namespace KermlText

/-- The rules of which lists of members are made. -/
def Rule.isMember (r : Rule) : Bool := r == .namespaceMember || r == .functionBodyMember

def Element.isMember : Element → Bool
  | .rule r => r.isMember
  | _ => false

/-- Whether the element skips nothing but in front of what is wanted, unless it is a list of members. -/
def Element.isSparing : Element → Bool
  | .token k | .relation k _ => k != .eof
  | .oneOf ks => !ks.contains .eof
  | .rule r | .ruleAt r _ => r != .rootNamespace
  | .repeated e _ resync => !resync || e.isMember
  | _ => true

theorem sparing_kerml {r : Rule} (hr : r ≠ .rootNamespace) {a : Alternative} (ha : a ∈ kerml.alternatives r) :
    ∀ e ∈ a.elements, e.all Element.isSparing = true := by
  have h : (Rule.all.all fun r => r == .rootNamespace ||
      (kerml.alternatives r).all fun a => rowAll Element.isSparing a.elements) = true := by
    decide +kernel
  have hr' := List.all_eq_true.1 h r (Rule.mem_all r)
  simp only [Bool.or_eq_true, beq_iff_eq, hr, false_or, List.all_eq_true] at hr'
  exact rowAll_iff.1 (hr' a ha)

/-- A text is its members and the end. -/
theorem sparing_rootNamespace {a : Alternative} (ha : a ∈ kerml.alternatives .rootNamespace) :
    ∀ e ∈ a.elements, e.all Element.isSparing = true ∨ e = .token .eof := by
  intro e he
  have h : ((kerml.alternatives .rootNamespace).all fun a => a.elements.all fun e =>
      e.all Element.isSparing || match e with | .token k => k == .eof | _ => false) = true := by
    decide +kernel
  have he' := List.all_eq_true.1 (List.all_eq_true.1 h a ha) e he
  rw [Bool.or_eq_true] at he'
  refine he'.imp_right fun h => ?_
  split at h
  · rw [beq_iff_eq.1 h]
  · cases h

/-- Operators do not bring in a whole text. -/
theorem node_ne_rootNamespace {r q : Rule} {table : Table} (ht : kerml.table? r = some table) {k : Kind}
    {tier : Tier} (hl : table.lookup k = some (tier, q)) : q ≠ .rootNamespace := by
  obtain ⟨htier, ho⟩ := Table.mem_tiers_of_lookup hl
  have hnode : ∀ t ∈ [Rules.operatorTable, Rules.suffixTable], ∀ tier ∈ t.tiers, ∀ o ∈ tier.operators,
      o.2 ≠ .rootNamespace := by
    decide +kernel
  rcases table_kerml ht with ⟨-, rfl⟩ | ⟨-, rfl⟩
  · exact hnode _ (by simp) tier htier _ ho
  · exact hnode _ (by simp) tier htier _ ho

namespace Stream

variable {s : Stream} {sync : KindSet} {n pos i : Nat}

/-- What is wanted is not skipped. -/
theorem not_contains_of_mem_placesUpTo (h : i ∈ s.placesUpTo sync n pos) :
    sync.contains (s.token i).kind = false := by
  induction n generalizing pos with
  | zero => cases h
  | succ n ih =>
    unfold placesUpTo at h
    split at h
    · cases h
    · split at h
      · cases h
      · rename_i hk
        rcases List.mem_cons.1 h with rfl | h
        · exact Bool.eq_false_iff.2 hk
        · exact ih h

end Stream

namespace Event

end Event

/-- No end of input is asked for inside a list, and no whole text. -/
def Task.Sparing (u : Setup) : Task → Prop
  | .element e scope => e.all Element.isSparing = true ∨ e = .token .eof ∧ scope.context = ∅
  | .row es scope => ∀ e ∈ es, e.all Element.isSparing = true ∨ e = .token .eof ∧ scope.context = ∅
  | .items e resync _ _ => (Element.repeated e 0 resync).all Element.isSparing = true
  | .body scope => scope.rule = .rootNamespace → scope.context = ∅
  | .call r _ scope => r = .rootNamespace → scope.context = ∅
  | .operators table _ scope _ => u.grammar.table? scope.rule = some table

namespace Setup

open Session

variable {u : Setup}

theorem table_ne_rootNamespace (hg : u.grammar = kerml) {r : Rule} {table : Table}
    (ht : u.grammar.table? r = some table) : r ≠ .rootNamespace := by
  rw [hg] at ht
  rcases table_kerml ht with ⟨rfl, -⟩ | ⟨rfl, -⟩ <;> decide

theorem passes_sparing (hg : u.grammar = kerml) : u.Passes fun task _ => task.Sparing u where
  rule {r scope x} h hr := by
    rcases h with h | ⟨h, -⟩
    · simp [Element.all, Element.isSparing, hr] at h
    · cases h
  ruleAt {r level scope x} h hr := by
    rcases h with h | ⟨h, -⟩
    · simp [Element.all, Element.isSparing, hr] at h
    · cases h
  present _ h := by
    rcases h with h | ⟨h, -⟩
    · exact .inl (Bool.and_eq_true_iff.1 h).2
    · cases h
  repeated h := by
    rcases h with h | ⟨h, -⟩
    · exact h
    · cases h
  seq h := by
    rcases h with h | ⟨h, -⟩
    · exact fun e he => .inl (rowAll_iff.1 (Bool.and_eq_true_iff.1 h).2 e he)
    · cases h
  labeled h := by
    rcases h with h | ⟨h, -⟩
    · exact .inl (Bool.and_eq_true_iff.1 h).2
    · cases h
  head h := h _ List.mem_cons_self
  tail h e he := h e (List.mem_cons_of_mem _ he)
  item _ h := .inl (Bool.and_eq_true_iff.1 h).2
  round h := h
  chosen {scope i x y} hi h e he := by
    obtain ⟨a, ha, -⟩ := Grammar.mem_choices.1 hi
    rw [Resolver.elements_of_getElem? ha] at he
    rw [hg] at ha
    have hmem := List.mem_of_getElem? ha
    by_cases hr : scope.rule = .rootNamespace
    · rw [hr] at hmem
      exact (sparing_rootNamespace hmem e he).imp_right fun he => ⟨he, h hr⟩
    · exact .inl (sparing_kerml hr hmem e he)
  opened _ h := h
  operand ht _ hr := absurd hr (table_ne_rootNamespace hg ht)
  operators ht _ := ht
  right _ _ h hr := absurd hr (table_ne_rootNamespace hg h)
  rest hl _ h hr := by
    rw [Task.Sparing, hg] at h
    exact absurd hr (node_ne_rootNamespace h hl)
  next h := h

/-! ### Items that took nothing -/

/-- Only the element for the end asks for the end. -/
theorem not_contains_eof_of_wanted {e : Element} (h : e.all Element.isSparing = true) {set : KindSet}
    (he : e.wanted? = some set) : set.contains .eof = false := by
  cases e with
  | token k | relation k _ =>
    cases he
    simpa [Element.all, Element.isSparing] using h
  | oneOf ks =>
    cases he
    simpa [Element.all, Element.isSparing] using h
  | _ => cases he

/-- All that was skipped between the sessions is on record with the lists around, and is of use to none of
them. -/
def Spares (u : Setup) (context : KindSet) (x y : Session) : Prop :=
  ∃ es, y.journal = es ++ x.journal ∧ ∀ place c, .skipped place c ∈ es →
    c = context ∧ context.contains (u.stream.token place).kind = false

namespace Spares

variable {context : KindSet} {x y z : Session}

theorem refl : u.Spares context x x := ⟨[], rfl, nofun⟩

theorem trans (h1 : u.Spares context x y) (h2 : u.Spares context y z) : u.Spares context x z := by
  obtain ⟨es, hes, h1⟩ := h1
  obtain ⟨fs, hfs, h2⟩ := h2
  refine ⟨fs ++ es, by rw [hfs, hes, List.append_assoc], fun place c h => ?_⟩
  exact (List.mem_append.1 h).elim (h2 place c) (h1 place c)

theorem cons {e : Event} (he : ∀ place c, e ≠ .skipped place c) (hy : y.journal = e :: x.journal) :
    u.Spares context x y :=
  ⟨[e], hy, fun place c h => absurd (List.mem_singleton.1 h).symm (he place c)⟩

theorem matchedAt (place : Nat) : u.Spares context x (x.matchedAt place) :=
  cons (e := .matched place) nofun rfl

theorem reported (code : Code) (r : Rule) (expected : KindSet) :
    u.Spares context x (u.reported code r expected x) := by
  unfold Setup.reported
  split
  · exact cons (e := .suppressed) nofun rfl
  · split
    · exact refl
    · exact cons (e := .reported) nofun rfl

theorem skippedOver {sync : KindSet} (hsync : ∀ k, context.contains k = true → sync.contains k = true)
    (n pos : Nat) : u.Spares context x (x.skippedOver context (u.stream.placesUpTo sync n pos)) := by
  refine ⟨_, journal_skippedOver x context _, fun place c h => ?_⟩
  obtain ⟨i, hi, he⟩ := Event.exists_of_mem_skipped h
  cases he
  refine ⟨rfl, Bool.eq_false_iff.2 fun hk => ?_⟩
  have hno := Stream.not_contains_of_mem_placesUpTo hi
  rw [hsync _ hk] at hno
  cases hno

theorem expect (hu : u.Regular) {scope : Scope} {set : KindSet} (hset : set ≠ endKinds) (b : Builder)
    (x : Session) : ∃ b' x', u.expect scope set b x = .ok b' x' ∧ u.Spares scope.context x x' := by
  have hmissed : u.Spares scope.context x (u.missed scope set x) :=
    (reported _ _ _).trans (skippedOver (fun k hk => by simp [hk]) _ _)
  rw [expect_eq hu, if_neg hset]
  split
  · exact ⟨_, _, rfl, matchedAt _⟩
  · dsimp only
    split
    · exact ⟨_, _, rfl, hmissed.trans (matchedAt _)⟩
    · exact ⟨_, _, rfl, hmissed⟩

theorem recover (scope : Scope) (r : Rule) (b : Builder) (x : Session) :
    ∃ b' x', u.recover scope r b x = .ok b' x' ∧ u.Spares scope.context x x' :=
  ⟨_, _, recover_eq scope r b x, skippedOver (fun k hk => by simp [hk]) _ _⟩

end Spares

end Setup

end KermlText
