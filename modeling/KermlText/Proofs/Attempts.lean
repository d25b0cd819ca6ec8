import KermlText.Proofs.Ahead
import KermlText.Proofs.Trials
import KermlText.Recognizer
import Mathlib.Order.Filter.AtTopBot.Basic

/-! What a recognizer finds, whatever it may know from before. Each attempt is given by the attempts that it is
made of, and by the place alone, so there is one verdict at most. A recognizer that has no memo, and nests calls
as deep as it takes, comes to that verdict. -/

namespace KermlText

/-- What comes of an attempt: a match with the place where it stops, or an end without a match. -/
inductive Verdict where
  | matched (stop : Nat)
  | horizon
  | failed (farthest : Nat)
  | endless
  deriving DecidableEq

def Outcome.verdict : Outcome → Nat → Verdict
  | .matched, stop => .matched stop
  | .horizon, _ => .horizon
  | .failed i, _ => .failed i
  | .endless, _ => .endless

section

variable {o : Outcome} {p q i : Nat}

@[simp] theorem Outcome.verdict_eq_matched : o.verdict p = .matched q ↔ o = .matched ∧ p = q := by
  cases o <;> simp [verdict]

@[simp] theorem Outcome.verdict_eq_failed : o.verdict p = .failed i ↔ o = .failed i := by
  cases o <;> simp [verdict]

@[simp] theorem Outcome.verdict_eq_horizon : o.verdict p = .horizon ↔ o = .horizon := by
  cases o <;> simp [verdict]

@[simp] theorem Outcome.verdict_eq_endless : o.verdict p = .endless ↔ o = .endless := by
  cases o <;> simp [verdict]

/-- The place belongs to the verdict of a match only. -/
theorem Outcome.verdict_of_ne_matched (h : o ≠ .matched) : o.verdict p = o.verdict q := by
  cases o with
  | matched => exact absurd rfl h
  | failed | horizon | endless => rfl

end

/-- What a recognizer does as one. -/
inductive Attempt where
  | element (e : Element)
  | row (es : List Element)
  | items (e : Element) (rounds need : Nat)
  | firstOf (as : List Alternative) (farthest : Nat)
  | operand (r : Rule)
  | operators (r : Rule) (table : Table) (rounds : Nat)
  | call (r : Rule)

/-- An element that stands for one token. -/
def Element.isSingle : Element → Bool
  | .token _ | .oneOf _ | .relation _ _ | .comment => true
  | _ => false

/-- The place is not behind the other, and not outside the stream unless it is the same. -/
structure Stream.Forth (s : Stream) (p q : Nat) : Prop where
  le : p ≤ q
  inside : q = p ∨ q ≤ s.size

namespace Stream.Forth

variable {s : Stream} {p q i : Nat}

theorem refl (s : Stream) (p : Nat) : s.Forth p p := ⟨Nat.le_refl p, .inl rfl⟩

theorem trans (h1 : s.Forth p q) (h2 : s.Forth q i) : s.Forth p i := by
  refine ⟨Nat.le_trans h1.le h2.le, ?_⟩
  rcases h2.inside with rfl | h
  · exact h1.inside
  · exact .inr h

theorem skip (s : Stream) (p : Nat) : s.Forth p (s.skip p) := by
  rcases he : s.atEnd p with _ | _
  · rw [Stream.skip, s.next?_of_not_atEnd he]
    exact ⟨Nat.le_succ_of_le (le_settle_of_not_atEnd he), .inr (s.settle_lt_of_not_atEnd he)⟩
  · rw [Stream.skip, s.next?_of_atEnd he]
    exact refl s p

end Stream.Forth

namespace Recognizer

variable (z : Recognizer)

def limitAt (p : Nat) : Bool := z.horizon ≤ z.stream.settle p && !z.stream.atEnd p

def behindToken? (c : Bool) (k : Kind) (p : Nat) : Option Nat :=
  if k = .eof then if z.stream.atEnd p then some p else none
  else if z.stream.lookahead p c = k then some (z.stream.skip p) else none

/-- The place behind a single token, if it is one that is wanted. -/
def behind? (c : Bool) : Element → Nat → Option Nat
  | .token k, p | .relation k _, p => z.behindToken? c k p
  | .oneOf ks, p =>
    let k := z.stream.lookahead p c
    if k != .eof && k != .blockComment && ks.contains k then some (z.stream.skip p) else none
  | .comment, p => (z.stream.comment? p).map (· + 1)
  | _, _ => none

/-- What stands behind an operator. -/
def operandOf (r node : Rule) (tier : Tier) : Attempt :=
  if tier.form = .binary then .operand r else .call node

/-- The alternatives that may be tried at a place. -/
def candidates (c : Bool) (r : Rule) (p : Nat) : List Alternative :=
  (z.grammar.alternatives r).filter (z.startsWith (z.stream.lookahead p c))

/-- An attempt at a place comes to a verdict. -/
inductive Finds : Bool → Attempt → Nat → Verdict → Prop
  | limit {c e p} (hl : z.limitAt p = true) : Finds c (.element e) p .horizon
  | hit {c e p q} (hl : z.limitAt p = false) (he : e.isSingle = true) (h : z.behind? c e p = some q) :
    Finds c (.element e) p (.matched q)
  | miss {c e p} (hl : z.limitAt p = false) (he : e.isSingle = true) (h : z.behind? c e p = none) :
    Finds c (.element e) p (.failed (z.stream.settle p))
  | rule {c r p v} (hl : z.limitAt p = false) (h : Finds c (.call r) p v) : Finds c (.element (.rule r)) p v
  | ruleAt {c r level p v} (hl : z.limitAt p = false) (h : Finds c (.call r) p v) :
    Finds c (.element (.ruleAt r level)) p v
  | present {c e p v} (hl : z.limitAt p = false) (h : Finds c (.element e) p v) (hv : ∀ i, v ≠ .failed i) :
    Finds c (.element (.optional e)) p v
  | absent {c e p i} (hl : z.limitAt p = false) (h : Finds c (.element e) p (.failed i)) :
    Finds c (.element (.optional e)) p (.matched p)
  | repeated {c e least resync p v} (hl : z.limitAt p = false) (h : Finds c (.items e z.rounds least) p v) :
    Finds c (.element (.repeated e least resync)) p v
  | seq {c es p v} (hl : z.limitAt p = false) (h : Finds c (.row es) p v) : Finds c (.element (.seq es)) p v
  | labeled {c name many e p v} (hl : z.limitAt p = false) (h : Finds c (.element e) p v) :
    Finds c (.element (.labeled name many e)) p v
  | nil {c p} : Finds c (.row []) p (.matched p)
  | cons {c e es p q v} (h1 : Finds c (.element e) p (.matched q)) (h2 : Finds c (.row es) q v) :
    Finds c (.row (e :: es)) p v
  | broken {c e es p v} (h : Finds c (.element e) p v) (hv : ∀ q, v ≠ .matched q) :
    Finds c (.row (e :: es)) p v
  | spent {c e need p} : Finds c (.items e 0 need) p .endless
  | again {c e n need p q v} (h1 : Finds c (.element e) p (.matched q)) (hq : q ≠ p)
    (h2 : Finds c (.items e n (need - 1)) q v) : Finds c (.items e (n + 1) need) p v
  | still {c e n need p} (h : Finds c (.element e) p (.matched p)) :
    Finds c (.items e (n + 1) need) p (.matched p)
  | done {c e n p i} (h : Finds c (.element e) p (.failed i)) : Finds c (.items e (n + 1) 0) p (.matched p)
  | short {c e n need p i} (h : Finds c (.element e) p (.failed i)) (hn : 0 < need) :
    Finds c (.items e (n + 1) need) p (.failed i)
  | halted {c e n need p v} (h : Finds c (.element e) p v) (hv : v = .horizon ∨ v = .endless) :
    Finds c (.items e (n + 1) need) p v
  | none {c far p} : Finds c (.firstOf [] far) p (.failed far)
  | next {c a as far p i v} (h1 : Finds c (.row a.elements) p (.failed i))
    (h2 : Finds c (.firstOf as (max far i)) p v) : Finds c (.firstOf (a :: as) far) p v
  | found {c a as far p v} (h : Finds c (.row a.elements) p v) (hv : ∀ i, v ≠ .failed i) :
    Finds c (.firstOf (a :: as) far) p v
  | operand {c r p v} (h : Finds c (.firstOf (z.candidates c r p) (z.stream.settle p)) p v) :
    Finds c (.operand r) p v
  | exhausted {c r table p} : Finds c (.operators r table 0) p .endless
  | stopped {c r table n p} (hl : z.limitAt p = true) : Finds c (.operators r table (n + 1)) p .horizon
  | bare {c r table n p} (hl : z.limitAt p = false) (ht : table.lookup (z.stream.lookahead p c) = .none) :
    Finds c (.operators r table (n + 1)) p (.matched p)
  | operator {c r table n p tier node q v} (hl : z.limitAt p = false)
    (ht : table.lookup (z.stream.lookahead p c) = some (tier, node))
    (h1 : Finds c (operandOf r node tier) (z.stream.skip p) (.matched q))
    (h2 : Finds c (.operators r table n) q v) : Finds c (.operators r table (n + 1)) p v
  | stranded {c r table n p tier node v} (hl : z.limitAt p = false)
    (ht : table.lookup (z.stream.lookahead p c) = some (tier, node))
    (h : Finds c (operandOf r node tier) (z.stream.skip p) v) (hv : ∀ q, v ≠ .matched q) :
    Finds c (.operators r table (n + 1)) p v
  | plain {c r p v} (ht : z.grammar.table? r = .none)
    (h : Finds (c || (z.grammar.definition r).comments) (.operand r) p v) : Finds c (.call r) p v
  | climbed {c r table p q v} (ht : z.grammar.table? r = some table)
    (h1 : Finds (c || (z.grammar.definition r).comments) (.operand r) p (.matched q))
    (h2 : Finds (c || (z.grammar.definition r).comments) (.operators r table z.rounds) q v) :
    Finds c (.call r) p v
  | unbuilt {c r table p v} (ht : z.grammar.table? r = some table)
    (h : Finds (c || (z.grammar.definition r).comments) (.operand r) p v) (hv : ∀ q, v ≠ .matched q) :
    Finds c (.call r) p v

variable {z} {c : Bool} {a : Attempt} {p : Nat} {v v' : Verdict}

/-- There is one verdict at most. -/
theorem Finds.unique (h : z.Finds c a p v) (h' : z.Finds c a p v') : v = v' := by
  induction h generalizing v' with
  | limit | hit | miss => cases h' <;> simp_all [Element.isSingle]
  | rule _ _ ih | ruleAt _ _ ih | repeated _ _ ih | seq _ _ ih | labeled _ _ ih =>
    cases h' <;> first | exact ih ‹_› | simp_all [Element.isSingle]
  | present _ _ hv ih =>
    cases h' with
    | present _ h _ => exact ih h
    | absent _ h => exact absurd (ih h) (hv _)
    | limit | hit | miss => simp_all [Element.isSingle]
  | absent _ _ ih =>
    cases h' with
    | present _ h hv => exact absurd (ih h).symm (hv _)
    | absent _ h => rfl
    | limit | hit | miss => simp_all [Element.isSingle]
  | nil | none | spent | exhausted =>
    cases h'
    rfl
  | cons _ _ ih1 ih2 =>
    cases h' with
    | cons h1 h2 =>
      cases ih1 h1
      exact ih2 h2
    | broken h hv => exact absurd (ih1 h).symm (hv _)
  | broken _ hv ih =>
    cases h' with
    | cons h1 _ => exact absurd (ih h1) (hv _)
    | broken h _ => exact ih h
  | again _ hq _ ih1 ih2 =>
    cases h' with
    | again h1 _ h2 =>
      cases ih1 h1
      exact ih2 h2
    | still h =>
      cases ih1 h
      exact absurd rfl hq
    | done h | short h _ => cases ih1 h
    | halted h hv => rcases hv with rfl | rfl <;> cases ih1 h
  | still _ ih =>
    cases h' with
    | again h1 hq _ =>
      cases ih h1
      exact absurd rfl hq
    | still h => rfl
    | done h | short h _ => cases ih h
    | halted h hv => rcases hv with rfl | rfl <;> cases ih h
  | done _ ih =>
    cases h' with
    | again h _ _ | still h => cases ih h
    | done h => rfl
    | short _ hn => exact absurd hn (Nat.lt_irrefl 0)
    | halted h hv => rcases hv with rfl | rfl <;> cases ih h
  | short _ hn ih =>
    cases h' with
    | again h _ _ | still h => cases ih h
    | done h => exact absurd hn (Nat.lt_irrefl 0)
    | short h _ => exact ih h
    | halted h hv => rcases hv with rfl | rfl <;> cases ih h
  | halted _ hv ih =>
    cases h' with
    | again h _ _ | still h | done h | short h _ => rcases hv with rfl | rfl <;> cases ih h
    | halted h _ => exact ih h
  | next _ _ ih1 ih2 =>
    cases h' with
    | next h1 h2 =>
      cases ih1 h1
      exact ih2 h2
    | found h hv => exact absurd (ih1 h).symm (hv _)
  | found _ hv ih =>
    cases h' with
    | next h1 _ => exact absurd (ih h1) (hv _)
    | found h _ => exact ih h
  | operand _ ih =>
    cases h' with
    | operand h => exact ih h
  | stopped hl | bare hl ht => cases h' <;> simp_all
  | operator hl ht _ _ ih1 ih2 =>
    cases h' with
    | operator _ ht' h1 h2 =>
      cases ht.symm.trans ht'
      cases ih1 h1
      exact ih2 h2
    | stranded _ ht' h hv =>
      cases ht.symm.trans ht'
      exact absurd (ih1 h).symm (hv _)
    | stopped _ | bare _ _ => simp_all
  | stranded hl ht _ hv ih =>
    cases h' with
    | operator _ ht' h1 h2 =>
      cases ht.symm.trans ht'
      exact absurd (ih h1) (hv _)
    | stranded _ ht' h _ =>
      cases ht.symm.trans ht'
      exact ih h
    | stopped _ | bare _ _ => simp_all
  | plain ht _ ih =>
    cases h' with
    | plain _ h => exact ih h
    | climbed ht' _ _ | unbuilt ht' _ _ => simp_all
  | climbed ht _ _ ih1 ih2 =>
    cases h' with
    | plain ht' _ => simp_all
    | climbed ht' h1 h2 =>
      cases ht.symm.trans ht'
      cases ih1 h1
      exact ih2 h2
    | unbuilt _ h hv => exact absurd (ih1 h).symm (hv _)
  | unbuilt ht _ hv ih =>
    cases h' with
    | plain ht' _ => simp_all
    | climbed _ h1 _ => exact absurd (ih h1) (hv _)
    | unbuilt _ h _ => exact ih h

/-! ### What a match is made of -/

section

variable {e : Element} {q : Nat}

theorem Finds.of_single (h : z.Finds c (.element e) p (.matched q)) (he : e.isSingle = true) :
    z.behind? c e p = some q := by
  cases h with
  | hit _ _ h => exact h
  | rule | ruleAt | present | absent | repeated | seq | labeled => cases he

theorem Finds.of_rule {r : Rule} (h : z.Finds c (.element (.rule r)) p (.matched q)) :
    z.Finds c (.call r) p (.matched q) := by
  cases h with
  | hit _ he _ => cases he
  | rule _ h => exact h

theorem Finds.of_optional (h : z.Finds c (.element (.optional e)) p (.matched q)) :
    z.Finds c (.element e) p (.matched q) ∨ q = p ∧ ∃ i, z.Finds c (.element e) p (.failed i) := by
  cases h with
  | hit _ he _ => cases he
  | present _ h _ => exact .inl h
  | absent _ h => exact .inr ⟨rfl, _, h⟩

theorem Finds.of_repeated {least : Nat} {resync : Bool}
    (h : z.Finds c (.element (.repeated e least resync)) p (.matched q)) :
    z.Finds c (.items e z.rounds least) p (.matched q) := by
  cases h with
  | hit _ he _ => cases he
  | repeated _ h => exact h

theorem Finds.of_seq {es : List Element} (h : z.Finds c (.element (.seq es)) p (.matched q)) :
    z.Finds c (.row es) p (.matched q) := by
  cases h with
  | hit _ he _ => cases he
  | seq _ h => exact h

theorem Finds.of_labeled {name : String} {many : Bool} (h : z.Finds c (.element (.labeled name many e)) p (.matched q)) :
    z.Finds c (.element e) p (.matched q) := by
  cases h with
  | hit _ he _ => cases he
  | labeled _ h => exact h

theorem Finds.of_cons {es : List Element} (h : z.Finds c (.row (e :: es)) p (.matched q)) :
    ∃ w, z.Finds c (.element e) p (.matched w) ∧ z.Finds c (.row es) w (.matched q) := by
  cases h with
  | cons h1 h2 => exact ⟨_, h1, h2⟩
  | broken _ hv => exact absurd rfl (hv q)

/-- A list goes on with an item that moves, or it is over. -/
theorem Finds.of_items {n need : Nat} (h : z.Finds c (.items e n need) p (.matched q)) :
    (∃ w m, w ≠ p ∧ z.Finds c (.element e) p (.matched w) ∧ z.Finds c (.items e m (need - 1)) w (.matched q)) ∨
      q = p ∧ (z.Finds c (.element e) p (.matched p) ∨ need = 0 ∧ ∃ i, z.Finds c (.element e) p (.failed i)) := by
  cases h with
  | again h1 hw h2 => exact .inl ⟨_, _, hw, h1, h2⟩
  | still h => exact .inr ⟨rfl, .inl h⟩
  | done h => exact .inr ⟨rfl, .inr ⟨rfl, _, h⟩⟩
  | halted _ hv => rcases hv with h | h <;> cases h

end

/-! ### Where a match stops -/

/-- A token that is wanted is the next one, or the comment in front of it. -/
theorem of_behind? {e : Element} {q : Nat} (h : z.behind? c e p = some q) :
    q = p ∨ q = z.stream.skip p ∨ ∃ i, z.stream.comment? p = some i ∧ q = i + 1 := by
  have htoken : ∀ {k : Kind}, z.behindToken? c k p = some q → q = p ∨ q = z.stream.skip p := fun {k} h => by
    unfold behindToken? at h
    split at h <;> split at h
    · exact .inl (Option.some.inj h).symm
    · cases h
    · exact .inr (Option.some.inj h).symm
    · cases h
  cases e with
  | token k | relation k _ => exact (htoken h).imp_right .inl
  | oneOf ks =>
    simp only [behind?] at h
    split at h
    · exact .inr (.inl (Option.some.inj h).symm)
    · cases h
  | comment =>
    obtain ⟨i, hi, rfl⟩ := Option.map_eq_some_iff.1 h
    exact .inr (.inr ⟨i, hi, rfl⟩)
  | rule | ruleAt | optional | repeated | seq | labeled => cases h

theorem forth_behind? {e : Element} {q : Nat} (h : z.behind? c e p = some q) : z.stream.Forth p q := by
  rcases of_behind? h with rfl | rfl | ⟨i, hi, rfl⟩
  · exact .refl _ _
  · exact .skip _ _
  · obtain ⟨h1, h2, -⟩ := z.stream.comment?_some hi
    exact ⟨Nat.le_succ_of_le h1, .inr (Nat.le_trans h2 (z.stream.settle_le_size p))⟩

theorem Finds.forth (h : z.Finds c a p v) {q : Nat} (hq : v = .matched q) : z.stream.Forth p q := by
  induction h generalizing q with
  | limit | miss | spent | short | none | exhausted | stopped => cases hq
  | hit _ _ h =>
    cases hq
    exact forth_behind? h
  | rule _ _ ih | ruleAt _ _ ih | present _ _ _ ih | repeated _ _ ih | seq _ _ ih | labeled _ _ ih | found _ _ ih
  | operand _ ih | next _ _ _ ih | plain _ _ ih => exact ih hq
  | absent | nil | still | done | bare =>
    cases hq
    exact .refl _ _
  | cons _ _ ih1 ih2 | again _ _ _ ih1 ih2 | climbed _ _ _ ih1 ih2 => exact (ih1 rfl).trans (ih2 hq)
  | operator _ _ _ _ ih1 ih2 => exact (Stream.Forth.skip _ _).trans ((ih1 rfl).trans (ih2 hq))
  | broken _ hv | stranded _ _ _ hv | unbuilt _ _ hv => exact absurd hq (hv q)
  | halted _ hv => rcases hv with rfl | rfl <;> cases hq

/-- Attempts that go on for ever: only loops do, and these run out of stream before they run out of rounds. -/
def Lasts (z : Recognizer) (p : Nat) : Attempt → Prop
  | .items _ n _ | .operators _ _ n => n = 0 ∨ p + n ≤ z.stream.size
  | _ => False

/-- Where every operator takes a token, every attempt comes to an end. -/
theorem Finds.ends (hop : ∀ r table, z.grammar.table? r = some table → ∀ c p, z.stream.atEnd p = true →
      table.lookup (z.stream.lookahead p c) = .none)
    (h : z.Finds c a p v) (ha : ∀ r table n, a = .operators r table n → z.grammar.table? r = some table)
    (hv : v = .endless) : z.Lasts p a := by
  have hrounds := size_lt_rounds z
  induction h with
  | limit | hit | miss | absent | nil | still | done | short | none | stopped | bare => cases hv
  | rule _ _ ih | ruleAt _ _ ih | present _ _ _ ih | seq _ _ ih | labeled _ _ ih | broken _ _ ih | found _ _ ih
  | operand _ ih | plain _ _ ih | unbuilt _ _ _ ih | halted _ _ ih | cons _ _ _ ih | next _ _ _ ih =>
    exact False.elim (ih (fun _ _ _ h => by cases h) hv)
  | repeated _ _ ih => rcases ih (fun _ _ _ h => by cases h) hv with h | h <;> omega
  | spent | exhausted => exact Or.inl rfl
  | @again c e n need p q v h1 hq _ _ ih =>
    have hle := (h1.forth rfl).le
    have hin := (h1.forth rfl).inside.resolve_left hq
    refine Or.inr ?_
    rcases ih (fun _ _ _ h => by cases h) hv with h | h <;> omega
  | @operator c r table n p tier node q v _ ht h1 _ _ ih =>
    have he : z.stream.atEnd p = false := by
      rcases he : z.stream.atEnd p with _ | _
      · rfl
      · cases ht.symm.trans (hop r table (ha _ _ _ rfl) c p he)
    have hle := Stream.le_settle_of_not_atEnd he
    have hlt := z.stream.settle_lt_of_not_atEnd he
    have hskip : z.stream.skip p = z.stream.settle p + 1 := by rw [Stream.skip, z.stream.next?_of_not_atEnd he]; rfl
    have hq := h1.forth rfl
    rw [hskip] at hq
    have hqle := hq.le
    refine Or.inr ?_
    rcases ih (fun r' table' n' h => by cases h; exact ha _ _ _ rfl) hv with h | h <;> omega
  | stranded _ _ _ _ ih =>
    unfold operandOf at ih
    split at ih <;> exact (ih (fun _ _ _ h => by cases h) hv).elim
  | climbed ht _ _ _ ih =>
    rcases ih (fun r' table' n' h => by cases h; exact ht) hv with h | h <;> omega

/-! ### Steps -/

def verdict (e : Outcome × Trial) : Verdict := e.1.verdict e.2.pos

theorem eq_of_matched {e : Outcome × Trial} {q : Nat} (h : verdict e = .matched q) :
    e = (.matched, e.2) ∧ e.2.pos = q := by
  obtain ⟨h1, h2⟩ := Outcome.verdict_eq_matched.1 h
  exact ⟨Prod.ext h1 rfl, h2⟩

theorem eq_of_failed {e : Outcome × Trial} {i : Nat} (h : verdict e = .failed i) : e = (.failed i, e.2) :=
  Prod.ext (Outcome.verdict_eq_failed.1 h) rfl

theorem not_failed {e : Outcome × Trial} (h : ∀ i, verdict e ≠ .failed i) (i : Nat) : e.1 ≠ .failed i :=
  fun he => h i (Outcome.verdict_eq_failed.2 he)

section

variable {step first second : Step} {t u : Trial}

theorem andThen_matched (h : first t = (.matched, u)) : andThen first second t = second u := by
  unfold andThen
  rw [h]

theorem andThen_broken (h : (first t).1 ≠ .matched) : andThen first second t = first t := by
  unfold andThen
  rcases he : first t with ⟨o, u⟩
  rw [he] at h
  cases o with
  | matched => exact absurd rfl h
  | horizon | failed | endless => rfl

theorem optional_failed {i : Nat} (h : step t = (.failed i, u)) :
    optional step t = (.matched, { u with pos := t.pos }) := by
  unfold optional
  rw [h]

theorem optional_present (h : ∀ i, (step t).1 ≠ .failed i) : optional step t = step t := by
  unfold optional
  rcases he : step t with ⟨o, u⟩
  rw [he] at h
  cases o with
  | failed i => exact absurd rfl (h i)
  | matched | horizon | endless => rfl

theorem repeated_again (h : step t = (.matched, u)) (hu : u.pos ≠ t.pos) (n need : Nat) :
    repeated step (n + 1) need t = repeated step n (need - 1) u := by
  conv_lhs => unfold repeated
  rw [h]
  exact if_neg hu

theorem repeated_still (h : step t = (.matched, u)) (hu : u.pos = t.pos) (n need : Nat) :
    repeated step (n + 1) need t = (.matched, u) := by
  unfold repeated
  rw [h]
  exact if_pos hu

theorem repeated_done {i : Nat} (h : step t = (.failed i, u)) (n : Nat) :
    repeated step (n + 1) 0 t = (.matched, { u with pos := t.pos }) := by
  unfold repeated
  rw [h]
  rfl

theorem repeated_short {i : Nat} (h : step t = (.failed i, u)) (n : Nat) {need : Nat} (hn : 0 < need) :
    repeated step (n + 1) need t = (.failed i, u) := by
  unfold repeated
  rw [h]
  exact if_pos hn

theorem repeated_halted (h : verdict (step t) = .horizon ∨ verdict (step t) = .endless) (n need : Nat) :
    repeated step (n + 1) need t = step t := by
  unfold repeated
  rcases he : step t with ⟨o, u⟩
  rw [he] at h
  cases o with
  | matched | failed => simp [verdict] at h
  | horizon | endless => rfl

theorem guarded_limit (h : z.limitAt t.pos = true) (step : Step) : z.guarded step t = (.horizon, t) :=
  if_pos h

theorem guarded_of_not_limit (h : z.limitAt t.pos = false) (step : Step) : z.guarded step t = step t :=
  if_neg (by rw [show z.limitReached t = false from h]; exact Bool.false_ne_true)

end

section

variable {call : Bool → Rule → Step} {t u : Trial}

theorem firstMatch_next {a : Alternative} {as : List Alternative} {far i : Nat}
    (h : z.row call c a.elements t = (.failed i, u)) :
    z.firstMatch call c (a :: as) far t = z.firstMatch call c as (max far i) { u with pos := t.pos } := by
  conv_lhs => unfold firstMatch
  rw [h]

theorem firstMatch_found {a : Alternative} {as : List Alternative} {far : Nat}
    (h : ∀ i, (z.row call c a.elements t).1 ≠ .failed i) :
    z.firstMatch call c (a :: as) far t = z.row call c a.elements t := by
  unfold firstMatch
  rcases he : z.row call c a.elements t with ⟨o, u⟩
  rw [he] at h
  cases o with
  | failed i => exact absurd rfl (h i)
  | matched | horizon | endless => rfl

theorem element_limit (hl : z.limitAt t.pos = true) (e : Element) : z.element call c e t = (.horizon, t) := by
  cases e <;> unfold element <;> exact guarded_limit hl _

theorem token_eq (k : Kind) (t : Trial) : z.token c k t =
    (z.behindToken? c k t.pos).elim (z.fail t) fun q => (.matched, { t with pos := q }) := by
  unfold token behindToken?
  split <;> split <;> rfl

/-- An element that stands for one token has nothing to do with calls. -/
theorem element_single (call : Bool → Rule → Step) (c : Bool) (hl : z.limitAt t.pos = false) {e : Element}
    (he : e.isSingle = true) : ∃ b,
    z.element call c e t = (z.behind? c e t.pos).elim (z.fail t) fun q =>
      (.matched, { t with pos := q, tookComment := b }) := by
  cases e <;> simp only [Element.isSingle, Bool.false_eq_true] at he <;> unfold element <;>
    rw [guarded_of_not_limit hl]
  case token k => exact ⟨t.tookComment, token_eq k t⟩
  case relation k _ => exact ⟨t.tookComment, token_eq k t⟩
  case oneOf ks =>
    refine ⟨t.tookComment, ?_⟩
    simp only [oneOf, behind?]
    split <;> rfl
  case comment =>
    refine ⟨true, ?_⟩
    simp only [comment, behind?]
    rcases z.stream.comment? t.pos with _ | i <;> rfl

/-- What is done in an attempt, given how rules are called. -/
abbrev step (z : Recognizer) (call : Bool → Rule → Step) (c : Bool) : Attempt → Step
  | .element e => z.element call c e
  | .row es => z.row call c es
  | .items e n need => repeated (z.element call c e) n need
  | .firstOf as far => z.firstMatch call c as far
  | .operand r => z.alternatives call c r
  | .operators r table n => z.operators call c r table n
  | .call r => call c r

theorem operators_bare {r : Rule} {table : Table} (hl : z.limitAt t.pos = false)
    (ht : table.lookup (z.stream.lookahead t.pos c) = none) (n : Nat) :
    z.operators call c r table (n + 1) t = (.matched, t) := by
  unfold operators
  rw [guarded_of_not_limit hl, ht]

theorem operators_operator {r node : Rule} {table : Table} {tier : Tier} (hl : z.limitAt t.pos = false)
    (ht : table.lookup (z.stream.lookahead t.pos c) = some (tier, node)) (n : Nat) :
    z.operators call c r table (n + 1) t =
      andThen (z.step call c (operandOf r node tier)) (z.operators call c r table n) (z.take t).2 := by
  have hnext : (if tier.form = .binary then z.alternatives call c r else call c node) =
      z.step call c (operandOf r node tier) := by
    unfold operandOf
    split <;> rfl
  conv_lhs => unfold operators
  rw [guarded_of_not_limit hl, ht]
  dsimp only
  rw [hnext]
  exact andThen_matched rfl

theorem body_plain {r : Rule} (ht : z.grammar.table? r = none) :
    z.body call c r = z.alternatives call c r := by
  unfold body
  rw [ht]

theorem body_climbed {r : Rule} {table : Table} (ht : z.grammar.table? r = some table) :
    z.body call c r = andThen (z.alternatives call c r) (z.operators call c r table z.rounds) := by
  unfold body
  rw [ht]

/-- Tries a rule whatever is known of it, with `n` more calls to nest. -/
def afresh (z : Recognizer) : Nat → Bool → Rule → Step
  | 0, _, _ => z.fail
  | n + 1, c, r => z.body (z.afresh n) (c || (z.grammar.definition r).comments) r

/-- The verdict of a recognizer that knows nothing, if only calls may nest deep enough. -/
def Reaches (z : Recognizer) (c : Bool) (a : Attempt) (p : Nat) (v : Verdict) : Prop :=
  ∀ᶠ n in Filter.atTop, ∀ t : Trial, t.pos = p → verdict (z.step (z.afresh n) c a t) = v

end

end Recognizer

end KermlText
