import KermlText.Proofs.Abreast
import KermlText.Proofs.Ahead
import KermlText.Proofs.Recall
import Mathlib.Control.Monad.Basic

/-! A resolver and a place in a stream, for whoever asks and moves about. Decisions are remembered by the
token in front of which they are made, but they are made where the last token was left, and comments may lie
between the two. So the memory changes nothing for those who come back to a token only where the same comment
is next, and for others it may. -/

namespace KermlText

/-- What can be done with a resolver and a place. Marks may come from anywhere. -/
inductive Query where
  | decide (r : Rule) (follow : KindSet) (comments : Bool)
  | enter (e : Element) (follow : KindSet) (comments : Bool)
  | advance
  | bump
  | advanceComment
  | mark
  | rewind (mark : Nat)
  /-- Goes back as the resolver does, which forgets what was decided behind the mark. -/
  | goBack (mark : Nat)
  | forgetFrom (place : Nat)

inductive Reply where
  | choice (o : Except Failure Nat)
  | entry (o : Except Failure Bool)
  | token (o : Except Failure Token)
  | moved (b : Bool)
  | comment (t : Option Token)
  | place (mark : Nat)
  | done
  deriving DecidableEq

namespace Query

variable (g : Grammar) (s : Stream)

/-- The place where a query leaves the stream. The resolver has no say in it. -/
def next (pos : Nat) : Query → Nat
  | .decide _ _ _ | .enter _ _ _ | .mark | .forgetFrom _ => pos
  | .advance | .bump => s.skip pos
  | .advanceComment => (s.comment? pos).elim pos (· + 1)
  | .rewind i | .goBack i => s.rewind i

def ask (z : Resolver) (pos : Nat) : Query → Reply × Resolver
  | .decide r follow c =>
    let d := z.decide g s pos r (g.choices r) follow c
    (.choice d.1, d.2)
  | .enter e follow c =>
    let d := z.enter g s pos e follow c
    (.entry d.1, d.2)
  | .advance => (.token ((s.advance pos).map (·.1)), z)
  | .bump => (.moved (!s.atEnd pos), z)
  | .advanceComment => (.comment ((s.comment? pos).map s.token), z)
  | .mark => (.place pos, z)
  | .rewind _ => (.done, z)
  | .goBack i => (.done, z.forgetFrom (s.settle (s.rewind i) + 1))
  | .forgetFrom place => (.done, z.forgetFrom place)

def replies (z : Resolver) (pos : Nat) : List Query → List Reply
  | [] => []
  | q :: qs => (ask g s z pos q).1 :: replies (ask g s z pos q).2 (next s pos q) qs

/-- The places at which something is decided. -/
def decided (pos : Nat) : List Query → List Nat
  | [] => []
  | q :: qs => (if q matches .decide _ _ _ then [pos] else []) ++ decided (next s pos q) qs

variable {g s}

theorem next_le_size {pos : Nat} (hp : pos ≤ s.size) (q : Query) : next s pos q ≤ s.size := by
  have hskip : s.skip pos ≤ s.size := by
    rcases he : s.atEnd pos with _ | _
    · rw [Stream.skip, s.next?_of_not_atEnd he]
      exact s.settle_lt_of_not_atEnd he
    · simpa [Stream.skip, s.next?_of_atEnd he] using hp
  cases q with
  | decide | enter | mark | forgetFrom => exact hp
  | advance | bump => exact hskip
  | advanceComment =>
    simp only [next]
    rcases hi : s.comment? pos with _ | i
    · exact hp
    · exact Nat.lt_of_lt_of_le (s.comment?_some hi).2.1 (s.settle_le_size pos)
  | rewind | goBack => exact Nat.min_le_right _ _

end Query

/-! ### Places in front of one token -/

/-- Two places in front of the same token, with the same comment next. -/
structure Stream.Beside (s : Stream) (p q : Nat) : Prop where
  inside : p ≤ s.size
  inside' : q ≤ s.size
  settle : s.settle q = s.settle p
  comment : s.comment? q = s.comment? p

/-- The places of trials from `p` and from `q`: those two, and behind both of them the same places. -/
def Merging (p q x y : Nat) : Prop := x = p ∧ y = q ∨ x = y ∧ p < x ∧ q < x

namespace Stream.Beside

variable {s : Stream} {p q : Nat} (h : s.Beside p q)
include h

theorem settle_merging {x y : Nat} (hxy : Merging p q x y) : s.settle y = s.settle x := by
  rcases hxy with ⟨rfl, rfl⟩ | ⟨rfl, -⟩
  · exact h.settle
  · rfl

theorem comment_merging {x y : Nat} (hxy : Merging p q x y) : s.comment? y = s.comment? x := by
  rcases hxy with ⟨rfl, rfl⟩ | ⟨rfl, -⟩
  · exact h.comment
  · rfl

theorem kind_merging {x y : Nat} (hxy : Merging p q x y) : s.kind y = s.kind x := by
  rw [kind, kind, current, current, h.settle_merging hxy]

theorem skip_merging {x y : Nat} (hxy : Merging p q x y) : Merging p q (s.skip x) (s.skip y) := by
  have hs := h.settle_merging hxy
  rcases he : s.atEnd x with _ | _
  · have he' : s.atEnd y = false := by rw [← he, atEnd, atEnd, hs]
    have hp : p ≤ s.settle x := by
      rcases hxy with ⟨rfl, rfl⟩ | ⟨rfl, hx, -⟩
      · exact s.le_settle h.inside
      · exact Nat.le_trans (Nat.le_of_lt hx) (Stream.le_settle_of_not_atEnd he)
    have hq : q ≤ s.settle x := by
      rcases hxy with ⟨rfl, rfl⟩ | ⟨rfl, -, hx⟩
      · exact h.settle ▸ s.le_settle h.inside'
      · exact Nat.le_trans (Nat.le_of_lt hx) (Stream.le_settle_of_not_atEnd he)
    rw [skip, skip, s.next?_of_not_atEnd he, s.next?_of_not_atEnd he', hs]
    exact .inr ⟨rfl, Nat.lt_succ_of_le hp, Nat.lt_succ_of_le hq⟩
  · have he' : s.atEnd y = true := by rw [← he, atEnd, atEnd, hs]
    rw [skip, skip, s.next?_of_atEnd he, s.next?_of_atEnd he']
    exact hxy

theorem comment?_merging {x y : Nat} (hxy : Merging p q x y) :
    Option.Rel (fun i j => Merging p q (i + 1) (j + 1)) (s.comment? x) (s.comment? y) := by
  have hc := h.comment_merging hxy
  rcases hi : s.comment? x with _ | i
  · rw [hc, hi]
    exact .none
  · have hy := (s.comment?_some (hc.trans hi)).1
    have hx := (s.comment?_some hi).1
    rw [hc, hi]
    refine .some (.inr ⟨rfl, ?_⟩)
    rcases hxy with ⟨rfl, rfl⟩ | ⟨rfl, hp, hq⟩ <;> omega

/-- Trials from two such places go abreast. -/
theorem abreast {z : Recognizer} (hz : z.stream = s) : z.Abreast z (Merging p q) (· = ·) := by
  subst hz
  have hatEnd : ∀ {x y}, Merging p q x y → z.stream.atEnd y = z.stream.atEnd x := fun hxy => by
    rw [atEnd, atEnd, h.settle_merging hxy]
  refine ⟨rfl, fun hx hy => ?_, fun hi hj => by rw [hi, hj], fun hxy => (h.settle_merging hxy).symm,
    hatEnd, fun hxy c => ?_, fun hxy => ?_, fun hxy _ => h.skip_merging hxy,
    fun hxy _ => h.comment?_merging hxy⟩
  · rcases hx with ⟨rfl, rfl⟩ | ⟨rfl, hx⟩ <;> rcases hy with ⟨rfl, rfl⟩ | ⟨rfl, hy⟩ <;> omega
  · rw [lookahead, lookahead, h.comment_merging hxy, h.kind_merging hxy]
  · rw [Recognizer.limitReached, Recognizer.limitReached, h.settle_merging hxy, hatEnd hxy]

end Stream.Beside

namespace Resolver

variable {g : Grammar} {s : Stream} {limit : Nat}

/-- The same is decided at both places. -/
theorem answer_beside {p q : Nat} (h : s.Beside p q) (r : Rule) (follow : KindSet) (c : Bool) :
    answer g s limit q r follow c = answer g s limit p r follow c := by
  have hxy : Merging p q p q := .inl ⟨rfl, rfl⟩
  have hrec : (blank limit).recognizer g s q = (blank limit).recognizer g s p := by
    rw [recognizer, recognizer, Stream.horizon, Stream.horizon, Stream.ahead?, Stream.ahead?, h.settle]
  have hcur : s.current q = s.current p := by rw [Stream.current, Stream.current, h.settle]
  have hla : s.lookahead q c = s.lookahead p c := by
    rw [Stream.lookahead, Stream.lookahead, h.comment, h.kind_merging hxy]
  unfold answer decide
  split
  · rfl
  · dsimp only
    rw [known?_of_nil rfl, known?_of_nil rfl, hla, hcur, hrec]
    dsimp only
    split
    · rfl
    · rfl
    · rename_i first rest _ _
      have htry := abreast_tryAll (y := (blank limit).recognizer g s p) (h.abreast rfl)
        (fun n => Recognizer.evenRounds_of_size (h.abreast rfl) rfl _ _) hxy r follow c (first :: rest)
        (Memo.abreast_empty _ _) (Ranking.abreast_empty _) false false
      generalize tryAll _ p r follow c (first :: rest) .empty ⟨none, none⟩ false = e at htry ⊢
      generalize tryAll _ q r follow c (first :: rest) .empty ⟨none, none⟩ false = e' at htry ⊢
      obtain ⟨o, cut⟩ := e
      obtain ⟨o', cut'⟩ := e'
      cases htry
      cases o <;> rfl

/-- What is remembered after a decision was remembered before it, or is what was decided. -/
theorem mem_of_decide {z : Resolver} {pos : Nat} {r : Rule} {follow : KindSet} {c : Bool}
    {e : Decision × Nat} (he : e ∈ (z.decide g s pos r (g.choices r) follow c).2.cache) :
    e ∈ z.cache ∨ e.1 = ⟨r, s.settle pos, follow, c⟩ ∧
      (z.decide g s pos r (g.choices r) follow c).1 = .ok e.2 := by
  have hsub : ∀ place, ∀ e ∈ (z.forgetFrom place).cache, e ∈ z.cache :=
    fun place e he => (List.dropWhile_sublist _).subset he
  unfold decide at he ⊢
  split at he
  · exact .inl he
  · dsimp only at he ⊢
    split at he
    · exact .inl he
    · split at he
      · exact .inl he
      · exact .inl he
      · split at he
        · exact .inl (hsub _ e he)
        · simp only [noteCut, countSpeculated, remember] at he
          split at he
          · rcases List.mem_cons.1 he with rfl | he
            · exact .inr ⟨rfl, rfl⟩
            · exact .inl (hsub _ e he)
          · exact .inl (hsub _ e he)

theorem decide_limit (z : Resolver) (pos : Nat) (r : Rule) (follow : KindSet) (c : Bool) :
    (z.decide g s pos r (g.choices r) follow c).2.limit = z.limit := by
  unfold decide
  split
  · rfl
  · dsimp only
    split
    · rfl
    · split
      · rfl
      · rfl
      · split
        · rfl
        · simp only [noteCut, countSpeculated, remember]
          split <;> rfl

/-- All that is remembered was decided at one of the places, and would be decided there without memory. -/
structure Recollects (g : Grammar) (s : Stream) (n : Nat) (places : List Nat) (z : Resolver) : Prop where
  limit : z.limit = n
  recalls : ∀ e ∈ z.cache, ∃ p ∈ places, s.settle p = e.1.place ∧
    answer g s n p e.1.rule e.1.follow e.1.comments = .ok e.2

variable {places : List Nat} {z : Resolver}

theorem recollects_make (caching : Bool) (n : Nat) :
    (make n caching).Recollects g s (max n 1) places := ⟨rfl, by simp [make]⟩

namespace Recollects

theorem sub (h : z.Recollects g s limit places) {z' : Resolver} (hl : z'.limit = z.limit)
    (hsub : ∀ e ∈ z'.cache, e ∈ z.cache) : z'.Recollects g s limit places :=
  ⟨hl.trans h.limit, fun e he => h.recalls e (hsub e he)⟩

theorem forgetFrom (h : z.Recollects g s limit places) (place : Nat) :
    (z.forgetFrom place).Recollects g s limit places :=
  h.sub rfl fun _ he => (List.dropWhile_sublist _).subset he

variable (hinside : ∀ p ∈ places, p ≤ s.size)
  (hsee : ∀ p ∈ places, ∀ q ∈ places, s.settle p = s.settle q → s.comment? p = s.comment? q)
include hinside hsee

/-- What is known of a place was decided in front of the same token and the same comment. -/
theorem known (h : z.Recollects g s limit places) {pos : Nat} (hp : pos ∈ places) {r : Rule}
    {follow : KindSet} {c : Bool} {i : Nat} (hk : z.known? ⟨r, s.settle pos, follow, c⟩ = some i) :
    answer g s limit pos r follow c = .ok i := by
  obtain ⟨p, hpm, hset, hans⟩ := h.recalls _ (mem_of_known? hk)
  have hbeside : s.Beside p pos :=
    ⟨hinside p hpm, hinside pos hp, hset.symm, hsee pos hp p hpm hset.symm⟩
  exact (answer_beside hbeside r follow c).trans hans

/-- A decision is what it would be without memory. -/
theorem decide_eq (h : z.Recollects g s limit places) {pos : Nat} (hp : pos ∈ places) (r : Rule)
    (follow : KindSet) (c : Bool) :
    (z.decide g s pos r (g.choices r) follow c).1 = answer g s limit pos r follow c := by
  rcases hk : z.known? ⟨r, s.settle pos, follow, c⟩ with _ | i
  · exact decide_of_unknown h.limit hk
  · have ha := h.known hinside hsee hp hk
    unfold Resolver.decide
    split
    · rename_i only ho
      unfold answer Resolver.decide
      rw [ho]
    · dsimp only
      rw [hk, ha]

theorem decide (h : z.Recollects g s limit places) {pos : Nat} (hp : pos ∈ places) (r : Rule)
    (follow : KindSet) (c : Bool) :
    (z.decide g s pos r (g.choices r) follow c).2.Recollects g s limit places := by
  refine ⟨(decide_limit z pos r follow c).trans h.limit, fun e he => ?_⟩
  rcases mem_of_decide he with he | ⟨he, ho⟩
  · exact h.recalls e he
  · refine ⟨pos, hp, by rw [he], ?_⟩
    rw [← ho, he, h.decide_eq hinside hsee hp]

end Recollects

end Resolver

/-! ### Sessions -/

namespace Query

open Resolver

variable {g : Grammar} {s : Stream} {limit : Nat}

theorem decided_le_size {pos : Nat} (hp : pos ≤ s.size) (qs : List Query) :
    ∀ p ∈ decided s pos qs, p ≤ s.size := by
  induction qs generalizing pos with
  | nil => simp [decided]
  | cons q qs ih =>
    intro p hmem
    unfold decided at hmem
    rcases List.mem_append.1 hmem with hq | hqs
    · split at hq
      · rw [List.mem_singleton.1 hq]
        exact hp
      · cases hq
    · exact ih (next_le_size hp q) p hqs

/-- Two resolvers that recollect rightly reply the same to a query, and still recollect rightly. -/
theorem ask_recollects {places : List Nat} (hinside : ∀ p ∈ places, p ≤ s.size)
    (hsee : ∀ p ∈ places, ∀ q ∈ places, s.settle p = s.settle q → s.comment? p = s.comment? q)
    {z z' : Resolver} (hz : z.Recollects g s limit places) (hz' : z'.Recollects g s limit places) {pos : Nat}
    (q : Query) (hq : (q matches .decide _ _ _) = true → pos ∈ places) :
    (ask g s z' pos q).1 = (ask g s z pos q).1 ∧ (ask g s z pos q).2.Recollects g s limit places ∧
      (ask g s z' pos q).2.Recollects g s limit places := by
  cases q with
  | decide r follow c =>
    have hp := hq rfl
    refine ⟨?_, hz.decide hinside hsee hp r follow c, hz'.decide hinside hsee hp r follow c⟩
    simp only [ask]
    rw [hz.decide_eq hinside hsee hp, hz'.decide_eq hinside hsee hp]
  | enter e follow c =>
    have hl := z.enter_limit g s pos e follow c
    have hl' := z'.enter_limit g s pos e follow c
    refine ⟨?_, hz.sub hl.1 hl.2.2, hz'.sub hl'.1 hl'.2.2⟩
    simp only [ask]
    rw [enter_eq_entry hz.limit, enter_eq_entry hz'.limit]
  | advance | bump | advanceComment | mark | rewind => exact ⟨rfl, hz, hz'⟩
  | goBack | forgetFrom => exact ⟨rfl, hz.forgetFrom _, hz'.forgetFrom _⟩

theorem replies_recollects {places : List Nat} (hinside : ∀ p ∈ places, p ≤ s.size)
    (hsee : ∀ p ∈ places, ∀ q ∈ places, s.settle p = s.settle q → s.comment? p = s.comment? q)
    {z z' : Resolver} (hz : z.Recollects g s limit places) (hz' : z'.Recollects g s limit places) (pos : Nat)
    (qs : List Query) (hqs : ∀ p ∈ decided s pos qs, p ∈ places) :
    replies g s z' pos qs = replies g s z pos qs := by
  induction qs generalizing z z' pos with
  | nil => rfl
  | cons q qs ih =>
    unfold decided at hqs
    obtain ⟨hsame, h1, h2⟩ := ask_recollects hinside hsee hz hz' q fun hq =>
      hqs pos (List.mem_append_left _ (by rw [if_pos hq]; exact List.mem_singleton_self pos))
    unfold replies
    rw [hsame, ih h1 h2 _ fun p hp => hqs p (List.mem_append_right _ hp)]

/-- The memory changes no reply, if wherever the session decides in front of a token that it decided in
front of before, the same comment is next. -/
theorem replies_caching (g : Grammar) (ts : List Token) (limit : Nat) (qs : List Query)
    (hsee : ∀ p ∈ decided (.ofTokens ts) 0 qs, ∀ q ∈ decided (.ofTokens ts) 0 qs,
      (Stream.ofTokens ts).settle p = (Stream.ofTokens ts).settle q →
        (Stream.ofTokens ts).comment? p = (Stream.ofTokens ts).comment? q) :
    replies g (.ofTokens ts) (make limit true) 0 qs = replies g (.ofTokens ts) (make limit false) 0 qs :=
  replies_recollects (decided_le_size (Nat.zero_le _) qs) hsee (recollects_make false limit)
    (recollects_make true limit) 0 qs fun _ => id

/-- Decides behind a comment, and once more after a way on and back to a mark. -/
def parenFrom (mark : Nat) : List Query :=
  [.advanceComment, .decide .primaryExpression (kerml.follow .primaryExpression) true, .advance, .goBack mark,
    .decide .primaryExpression (kerml.follow .primaryExpression) true]

/-- What stands in parentheses is chosen behind a comment that was taken, and chosen once more after a way
on and back. -/
theorem replies_caching_paren :
    (∀ p ∈ decided (.ofTokens (scan "/* c */ ( a )")) 0 (parenFrom 1),
      ∀ q ∈ decided (.ofTokens (scan "/* c */ ( a )")) 0 (parenFrom 1),
        (Stream.ofTokens (scan "/* c */ ( a )")).settle p = (Stream.ofTokens (scan "/* c */ ( a )")).settle q →
          (Stream.ofTokens (scan "/* c */ ( a )")).comment? p =
            (Stream.ofTokens (scan "/* c */ ( a )")).comment? q) ∧
      replies kerml (.ofTokens (scan "/* c */ ( a )")) (make 32 true) 0 (parenFrom 1) =
        replies kerml (.ofTokens (scan "/* c */ ( a )")) (make 32 false) 0 (parenFrom 1) :=
  ⟨by decide +kernel, replies_caching kerml _ 32 (parenFrom 1) (by decide +kernel)⟩

/-- Back in front of the comment the token is still the same, and what was decided behind the comment is
remembered, but no alternative begins with a comment. -/
theorem replies_before_comment :
    (replies kerml (.ofTokens (scan "/* c */ ( a )")) (make 32 true) 0 (parenFrom 0)).getLast? =
        some (.choice (.ok 2)) ∧
      (replies kerml (.ofTokens (scan "/* c */ ( a )")) (make 32 false) 0 (parenFrom 0)).getLast? =
        some (.choice (.error (.noAlternative .primaryExpression ⟨0, 8⟩ 8
          (Resolver.expected kerml (kerml.follow .primaryExpression)
            ((kerml.choices .primaryExpression).map (elements kerml .primaryExpression))) .blockComment))) := by
  decide +kernel

end Query

end KermlText
