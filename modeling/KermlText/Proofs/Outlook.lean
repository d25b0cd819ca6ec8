import KermlText.Language
import KermlText.Proofs.Rounds
import KermlText.Proofs.Recall
import KermlText.Proofs.Thinned

/-! What a decision looks at. With a limit of so many tokens it sees those, the one behind them and the comments
in front of each, and nothing else: two cursors that have the same outlook decide in the same way, on whatever
streams they stand. -/

namespace KermlText

namespace Stream

/-- How many comments stand between a place and the next token. -/
def commentsBefore (s : Stream) (pos : Nat) : Nat :=
  (s.stretch pos (s.settle pos)).countP fun t => t.channel = .comment

/-- The next `n` tokens, each as its kind with the number of comments in front of it. The end of input
counts as a token, and it is the last. -/
def outlook (s : Stream) : Nat → Nat → List (Nat × Kind)
  | 0, _ => []
  | n + 1, pos =>
    (s.commentsBefore pos, s.kind pos) :: if s.atEnd pos then [] else s.outlook n (s.settle pos + 1)

/-- A place where a reader that started at `pos` can come to stand: there, or behind a token that is not
hidden. -/
def LeftAt (s : Stream) (pos p : Nat) : Prop :=
  p = pos ∨ ∃ k, pos ≤ k ∧ k < s.size ∧ (s.token k).channel ≠ .hidden ∧ p = k + 1

/-- No token that counts looks like the end. -/
structure Ends (s : Stream) : Prop where
  eof : s.eof.kind = .eof
  kind : ∀ i, s.atEnd i = false → s.kind i ≠ .eof

variable {s s' : Stream}

theorem Ends.atEnd_iff (h : s.Ends) (i : Nat) : s.atEnd i = true ↔ s.kind i = .eof := by
  constructor
  · intro he
    rw [Stream.kind, current_of_atEnd he, h.eof]
  · intro hk
    rcases he : s.atEnd i with _ | _
    · exact absurd hk (h.kind i he)
    · rfl

theorem outlook_succ {i : Nat} (h : s.atEnd i = false) (n : Nat) :
    s.outlook (n + 1) i = (s.commentsBefore i, s.kind i) :: s.outlook n (s.settle i + 1) := by
  rw [outlook, if_neg (by simp [h])]

/-! ### Comments in front of a token -/

theorem commentsBefore_of_settled {i : Nat} (h : s.settle i = i) : s.commentsBefore i = 0 := by
  rw [commentsBefore, h, stretch_self]
  rfl

theorem commentsBefore_of_lt {i : Nat} (h : i < s.settle i) :
    s.commentsBefore i = (if (s.token i).channel = .comment then 1 else 0) + s.commentsBefore (i + 1) := by
  have hlt : i < s.size := Nat.lt_of_lt_of_le h (s.settle_le_size i)
  rw [commentsBefore, commentsBefore, s.settle_eq_of_between (Nat.le_succ i) h,
    ← s.stretch_append (Nat.le_succ i) h, s.stretch_succ hlt, List.countP_append, List.countP_singleton]
  simp

/-- The first comment, if there is one, is one of those that are counted. -/
theorem commentsBefore_eq {i : Nat} (hi : i ≤ s.size) :
    s.commentsBefore i = (s.comment? i).elim 0 fun j => s.commentsBefore (j + 1) + 1 := by
  induction hn : s.settle i - i generalizing i with
  | zero =>
    have hs : s.settle i = i := Nat.le_antisymm (Nat.le_of_sub_eq_zero hn) (s.le_settle hi)
    rw [commentsBefore_of_settled hs, comment?_eq_none hs, Option.elim_none]
  | succ n ih =>
    have hlt : i < s.settle i := by omega
    have hset : s.settle (i + 1) = s.settle i := s.settle_eq_of_between (Nat.le_succ i) hlt
    rw [commentsBefore_of_lt hlt, comment?_of_lt hlt]
    split
    · rw [Option.elim_some, Nat.add_comm]
    · rw [Nat.zero_add]
      exact ih (Nat.le_trans hlt (s.settle_le_size i)) (by omega)

theorem comment?_rel {i i' : Nat} (hi : i ≤ s.size) (hi' : i' ≤ s'.size)
    (h : s.commentsBefore i = s'.commentsBefore i') :
    Option.Rel (fun j j' => s.commentsBefore (j + 1) = s'.commentsBefore (j' + 1)) (s.comment? i)
      (s'.comment? i') := by
  rw [commentsBefore_eq hi, commentsBefore_eq hi'] at h
  generalize s.comment? i = j at h ⊢
  generalize s'.comment? i' = j' at h ⊢
  cases j <;> cases j'
  · exact .none
  · simp at h
  · simp at h
  · exact .some (Nat.succ.inj h)

/-- Whoever went on in front of the same token went past a comment. -/
theorem LeftAt.commentsBefore_lt {pos p q : Nat} (hp : pos ≤ p) (hq : s.LeftAt pos q) (hlt : p < q)
    (hs : s.settle q = s.settle p) : s.commentsBefore q < s.commentsBefore p := by
  rcases hq with rfl | ⟨k, -, hk, hvis, rfl⟩
  · exact absurd hlt (Nat.not_lt.2 hp)
  · have hle : k + 1 ≤ s.settle p := hs ▸ s.le_settle hk
    have hch : (s.token k).channel = .comment := by
      have hd := s.channel_ne_of_lt_settle (Nat.le_of_lt_succ hlt) hle
      revert hd hvis
      cases (s.token k).channel <;> simp
    rw [commentsBefore, commentsBefore, hs,
      ← s.stretch_append (Nat.le_of_lt_succ hlt) (Nat.le_of_succ_le hle),
      ← s.stretch_append (Nat.le_succ k) hle, s.stretch_succ hk, List.countP_append, List.countP_append,
      List.countP_singleton, hch]
    simp
    omega

/-- In front of a token, a place is known by the comments that are left. -/
theorem LeftAt.eq_of_commentsBefore {pos p q : Nat} (hp : s.LeftAt pos p) (hq : s.LeftAt pos q)
    (hs : s.settle q = s.settle p) (hc : s.commentsBefore q = s.commentsBefore p) : p = q := by
  have hge : ∀ {p}, s.LeftAt pos p → pos ≤ p := by
    rintro p (rfl | ⟨k, hk, -, -, rfl⟩)
    · exact Nat.le_refl _
    · exact Nat.le_succ_of_le hk
  rcases Nat.lt_trichotomy p q with h | h | h
  · exact absurd hc (Nat.ne_of_lt (hq.commentsBefore_lt (hge hp) h hs))
  · exact h
  · exact absurd hc.symm (Nat.ne_of_lt (hp.commentsBefore_lt (hge hq) h hs.symm))

/-! ### Tokens ahead -/

theorem hop_succ (n i : Nat) :
    s.hop (n + 1) i = (s.hop n i).bind fun j => if j = s.size then none else some (s.settle (j + 1)) := by
  induction n generalizing i with
  | zero => simp [hop]
  | succ n ih =>
    rw [hop]
    split
    · rename_i h
      rw [hop, if_pos h, Option.bind_none]
    · rename_i h
      rw [ih]
      conv_rhs => rw [hop, if_neg h]

theorem lt_of_hop_succ {n i j k : Nat} (hj : s.hop n i = some j) (hk : s.hop (n + 1) i = some k)
    (hjs : j ≤ s.size) : j < k := by
  rw [hop_succ, hj, Option.bind_some] at hk
  split at hk
  · cases hk
  · cases hk
    exact Nat.lt_of_lt_of_le (Nat.lt_succ_self j) (s.le_settle (by omega))

theorem ahead?_le_size {pos n j : Nat} (h : s.ahead? pos n = some j) : j ≤ s.size := by
  cases n with
  | zero =>
    cases h
    exact s.settle_le_size pos
  | succ n =>
    unfold ahead? at h
    rw [hop_succ] at h
    obtain ⟨k, -, h⟩ := Option.bind_eq_some_iff.1 h
    split at h
    · cases h
    · cases h
      exact s.settle_le_size _

/-- Tokens further ahead stand further on. -/
theorem ahead?_lt {pos m n i j : Nat} (hi : s.ahead? pos m = some i) (hj : s.ahead? pos n = some j)
    (hmn : m < n) : i < j := by
  induction n generalizing j with
  | zero => omega
  | succ n ih =>
    rcases hk : s.ahead? pos n with _ | k
    · unfold ahead? at hj hk
      rw [hop_succ, hk] at hj
      cases hj
    · have hkj := lt_of_hop_succ hk hj (ahead?_le_size hk)
      rcases Nat.lt_or_ge m n with h | h
      · exact Nat.lt_trans (ih hk h) hkj
      · obtain rfl : m = n := by omega
        rw [hi] at hk
        cases hk
        exact hkj

theorem ahead?_lt_iff {pos m n i j : Nat} (hi : s.ahead? pos m = some i) (hj : s.ahead? pos n = some j) :
    i < j ↔ m < n := by
  refine ⟨fun h => ?_, ahead?_lt hi hj⟩
  rcases Nat.lt_trichotomy m n with hmn | rfl | hmn
  · exact hmn
  · rw [hi] at hj
    cases hj
    exact absurd h (Nat.lt_irrefl _)
  · exact absurd (Nat.lt_trans h (ahead?_lt hj hi hmn)) (Nat.lt_irrefl _)

theorem ahead?_succ {pos n p : Nat} (h : s.ahead? pos n = some (s.settle p)) (he : s.atEnd p = false) :
    s.ahead? pos (n + 1) = some (s.settle (s.settle p + 1)) := by
  unfold ahead? at h ⊢
  rw [hop_succ, h, Option.bind_some, if_neg (Nat.ne_of_lt (s.settle_lt_of_not_atEnd he))]

end Stream

/-! ### The same outlook -/

/-- Places behind the same tokens and comments, with the same outlook up to the limit. `d` tokens were
taken since the cursors. -/
structure InView (s s' : Stream) (limit pos pos' d p p' : Nat) : Prop where
  taken : s.ahead? pos d = some (s.settle p)
  taken' : s'.ahead? pos' d = some (s'.settle p')
  le : d ≤ limit
  left : s.LeftAt pos p
  left' : s'.LeftAt pos' p'
  inside : p ≤ s.size
  inside' : p' ≤ s'.size
  outlook : s.outlook (limit - d + 1) p = s'.outlook (limit - d + 1) p'

namespace InView

variable {s s' : Stream} {limit pos pos' d p p' : Nat} (h : InView s s' limit pos pos' d p p')
include h

theorem commentsBefore : s.commentsBefore p = s'.commentsBefore p' :=
  (Prod.mk.inj (List.cons.inj h.outlook).1).1

theorem kind : s.kind p = s'.kind p' := (Prod.mk.inj (List.cons.inj h.outlook).1).2

theorem comment? : Option.Rel (fun j j' => s.commentsBefore (j + 1) = s'.commentsBefore (j' + 1))
    (s.comment? p) (s'.comment? p') :=
  Stream.comment?_rel h.inside h.inside' h.commentsBefore

theorem symm : InView s' s limit pos' pos d p' p :=
  ⟨h.taken', h.taken, h.le, h.left', h.left, h.inside', h.inside, h.outlook.symm⟩

/-- Who stands at the same place on one side does on the other. -/
theorem eq {e q q' : Nat} (k : InView s s' limit pos pos' e q q') (hpq : p = q) : p' = q' := by
  subst hpq
  have hde : d = e := by
    have h1 := Stream.ahead?_lt_iff h.taken k.taken
    have h2 := Stream.ahead?_lt_iff k.taken h.taken
    omega
  subst hde
  refine h.left'.eq_of_commentsBefore k.left' (Option.some.inj (k.taken'.symm.trans h.taken')) ?_
  rw [← h.commentsBefore, k.commentsBefore]

theorem lookahead (c : Bool) : s'.lookahead p' c = s.lookahead p c := by
  have hrel := h.comment?
  unfold Stream.lookahead
  rw [h.kind]
  generalize s.comment? p = j at hrel ⊢
  generalize s'.comment? p' = j' at hrel ⊢
  cases hrel <;> rfl

theorem comment {i i' : Nat} (hi : s.comment? p = some i) (hi' : s'.comment? p' = some i') :
    InView s s' limit pos pos' d (i + 1) (i' + 1) := by
  obtain ⟨hpi, hlt, hch⟩ := s.comment?_some hi
  obtain ⟨hpi', hlt', hch'⟩ := s'.comment?_some hi'
  have hset := s.settle_eq_of_between (Nat.le_succ_of_le hpi) hlt
  have hset' := s'.settle_eq_of_between (Nat.le_succ_of_le hpi') hlt'
  have hin := Nat.lt_of_lt_of_le hlt (s.settle_le_size p)
  have hin' := Nat.lt_of_lt_of_le hlt' (s'.settle_le_size p')
  have hge : pos ≤ p := by
    rcases h.left with rfl | ⟨k, hk, -, -, rfl⟩ <;> omega
  have hge' : pos' ≤ p' := by
    rcases h.left' with rfl | ⟨k, hk, -, -, rfl⟩ <;> omega
  refine ⟨by rw [hset, h.taken], by rw [hset', h.taken'], h.le,
    .inr ⟨i, Nat.le_trans hge hpi, hin, by simp [hch], rfl⟩,
    .inr ⟨i', Nat.le_trans hge' hpi', hin', by simp [hch'], rfl⟩, hin, hin', ?_⟩
  have hrel := h.comment?
  rw [hi, hi'] at hrel
  have hout := h.outlook
  cases hrel with
  | some hc =>
    rw [Stream.outlook, Stream.outlook] at hout ⊢
    rw [hc, Stream.kind, Stream.kind, Stream.current, Stream.current, Stream.atEnd, Stream.atEnd, hset, hset']
    exact congrArg₂ _ (congrArg _ h.kind) (List.cons.inj hout).2

variable (hs : s.Ends) (hs' : s'.Ends)
include hs hs'

theorem atEnd : s'.atEnd p' = s.atEnd p := by
  rw [Bool.eq_iff_iff, hs.atEnd_iff, hs'.atEnd_iff, h.kind]

theorem skip (hd : d < limit) (he : s.atEnd p = false) :
    InView s s' limit pos pos' (d + 1) (s.settle p + 1) (s'.settle p' + 1) := by
  have he' := (h.atEnd hs hs').trans he
  have hlt := s.settle_lt_of_not_atEnd he
  have hlt' := s'.settle_lt_of_not_atEnd he'
  have hge : pos ≤ s.settle p := by
    have := s.le_settle h.inside
    rcases h.left with rfl | ⟨k, hk, -, -, rfl⟩ <;> omega
  have hge' : pos' ≤ s'.settle p' := by
    have := s'.le_settle h.inside'
    rcases h.left' with rfl | ⟨k, hk, -, -, rfl⟩ <;> omega
  refine ⟨Stream.ahead?_succ h.taken he, Stream.ahead?_succ h.taken' he', hd,
    .inr ⟨_, hge, hlt, by simp [s.channel_settle hlt], rfl⟩,
    .inr ⟨_, hge', hlt', by simp [s'.channel_settle hlt'], rfl⟩, hlt, hlt', ?_⟩
  have hout := h.outlook
  rw [show limit - d + 1 = (limit - (d + 1) + 1) + 1 by omega, Stream.outlook_succ he,
    Stream.outlook_succ he'] at hout
  exact (List.cons.inj hout).2

end InView

namespace Resolver

end Resolver

end KermlText
