import KermlText.Proofs.Stretch
import KermlText.Parse.Recovery

/-! Streams with tokens left out. Every default-channel token is still there, so who looks for the next
of them finds the same one, at another place. Places are told apart where a reader can come to stand:
at the start, and behind a token that is still there. -/

namespace KermlText

namespace Stream

/-- `s'` is `s` without the tokens that are not in `keep`. What is at place `i` of `s` is at place `f i`
of `s'`. -/
structure Thins (s s' : Stream) (keep : Nat → Prop) (f : Nat → Nat) : Prop where
  zero : f 0 = 0
  size : f s.size = s'.size
  kept : ∀ i < s.size, keep i → f (i + 1) = f i + 1 ∧ s'.token (f i) = s.token i
  dropped : ∀ i < s.size, ¬keep i → f (i + 1) = f i ∧ (s.token i).channel ≠ .default
  eof : s.eof.kind = .eof
  eof' : s'.eof.kind = .eof

/-- Where a reader that takes only tokens in `keep` can come to stand. -/
def Stop (s : Stream) (keep : Nat → Prop) (i : Nat) : Prop :=
  i = 0 ∨ ∃ k < s.size, keep k ∧ i = k + 1

theorem Stop.le_size {s : Stream} {keep : Nat → Prop} {i : Nat} (h : s.Stop keep i) : i ≤ s.size := by
  rcases h with rfl | ⟨k, hk, -, rfl⟩
  · exact Nat.zero_le _
  · exact hk

theorem settle_eq_self {s : Stream} {i : Nat} (hi : i < s.size) (hc : (s.token i).channel = .default) :
    s.settle i = i := by
  have hle := s.le_settle (Nat.le_of_lt hi)
  rcases Nat.eq_or_lt_of_le hle with h | h
  · exact h.symm
  · exact absurd hc (s.channel_ne_of_lt_settle (Nat.le_refl i) h)

theorem settle_size (s : Stream) : s.settle s.size = s.size :=
  Nat.le_antisymm (s.settle_le_size _) (s.le_settle (Nat.le_refl _))

theorem lt_settle {s : Stream} {i : Nat} (hi : i < s.size) (hc : (s.token i).channel ≠ .default) :
    i < s.settle i := by
  refine Nat.lt_of_le_of_ne (s.le_settle (Nat.le_of_lt hi)) fun h => hc ?_
  have := s.channel_settle (i := i) (h ▸ hi)
  rwa [← h] at this

theorem settle_succ {s : Stream} {i : Nat} (hi : i < s.size) (hc : (s.token i).channel ≠ .default) :
    s.settle (i + 1) = s.settle i :=
  s.settle_eq_of_between (Nat.le_succ i) (lt_settle hi hc)

theorem comment?_eq_none {s : Stream} {i : Nat} (h : s.settle i = i) : s.comment? i = none := by
  simp [comment?, h, commentWithin]

/-- The first comment is here, or it is the first one behind. -/
theorem comment?_of_lt {s : Stream} {i : Nat} (h : i < s.settle i) :
    s.comment? i = if (s.token i).channel = .comment then some i else s.comment? (i + 1) := by
  unfold comment?
  rw [s.settle_eq_of_between (Nat.le_succ i) h, show s.settle i - i = (s.settle i - (i + 1)) + 1 by omega,
    commentWithin]

/-- More rounds than there are tokens change nothing. -/
theorem placesUpTo_eq {s : Stream} (sync : KindSet) {n m pos : Nat} (hn : s.size ≤ s.settle pos + n)
    (hm : s.size ≤ s.settle pos + m) : s.placesUpTo sync n pos = s.placesUpTo sync m pos := by
  induction n generalizing m pos with
  | zero =>
    have he : s.atEnd pos = true := s.atEnd_iff.2 (Nat.le_antisymm (s.settle_le_size _) hn)
    cases m <;> simp [placesUpTo, s.next?_of_atEnd he]
  | succ n ih =>
    cases m with
    | zero =>
      have he : s.atEnd pos = true := s.atEnd_iff.2 (Nat.le_antisymm (s.settle_le_size _) hm)
      simp [placesUpTo, s.next?_of_atEnd he]
    | succ m =>
      unfold placesUpTo
      rcases he : s.atEnd pos with _ | _
      · have := s.lt_settle_succ he
        rw [s.next?_of_not_atEnd he]
        dsimp only
        rw [ih (m := m) (by omega) (by omega)]
      · simp [s.next?_of_atEnd he]

namespace Thins

variable {s s' : Stream} {keep : Nat → Prop} {f : Nat → Nat} (h : s.Thins s' keep f)
include h

theorem keep_of_default {i : Nat} (hi : i < s.size) (hc : (s.token i).channel = .default) : keep i :=
  Classical.byContradiction fun hk => (h.dropped i hi hk).2 hc

theorem le_succ {i : Nat} (hi : i < s.size) : f i ≤ f (i + 1) := by
  by_cases hk : keep i
  · exact (h.kept i hi hk).1 ▸ Nat.le_succ _
  · exact Nat.le_of_eq (h.dropped i hi hk).1.symm

theorem mono {i j : Nat} (hij : i ≤ j) (hj : j ≤ s.size) : f i ≤ f j := by
  obtain ⟨n, rfl⟩ := Nat.exists_eq_add_of_le hij
  clear hij
  induction n with
  | zero => exact Nat.le_refl _
  | succ n ih => exact Nat.le_trans (ih (Nat.le_of_succ_le hj)) (h.le_succ hj)

theorem le_self {i : Nat} (hi : i ≤ s.size) : f i ≤ i := by
  induction i with
  | zero => exact Nat.le_of_eq h.zero
  | succ i ih =>
    have hle := ih (Nat.le_of_succ_le hi)
    by_cases hk : keep i
    · exact (h.kept i hi hk).1 ▸ Nat.succ_le_succ hle
    · exact (h.dropped i hi hk).1 ▸ Nat.le_succ_of_le hle

theorem le_size {i : Nat} (hi : i ≤ s.size) : f i ≤ s'.size := h.size ▸ h.mono hi (Nat.le_refl _)

/-! ### Places that are told apart -/

theorem lt_of_keep {i j : Nat} (hk : keep i) (hij : i < j) (hj : j ≤ s.size) : f i < f j := by
  have := h.mono (Nat.succ_le_of_lt hij) hj
  rw [Nat.succ_eq_add_one, (h.kept i (by omega) hk).1] at this
  exact this

theorem lt_iff_of_keep {i j : Nat} (hi : i < s.size → keep i) (his : i ≤ s.size) (hjs : j ≤ s.size) :
    f i < f j ↔ i < j := by
  constructor
  · intro hlt
    rcases Nat.lt_or_ge i j with hij | hij
    · exact hij
    · exact absurd hlt (Nat.not_lt.2 (h.mono hij his))
  · intro hij
    exact h.lt_of_keep (hi (by omega)) hij hjs

theorem lt_iff_of_settled {i j : Nat} (hi : s.settle i = i) (hj : s.settle j = j) :
    f i < f j ↔ i < j := by
  refine h.lt_iff_of_keep (fun hlt => h.keep_of_default hlt ?_) (hi ▸ s.settle_le_size i)
    (hj ▸ s.settle_le_size j)
  have := s.channel_settle (hi.symm ▸ hlt)
  rwa [hi] at this

theorem eq_iff_of_settled {i j : Nat} (hi : s.settle i = i) (hj : s.settle j = j) :
    f i = f j ↔ i = j := by
  have h1 := h.lt_iff_of_settled hi hj
  have h2 := h.lt_iff_of_settled hj hi
  omega

theorem eq_iff_of_stop {i j : Nat} (hi : s.Stop keep i) (hj : s.Stop keep j) : f i = f j ↔ i = j := by
  refine ⟨fun he => ?_, fun he => he ▸ rfl⟩
  rcases hi with rfl | ⟨k, hk, hkeep, rfl⟩ <;> rcases hj with rfl | ⟨l, hl, hleep, rfl⟩
  · rfl
  · rw [h.zero, (h.kept l hl hleep).1] at he
    exact absurd he (by omega)
  · rw [h.zero, (h.kept k hk hkeep).1] at he
    exact absurd he (by omega)
  · rw [(h.kept k hk hkeep).1, (h.kept l hl hleep).1] at he
    have h1 := h.lt_iff_of_keep (fun _ => hkeep) (Nat.le_of_lt hk) (Nat.le_of_lt hl)
    have h2 := h.lt_iff_of_keep (fun _ => hleep) (Nat.le_of_lt hl) (Nat.le_of_lt hk)
    omega

/-! ### What is seen -/

/-- A token that does not count is passed over, whether or not it is still there. -/
theorem settle_skip {i : Nat} (hi : i < s.size) (hc : (s.token i).channel ≠ .default) :
    s'.settle (f (i + 1)) = s'.settle (f i) := by
  by_cases hk : keep i
  · obtain ⟨hf, ht⟩ := h.kept i hi hk
    have hlt : f i < s'.size := h.size ▸ h.lt_of_keep hk hi (Nat.le_refl _)
    rw [hf]
    exact settle_succ hlt (ht ▸ hc)
  · rw [(h.dropped i hi hk).1]

theorem settle {i : Nat} (hi : i ≤ s.size) : s'.settle (f i) = f (s.settle i) := by
  induction hn : s.size - i generalizing i with
  | zero =>
    obtain rfl : i = s.size := by omega
    rw [s.settle_size, h.size, s'.settle_size]
  | succ n ih =>
    have hlt : i < s.size := by omega
    by_cases hc : (s.token i).channel = .default
    · have hk := h.keep_of_default hlt hc
      have hlt' : f i < s'.size := h.size ▸ h.lt_of_keep hk hlt (Nat.le_refl _)
      rw [settle_eq_self hlt hc, settle_eq_self hlt' ((h.kept i hlt hk).2 ▸ hc)]
    · rw [← settle_succ hlt hc, ← h.settle_skip hlt hc]
      exact ih hlt (by omega)

theorem atEnd {i : Nat} (hi : i ≤ s.size) : s'.atEnd (f i) = s.atEnd i := by
  rw [Bool.eq_iff_iff, s'.atEnd_iff, s.atEnd_iff, h.settle hi, ← h.size,
    h.eq_iff_of_settled (s.settle_settle i) s.settle_size]

theorem current {i : Nat} (hi : i ≤ s.size) (he : s.atEnd i = false) : s'.current (f i) = s.current i := by
  have hlt := s.settle_lt_of_not_atEnd he
  rw [Stream.current, Stream.current, h.settle hi]
  exact (h.kept _ hlt (h.keep_of_default hlt (s.channel_settle hlt))).2

theorem kind {i : Nat} (hi : i ≤ s.size) : s'.kind (f i) = s.kind i := by
  rcases he : s.atEnd i with _ | _
  · rw [Stream.kind, Stream.kind, h.current hi he]
  · have he' := (h.atEnd hi).trans he
    rw [Stream.kind, Stream.kind, current_of_atEnd he, current_of_atEnd he', h.eof, h.eof']

/-- Behind the current token both streams go on in the same way. -/
theorem next {i : Nat} (he : s.atEnd i = false) : f (s.settle i + 1) = f (s.settle i) + 1 := by
  have hlt := s.settle_lt_of_not_atEnd he
  exact (h.kept _ hlt (h.keep_of_default hlt (s.channel_settle hlt))).1

theorem stop_next {i : Nat} (he : s.atEnd i = false) : s.Stop keep (s.settle i + 1) := by
  have hlt := s.settle_lt_of_not_atEnd he
  exact .inr ⟨_, hlt, h.keep_of_default hlt (s.channel_settle hlt), rfl⟩

theorem next? {i : Nat} (hi : i ≤ s.size) : s'.next? (f i) = (s.next? i).map f := by
  rcases he : s.atEnd i with _ | _
  · rw [s.next?_of_not_atEnd he, s'.next?_of_not_atEnd ((h.atEnd hi).trans he), h.settle hi,
      Option.map_some, h.next he]
  · rw [s.next?_of_atEnd he, s'.next?_of_atEnd ((h.atEnd hi).trans he), Option.map_none]

theorem skip {i : Nat} (hi : i ≤ s.size) : s'.skip (f i) = f (s.skip i) := by
  rw [Stream.skip, Stream.skip, h.next? hi]
  cases s.next? i <;> rfl

theorem stop_skip {i : Nat} (hi : s.Stop keep i) : s.Stop keep (s.skip i) := by
  rcases he : s.atEnd i with _ | _
  · simpa [Stream.skip, s.next?_of_not_atEnd he] using h.stop_next he
  · simpa [Stream.skip, s.next?_of_atEnd he] using hi

theorem hop (n : Nat) {i : Nat} (hi : s.settle i = i) : s'.hop n (f i) = (s.hop n i).map f := by
  induction n generalizing i with
  | zero => rfl
  | succ n ih =>
    have his : i ≤ s.size := hi ▸ s.settle_le_size i
    unfold Stream.hop
    by_cases he : i = s.size
    · rw [if_pos he, if_pos (he ▸ h.size), Option.map_none]
    · have he' : f i ≠ s'.size := fun h' =>
        he ((h.eq_iff_of_settled hi s.settle_size).1 (h'.trans h.size.symm))
      have hend : s.atEnd i = false := by
        rw [Bool.eq_false_iff]
        exact fun h' => he (hi.symm.trans (s.atEnd_iff.1 h'))
      have hlt := s.settle_lt_of_not_atEnd hend
      have hn := h.next hend
      rw [hi] at hlt hn
      rw [if_neg he, if_neg he', ← hn, h.settle hlt]
      exact ih (s.settle_settle _)

theorem horizon {i : Nat} (hi : i ≤ s.size) (n : Nat) : s'.horizon (f i) n = f (s.horizon i n) := by
  rw [Stream.horizon, Stream.horizon, ahead?, ahead?, h.settle hi, h.hop n (s.settle_settle i)]
  cases s.hop n (s.settle i) with
  | none => exact h.size.symm
  | some j => rfl

/-! ### What is skipped -/

theorem placesUpTo (sync : KindSet) (n : Nat) {pos : Nat} (hp : pos ≤ s.size) :
    s'.placesUpTo sync n (f pos) = (s.placesUpTo sync n pos).map f := by
  induction n generalizing pos with
  | zero => rfl
  | succ n ih =>
    unfold Stream.placesUpTo
    rw [h.next? hp, h.kind hp]
    rcases he : s.atEnd pos with _ | _
    · rw [s.next?_of_not_atEnd he]
      dsimp only [Option.map_some]
      split
      · rfl
      · rw [List.map_cons, ← h.settle hp, ih (s.settle_lt_of_not_atEnd he)]
    · rw [s.next?_of_atEnd he]
      rfl

/-- The way to the end is shorter. -/
theorem placesUpTo_size (sync : KindSet) {pos : Nat} (hp : pos ≤ s.size) :
    s'.placesUpTo sync s'.size (f pos) = (s.placesUpTo sync s.size pos).map f := by
  rw [← h.placesUpTo sync s.size hp]
  have hle : s'.size ≤ s.size := h.size ▸ h.le_self (Nat.le_refl _)
  exact placesUpTo_eq sync (by omega) (by omega)

/-! ### Comments, where they are still there -/

variable (hk : ∀ i < s.size, (s.token i).channel = .comment → keep i)
include hk

theorem comment? {i : Nat} (hi : i ≤ s.size) : s'.comment? (f i) = (s.comment? i).map f := by
  induction hn : s.size - i generalizing i with
  | zero =>
    obtain rfl : i = s.size := by omega
    rw [h.size, comment?_eq_none s.settle_size, comment?_eq_none s'.settle_size, Option.map_none]
  | succ n ih =>
    have hlt : i < s.size := by omega
    by_cases hc : (s.token i).channel = .default
    · have hs := settle_eq_self hlt hc
      rw [comment?_eq_none hs, comment?_eq_none ((h.settle hi).trans (congrArg f hs)), Option.map_none]
    · rw [comment?_of_lt (lt_settle hlt hc)]
      by_cases hkeep : keep i
      · obtain ⟨hf, ht⟩ := h.kept i hlt hkeep
        have hlt' : f i < s'.size := h.size ▸ h.lt_of_keep hkeep hlt (Nat.le_refl _)
        rw [comment?_of_lt (lt_settle hlt' (ht ▸ hc)), ht]
        split
        · rfl
        · rw [← hf]
          exact ih hlt (by omega)
      · rw [if_neg fun hcc => hkeep (hk i hlt hcc), ← (h.dropped i hlt hkeep).1]
        exact ih hlt (by omega)

theorem stop_comment {i j : Nat} (hj : s.comment? i = some j) :
    s.Stop keep (j + 1) ∧ f (j + 1) = f j + 1 ∧ s'.token (f j) = s.token j := by
  obtain ⟨-, hlt, hc⟩ := s.comment?_some hj
  have hjs : j < s.size := Nat.lt_of_lt_of_le hlt (s.settle_le_size i)
  have hkeep := hk j hjs hc
  exact ⟨.inr ⟨j, hjs, hkeep, rfl⟩, h.kept j hjs hkeep⟩

omit hk in
/-- Who does not look for comments sees the same, and so does who does if they are still there. -/
theorem lookahead {c : Bool} (hc : c = true → ∀ i < s.size, (s.token i).channel = .comment → keep i)
    {i : Nat} (hi : i ≤ s.size) : s'.lookahead (f i) c = s.lookahead i c := by
  unfold Stream.lookahead
  rw [h.kind hi]
  cases c with
  | false => rfl
  | true => rw [h.comment? (hc rfl) hi, Option.isSome_map]

end Thins

end Stream

end KermlText
