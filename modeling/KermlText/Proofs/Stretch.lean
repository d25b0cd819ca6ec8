import KermlText.Stream

/-! Stretches of a stream: the tokens between two places. What a reader took of a stretch is `Kept`
when it is in the order of the stream, holds every default-channel token and no hidden one. Such
readings can be put one behind the other, so a reader is judged by its single steps. -/

namespace KermlText

namespace Stream

variable (s : Stream)

/-- The tokens from place `i` up to place `j`. -/
def stretch (i j : Nat) : List Token := (s.tokens.toList.drop i).take (j - i)

theorem stretch_self (i : Nat) : s.stretch i i = [] := by simp [stretch]

theorem stretch_all : s.stretch 0 s.size = s.tokens.toList := by
  unfold stretch
  rw [List.drop_zero, Nat.sub_zero, size, ← Array.length_toList, List.take_length]

theorem stretch_append {i j k : Nat} (hij : i ≤ j) (hjk : j ≤ k) :
    s.stretch i j ++ s.stretch j k = s.stretch i k := by
  unfold stretch
  rw [show k - i = (j - i) + (k - j) by omega, List.take_add, List.drop_drop,
    show i + (j - i) = j by omega]

theorem token_of_lt {i : Nat} (h : i < s.size) : s.tokens.toList[i]? = some (s.token i) := by
  have h' : i < s.tokens.size := h
  simp [token, h']

theorem stretch_succ {i : Nat} (h : i < s.size) : s.stretch i (i + 1) = [s.token i] := by
  have hd := List.drop_eq_getElem_cons (l := s.tokens.toList) (i := i) (by simpa [size] using h)
  have ht := s.token_of_lt h
  rw [List.getElem?_eq_getElem (by simpa [size] using h)] at ht
  simp only [stretch, hd, Nat.add_sub_cancel_left, List.take_succ_cons, List.take_zero]
  rw [Option.some.inj ht]

theorem mem_stretch {i j : Nat} {t : Token} (h : t ∈ s.stretch i j) :
    ∃ k, i ≤ k ∧ k < j ∧ k < s.size ∧ s.token k = t := by
  unfold stretch at h
  obtain ⟨k, hk, rfl⟩ := List.getElem_of_mem h
  simp only [List.length_take, List.length_drop, Array.length_toList] at hk
  have hlt : i + k < s.size := by unfold size; omega
  refine ⟨i + k, by omega, by omega, hlt, ?_⟩
  have ht := s.token_of_lt hlt
  rw [List.getElem?_eq_getElem (by simp; unfold size at hlt; omega)] at ht
  simp only [List.getElem_take, List.getElem_drop]
  exact (Option.some.inj ht).symm

/-! ### Settling -/

theorem channel_ne_of_lt_settleWithin (n i : Nat) {k : Nat} (hi : i ≤ k)
    (hk : k < s.settleWithin n i) : (s.token k).channel ≠ .default := by
  induction n generalizing i with
  | zero => simp [settleWithin] at hk; omega
  | succ n ih =>
    unfold settleWithin at hk
    split at hk
    · omega
    · rcases Nat.eq_or_lt_of_le hi with rfl | hlt
      · assumption
      · exact ih (i + 1) hlt hk

/-- No default-channel token stands in front of the place where a stream settles. -/
theorem channel_ne_of_lt_settle {i k : Nat} (hi : i ≤ k) (hk : k < s.settle i) :
    (s.token k).channel ≠ .default := by
  unfold settle at hk
  exact s.channel_ne_of_lt_settleWithin _ _ (by omega) hk

theorem settle_eq_of_between {i k : Nat} (hi : i ≤ k) (hk : k ≤ s.settle i) :
    s.settle k = s.settle i := by
  have hk' : k ≤ s.size := Nat.le_trans hk (s.settle_le_size i)
  have hle := s.le_settle hk'
  rcases Nat.lt_trichotomy (s.settle k) (s.settle i) with h | h | h
  · exact absurd (s.channel_settle (Nat.lt_of_lt_of_le h (s.settle_le_size i)))
      (s.channel_ne_of_lt_settle (Nat.le_trans hi hle) h)
  · exact h
  · exact absurd (s.channel_settle (Nat.lt_of_lt_of_le h (s.settle_le_size k)))
      (s.channel_ne_of_lt_settle hk h)

@[simp] theorem settle_settle (i : Nat) : s.settle (s.settle i) = s.settle i := by
  rcases Nat.le_total i s.size with h | h
  · exact s.settle_eq_of_between (s.le_settle h) (Nat.le_refl _)
  · have hi : s.settle i = s.size := by
      unfold settle; simp [Nat.sub_eq_zero_of_le h, settleWithin, Nat.min_eq_right h]
    rw [hi]
    exact Nat.le_antisymm (s.settle_le_size _) (s.le_settle (Nat.le_refl _))

theorem settle_mono {i j : Nat} (h : i ≤ j) (hj : j ≤ s.size) : s.settle i ≤ s.settle j := by
  rcases Nat.le_total j (s.settle i) with hle | hle
  · exact Nat.le_of_eq (s.settle_eq_of_between h hle).symm
  · exact Nat.le_trans hle (s.le_settle hj)

theorem atEnd_iff {i : Nat} : s.atEnd i = true ↔ s.settle i = s.size := by simp [atEnd]

theorem settle_lt_of_not_atEnd {i : Nat} (h : s.atEnd i = false) : s.settle i < s.size := by
  have hle := s.settle_le_size i
  have : s.settle i ≠ s.size := by simpa [atEnd] using h
  omega

theorem lt_settle_succ {i : Nat} (h : s.atEnd i = false) : s.settle i < s.settle (s.settle i + 1) :=
  s.le_settle (s.settle_lt_of_not_atEnd h)

theorem next?_of_not_atEnd {i : Nat} (h : s.atEnd i = false) :
    s.next? i = some (s.settle i + 1) := by simp [next?, h]

theorem next?_of_atEnd {i : Nat} (h : s.atEnd i = true) : s.next? i = none := by simp [next?, h]

@[simp] theorem kind_eof_ofTokens (ts : List Token) : (ofTokens ts).eof.kind = .eof := by
  unfold ofTokens
  dsimp only
  split <;> rfl

variable {s}

/-- At the end the current token is the mark for it. -/
theorem current_of_atEnd {i : Nat} (h : s.atEnd i = true) : s.current i = s.eof := by
  simp [current, token, s.atEnd_iff.1 h, size]

theorem not_atEnd_of_kind (hs : s.eof.kind = .eof) {i : Nat} (h : s.kind i ≠ .eof) :
    s.atEnd i = false := by
  rcases hb : s.atEnd i with _ | _
  · rfl
  · rw [kind, current_of_atEnd hb] at h
    exact absurd hs h

theorem not_atEnd_of_lookahead (hs : s.eof.kind = .eof) {i : Nat} {c : Bool}
    (h1 : s.lookahead i c ≠ .eof) (h2 : s.lookahead i c ≠ .blockComment) : s.atEnd i = false := by
  unfold lookahead at h1 h2
  split at h1
  · rename_i hc; simp [hc] at h2
  · exact not_atEnd_of_kind hs h1

/-- If no token that counts looks like the end, nothing in front of the end does. -/
theorem kind_ne_eof_ofTokens {ts : List Token}
    (hts : ∀ t ∈ ts, t.channel = .default → t.kind ≠ .eof) (i : Nat)
    (hi : (ofTokens ts).atEnd i = false) : (ofTokens ts).kind i ≠ .eof := by
  have hlt := (ofTokens ts).settle_lt_of_not_atEnd hi
  have hm := List.mem_of_getElem? ((ofTokens ts).token_of_lt hlt)
  exact hts _ hm ((ofTokens ts).channel_settle hlt)

variable (s)

/-! ### Comments -/

theorem commentWithin_some {n i j : Nat} (h : s.commentWithin n i = some j) :
    i ≤ j ∧ j < i + n ∧ (s.token j).channel = .comment := by
  induction n generalizing i with
  | zero => simp [commentWithin] at h
  | succ n ih =>
    unfold commentWithin at h
    split at h
    · cases h; exact ⟨Nat.le_refl _, by omega, by assumption⟩
    · obtain ⟨h1, h2, h3⟩ := ih h; exact ⟨by omega, by omega, h3⟩

/-- A comment that is seen stands in front of the current token. -/
theorem comment?_some {i j : Nat} (h : s.comment? i = some j) :
    i ≤ j ∧ j < s.settle i ∧ (s.token j).channel = .comment := by
  obtain ⟨h1, h2, h3⟩ := s.commentWithin_some h
  exact ⟨h1, by omega, h3⟩

/-! ### What a reader keeps -/

/-- `ts` is what was taken between the places `i` and `j`, with nothing lost that a rule can see. -/
structure Kept (i : Nat) (ts : List Token) (j : Nat) : Prop where
  le : i ≤ j
  le_size : j ≤ s.size
  sublist : ts.Sublist (s.stretch i j)
  default : ts.filter (fun t => t.channel = .default) =
    (s.stretch i j).filter (fun t => t.channel = .default)
  visible : ∀ t ∈ ts, t.channel ≠ .hidden

namespace Kept

variable {s}

theorem refl {i : Nat} (h : i ≤ s.size) : s.Kept i [] i :=
  ⟨Nat.le_refl i, h, by simp, by simp [stretch_self], by simp⟩

theorem trans {i j k : Nat} {ts us : List Token} (h1 : s.Kept i ts j) (h2 : s.Kept j us k) :
    s.Kept i (ts ++ us) k := by
  have hs := s.stretch_append h1.le h2.le
  refine ⟨Nat.le_trans h1.le h2.le, h2.le_size, ?_, ?_, ?_⟩
  · rw [← hs]; exact h1.sublist.append h2.sublist
  · rw [← hs, List.filter_append, List.filter_append, h1.default, h2.default]
  · intro t ht
    rcases List.mem_append.1 ht with ht | ht
    · exact h1.visible t ht
    · exact h2.visible t ht

/-- Nothing was taken where no default-channel token stands. -/
theorem gap {i j : Nat} (hij : i ≤ j) (hj : j ≤ s.size)
    (h : ∀ k, i ≤ k → k < j → (s.token k).channel ≠ .default) : s.Kept i [] j := by
  refine ⟨hij, hj, by simp, ?_, by simp⟩
  symm
  rw [List.filter_nil, List.filter_eq_nil_iff]
  intro t ht
  obtain ⟨k, hik, hkj, -, rfl⟩ := s.mem_stretch ht
  simpa using h k hik hkj

theorem single {i : Nat} (h : i < s.size) (hc : (s.token i).channel ≠ .hidden) :
    s.Kept i [s.token i] (i + 1) := by
  refine ⟨Nat.le_succ i, h, ?_, ?_, by simpa using hc⟩
  · simp [s.stretch_succ h]
  · rw [s.stretch_succ h]

theorem settled {i : Nat} (h : i ≤ s.size) : s.Kept i [] (s.settle i) :=
  gap (s.le_settle h) (s.settle_le_size i) fun _ hik hk => s.channel_ne_of_lt_settle hik hk

/-- The current token is taken. -/
theorem current {i : Nat} (h : i ≤ s.size) (he : s.atEnd i = false) :
    s.Kept i [s.current i] (s.settle i + 1) := by
  have hlt := s.settle_lt_of_not_atEnd he
  have hc := s.channel_settle hlt
  exact (settled h).trans (single hlt (by simp [hc]))

/-- A comment in front of the current token is taken. -/
theorem comment {i j : Nat} (h : s.comment? i = some j) : s.Kept i [s.token j] (j + 1) := by
  obtain ⟨hij, hj, hc⟩ := s.comment?_some h
  have hlt : j < s.size := Nat.lt_of_lt_of_le hj (s.settle_le_size i)
  refine (gap hij (Nat.le_of_lt hlt) fun k hik hk => ?_).trans (single hlt (by simp [hc]))
  exact s.channel_ne_of_lt_settle hik (Nat.lt_trans hk hj)

/-- A reader that did not move took nothing. -/
theorem eq_nil {i : Nat} {ts : List Token} (h : s.Kept i ts i) : ts = [] := by
  have := h.sublist
  rw [stretch_self] at this
  exact List.sublist_nil.1 this

/-- A reader that got to the end kept the stream. -/
theorem whole {i : Nat} {ts : List Token} (h : s.Kept 0 ts i) (he : s.atEnd i = true) :
    s.Kept 0 ts s.size := by
  have hi : s.Kept i [] s.size := (s.atEnd_iff.1 he) ▸ settled h.le_size
  simpa using h.trans hi

end Kept

end Stream

end KermlText
