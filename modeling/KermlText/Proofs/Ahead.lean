import KermlText.Proofs.Stretch

/-! What lies ahead of a place, as a list of kinds. Lookahead sees the kind of the next default-channel
token, and where there are no comments it sees nothing else, so what a trial does at a place depends on
this list alone. -/

namespace KermlText

/-- The kind that is seen in front of `w`. -/
def nextKind (w : List Kind) : Kind := w.headD .eof

@[simp] theorem nextKind_nil : nextKind [] = .eof := rfl

@[simp] theorem nextKind_cons (k : Kind) (w : List Kind) : nextKind (k :: w) = k := rfl

/-- The kinds of the default-channel tokens in a list. -/
def kindsOf (ts : List Token) : List Kind :=
  (ts.filter fun t => t.channel = .default).map (·.kind)

theorem kindsOf_append (ts us : List Token) : kindsOf (ts ++ us) = kindsOf ts ++ kindsOf us := by
  simp [kindsOf]

namespace Stream

variable (s : Stream)

/-- The kinds of the default-channel tokens from a place on. -/
def ahead (pos : Nat) : List Kind := kindsOf (s.stretch pos s.size)

theorem ahead_ofTokens (ts : List Token) : (ofTokens ts).ahead 0 = kindsOf ts := by
  unfold ahead
  rw [stretch_all]
  rfl

variable {s}

/-- Tokens that do not count make no difference. -/
theorem ahead_eq_of_gap {i j : Nat} (hij : i ≤ j) (hj : j ≤ s.size)
    (h : ∀ k, i ≤ k → k < j → (s.token k).channel ≠ .default) : s.ahead i = s.ahead j := by
  have hk := (Kept.gap hij hj h).default
  rw [List.filter_nil] at hk
  unfold ahead
  rw [← s.stretch_append hij hj, kindsOf_append]
  simp [kindsOf, ← hk]

theorem ahead_of_size_le {i : Nat} (h : s.size ≤ i) : s.ahead i = [] := by
  simp [ahead, stretch, Nat.sub_eq_zero_of_le h, kindsOf]

theorem settle_of_size_le {i : Nat} (h : s.size ≤ i) : s.settle i = s.size := by
  unfold settle
  simp [Nat.sub_eq_zero_of_le h, settleWithin, Nat.min_eq_right h]

/-- Short of the end, the next token is never behind. -/
theorem le_settle_of_not_atEnd {i : Nat} (h : s.atEnd i = false) : i ≤ s.settle i := by
  have hlt := s.settle_lt_of_not_atEnd h
  rcases Nat.le_total i s.size with hi | hi
  · exact s.le_settle hi
  · rw [settle_of_size_le hi] at hlt
    exact absurd hlt (Nat.lt_irrefl _)

@[simp] theorem ahead_settle (i : Nat) : s.ahead (s.settle i) = s.ahead i := by
  rcases Nat.le_total i s.size with h | h
  · exact (ahead_eq_of_gap (s.le_settle h) (s.settle_le_size i) fun _ hik hk =>
      s.channel_ne_of_lt_settle hik hk).symm
  · rw [settle_of_size_le h, ahead_of_size_le h, ahead_of_size_le (Nat.le_refl _)]

theorem ahead_of_atEnd {i : Nat} (h : s.atEnd i = true) : s.ahead i = [] := by
  rw [← ahead_settle, s.atEnd_iff.1 h, ahead_of_size_le (Nat.le_refl _)]

theorem ahead_of_not_atEnd {i : Nat} (h : s.atEnd i = false) :
    s.ahead i = s.kind i :: s.ahead (s.settle i + 1) := by
  have hlt := s.settle_lt_of_not_atEnd h
  rw [← ahead_settle]
  unfold ahead
  rw [← s.stretch_append (Nat.le_succ _) hlt, s.stretch_succ hlt, kindsOf_append]
  simp [kindsOf, s.channel_settle hlt, kind, current]

theorem atEnd_iff_ahead {i : Nat} : s.atEnd i = true ↔ s.ahead i = [] := by
  constructor
  · exact ahead_of_atEnd
  · intro h
    rcases hb : s.atEnd i with _ | _
    · simp [ahead_of_not_atEnd hb] at h
    · rfl

theorem kind_eq_nextKind (hs : s.eof.kind = .eof) (i : Nat) : s.kind i = nextKind (s.ahead i) := by
  rcases hb : s.atEnd i with _ | _
  · rw [ahead_of_not_atEnd hb, nextKind_cons]
  · rw [ahead_of_atEnd hb, kind, current_of_atEnd hb, hs, nextKind_nil]

/-- If a kind lies ahead, its token is taken by moving behind the place where the stream settles. -/
theorem of_ahead_cons {i : Nat} {k : Kind} {w : List Kind} (h : s.ahead i = k :: w) :
    s.atEnd i = false ∧ s.kind i = k ∧ s.ahead (s.settle i + 1) = w := by
  rcases hb : s.atEnd i with _ | _
  · rw [ahead_of_not_atEnd hb] at h
    obtain ⟨hk, hw⟩ := List.cons.inj h
    exact ⟨rfl, hk, hw⟩
  · simp [ahead_of_atEnd hb] at h

theorem ahead_skip {i : Nat} {k : Kind} {w : List Kind} (h : s.ahead i = k :: w) :
    s.ahead (s.skip i) = w := by
  obtain ⟨he, -, hw⟩ := of_ahead_cons h
  simpa [skip, s.next?_of_not_atEnd he] using hw

/-- All that lies ahead stands in the stream. -/
theorem mem_ahead {i : Nat} {k : Kind} (h : k ∈ s.ahead i) :
    ∃ t ∈ s.tokens.toList, t.channel = .default ∧ t.kind = k := by
  obtain ⟨t, ht, rfl⟩ := List.mem_map.1 h
  obtain ⟨hm, hc⟩ := List.mem_filter.1 ht
  obtain ⟨j, -, -, hj, rfl⟩ := s.mem_stretch hm
  exact ⟨_, List.mem_of_getElem? (s.token_of_lt hj), by simpa using hc, rfl⟩

/-! ### Streams without comments -/

variable (s)

/-- No token of the stream is a comment. -/
def Silent : Prop := ∀ t ∈ s.tokens.toList, t.channel ≠ .comment

variable {s}

theorem Silent.comment? (h : s.Silent) (i : Nat) : s.comment? i = none := by
  rcases hc : s.comment? i with _ | j
  · rfl
  · obtain ⟨-, hj, hch⟩ := s.comment?_some hc
    have hlt := Nat.lt_of_lt_of_le hj (s.settle_le_size i)
    exact absurd hch (h _ (List.mem_of_getElem? (s.token_of_lt hlt)))

theorem Silent.lookahead (h : s.Silent) (hs : s.eof.kind = .eof) (i : Nat) (c : Bool) :
    s.lookahead i c = nextKind (s.ahead i) := by
  rw [← kind_eq_nextKind hs]
  simp [Stream.lookahead, h.comment? i]

/-! ### The horizon -/

theorem hop_getD (n i : Nat) (hi : i ≤ s.size) (hn : s.size ≤ i + n) :
    (s.hop n i).getD s.size = s.size := by
  induction n generalizing i with
  | zero => simp only [hop, Option.getD_some]; omega
  | succ n ih =>
    unfold hop
    split
    · rfl
    · rename_i hne
      have hle := s.le_settle (i := i + 1) (by omega)
      exact ih _ (s.settle_le_size _) (by omega)

/-- A trial that may look at as many tokens as there are may look at all. -/
theorem horizon_eq_size {n : Nat} (h : s.size ≤ n) (i : Nat) : s.horizon i n = s.size :=
  hop_getD n _ (s.settle_le_size i) (by omega)

end Stream

end KermlText
