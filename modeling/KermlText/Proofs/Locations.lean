import Mathlib.Data.List.Forall2
import KermlText.Proofs.Matched

/-! Where errors are. A report is about the current token, or about the mark for the end where no token is
left, and the current token is never one further back than before. With a token matched between any two
reports, the tree has at most one error more than it has tokens outside its nodes of skipped tokens. -/

namespace KermlText

/-- The error is about the token: this kind was found at this place. -/
structure SyntaxError.At (e : SyntaxError) (t : Token) : Prop where
  found : e.found = t.kind
  position : e.position = t.position
  start : e.start = t.offset
  stop : e.stop = t.stop

theorem SyntaxError.at_make (code : Code) (r : Rule) (t : Token) (expected : KindSet) :
    (make code r t expected).At t :=
  ⟨rfl, rfl, rfl, rfl⟩

/-- The error is about the `i`-th token, which is one that counts, or about the mark for the end behind the
last one. -/
def SyntaxError.AtPlace (ts : List Token) (e : SyntaxError) (i : Nat) : Prop :=
  (i = ts.length ∧ e.At (Stream.ofTokens ts).eof) ∨
    ∃ t, ts[i]? = some t ∧ t.channel = .default ∧ e.At t

/-- A place where a stream settles is the end of a token list or a token of the default channel. -/
theorem SyntaxError.At.place {ts : List Token} {e : SyntaxError} {i : Nat}
    (h : e.At ((Stream.ofTokens ts).token i)) (hi : (Stream.ofTokens ts).settle i = i) : e.AtPlace ts i := by
  have hsize : (Stream.ofTokens ts).size = ts.length := by simp [Stream.ofTokens, Stream.size]
  rcases Nat.lt_or_eq_of_le (hi ▸ (Stream.ofTokens ts).settle_le_size i) with hlt | heq
  · exact .inr ⟨_, Stream.token_of_lt _ hlt, hi ▸ Stream.channel_settle _ (hi.symm ▸ hlt), h⟩
  · rw [Stream.token, heq, Stream.size, Array.getElem?_size, Option.getD_none] at h
    exact .inl ⟨heq.trans hsize, h⟩

namespace Setup

/-- Errors are at places where the stream settles, in the order of the stream and none of them behind the
current token. -/
structure Located (u : Setup) (x : Session) : Prop where
  inside : x.pos ≤ u.stream.size
  places : ∃ is : List Nat,
    x.errors.Forall₂ (fun e i => u.stream.settle i = i ∧ e.At (u.stream.token i)) is ∧
      is.Pairwise (· ≤ ·) ∧ ∀ i ∈ is, i ≤ u.stream.settle x.pos

namespace Located

variable {u : Setup} {x y : Session}

/-- The current token is never one further back. -/
theorem moved (h : u.Located x) (hle : x.pos ≤ y.pos) (hy : y.pos ≤ u.stream.size)
    (he : y.errors = x.errors) : u.Located y := by
  obtain ⟨is, herrors, hsorted, hbehind⟩ := h.places
  refine ⟨hy, is, he ▸ herrors, hsorted, fun i hi => ?_⟩
  exact Nat.le_trans (hbehind i hi) (u.stream.settle_mono hle hy)

theorem stays (h : u.Located x) (hp : y.pos = x.pos) (he : y.errors = x.errors) : u.Located y :=
  h.moved (Nat.le_of_eq hp.symm) (hp ▸ h.inside) he

/-- A report is about the current token, and no earlier one is about a token behind it. -/
theorem reported (h : u.Located x) (code : Code) (r : Rule) (expected : KindSet) :
    u.Located (u.reported code r expected x) := by
  unfold Setup.reported
  split
  · exact h.stays rfl rfl
  · split
    · exact h
    · obtain ⟨is, herrors, hsorted, hbehind⟩ := h.places
      refine ⟨h.inside, is ++ [u.stream.settle x.pos], ?_, ?_, fun i hi => ?_⟩
      · exact List.rel_append herrors
          (.cons ⟨u.stream.settle_settle _, SyntaxError.at_make _ _ _ _⟩ .nil)
      · refine List.pairwise_append.2 ⟨hsorted, List.pairwise_singleton _ _, fun i hi j hj => ?_⟩
        exact List.mem_singleton.1 hj ▸ hbehind i hi
      · rcases List.mem_append.1 hi with hi | hi
        · exact hbehind i hi
        · exact Nat.le_of_eq (List.mem_singleton.1 hi)

theorem skippedOver (h : u.Located x) (context sync : KindSet) (n : Nat) :
    u.Located (x.skippedOver context (u.stream.placesUpTo sync n x.pos)) := by
  unfold Session.skippedOver
  split
  · exact h
  · rename_i last hl
    have hk := u.stream.kept_placesUpTo h.inside hl
    exact h.moved hk.le hk.le_size rfl

end Located

theorem keeps_located (u : Setup) : u.Keeps u.Located where
  called h := h.stays rfl rfl
  opened h := h.stays rfl rfl
  asked h := h.stays rfl rfl
  again _ h := h.stays rfl rfl
  checked h := h.stays rfl rfl
  decided _ h := h.stays rfl rfl
  matched hle hlt h := h.moved (Nat.le_succ_of_le hle) hlt rfl
  operated hle hlt h := h.moved (Nat.le_succ_of_le hle) hlt rfl
  skipped context sync n h := h.skippedOver context sync n
  reported code r expected h := h.reported code r expected
  recovers h := h.stays rfl rfl

theorem located_last {u : Setup} (hu : u.Regular) (r : Rule) : u.Located (u.last r) :=
  u.keeps_located.last hu ⟨Nat.zero_le _, [], .nil, .nil, nofun⟩ r

end Setup

/-- Each error of a parse is at a token of the default channel or at the mark for the end, in the order of
the text. There is at most one more of them than there are tokens outside nodes of skipped tokens. -/
theorem parseTokens_located {r : Rule} {ts : List Token} {settings : Settings} {p : Parse}
    (h : (parseTokens r ts settings).1 = .ok p) :
    (∃ is, p.errors.Forall₂ (SyntaxError.AtPlace ts) is ∧ is.Pairwise (· ≤ ·)) ∧
      p.errors.length ≤ p.root.matched.length + 1 := by
  have hu := regular_ofTokens ts settings
  obtain ⟨hrooted, herrors⟩ := rooted_last h
  constructor
  · obtain ⟨is, hat, hsorted, -⟩ := (Setup.located_last hu r).places
    exact ⟨is, herrors ▸ hat.imp fun e i ⟨hi, he⟩ => he.place hi, hsorted⟩
  · have hspaced := Setup.spaced_last hu r
    have hcount := Event.countP_isReport_le hspaced.apart
    have htense := (Event.tense ((Setup.ofTokens ts settings).last r).journal).toNat_le
    rw [herrors, hspaced.errors, hrooted.matched hu readable_kerml Setup.table?_error, List.length_map,
      Session.length_taken]
    omega

/-- Both errors of the cascade. -/
theorem parseTokens_located_cascade :
    ∃ q, (parseTokens .rootNamespace ((scan "class A; disjoint B from C;").eraseIdx 3) .standard).1 = .ok q ∧
      q.errors.length = 2 ∧
      (∃ is, q.errors.Forall₂ (SyntaxError.AtPlace ((scan "class A; disjoint B from C;").eraseIdx 3)) is ∧
        is.Pairwise (· ≤ ·)) ∧
      q.errors.length ≤ q.root.matched.length + 1 := by
  obtain ⟨q, hq⟩ := parseTokens_answers .rootNamespace ((scan "class A; disjoint B from C;").eraseIdx 3)
    (rfl : Settings.standard.cancel = none)
  have h := checked_cascade.2
  rw [hq] at h
  simp only [Except.toOption, Option.any_some, beq_iff_eq] at h
  exact ⟨q, hq, h, parseTokens_located hq⟩

end KermlText
