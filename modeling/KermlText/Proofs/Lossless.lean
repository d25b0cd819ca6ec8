import KermlText.Proofs.Paths

/-! No token is lost. The tokens of the node in the making are, at every step of a parse, those that the
parse has passed, without hidden ones and without some of the comments. At the end of a parse all
tokens have been passed, so the tree has every default-channel token of the text. -/

namespace KermlText

namespace Node

theorem tokensOf_append (cs ds : List Child) : tokensOf (cs ++ ds) = tokensOf cs ++ tokensOf ds := by
  induction cs with
  | nil => simp [tokensOf]
  | cons c cs ih => cases c <;> simp [tokensOf, ih]

theorem tokensOf_map_token {α : Type} (f : α → Token) (is : List α) :
    tokensOf (is.map fun i => .token (f i)) = is.map f := by
  induction is with
  | nil => rfl
  | cons i is ih => simp [tokensOf, ih]

theorem descendantsOf_append (cs ds : List Child) :
    descendantsOf (cs ++ ds) = descendantsOf cs ++ descendantsOf ds := by
  induction cs with
  | nil => simp [descendantsOf]
  | cons c cs ih => cases c <;> simp [descendantsOf, ih]

theorem descendantsOf_map_token {α : Type} (f : α → Token) (is : List α) :
    descendantsOf (is.map fun i => .token (f i)) = [] := by
  induction is with
  | nil => rfl
  | cons i is ih => simp [descendantsOf, ih]

end Node

namespace Builder

/-- The tokens of the node in the making. -/
def tokens (b : Builder) : List Token := Node.tokensOf b.children

@[simp] theorem tokens_finish (b : Builder) : b.finish.tokens = b.tokens := by
  simp [finish, Node.tokens, tokens]

@[simp] theorem tokens_start (r : Rule) : (start r).tokens = [] := rfl

@[simp] theorem tokens_pushToken (b : Builder) (t : Token) :
    (b.pushToken t).tokens = b.tokens ++ [t] := by
  simp [tokens, pushToken, push, Node.tokensOf_append, Node.tokensOf]

@[simp] theorem tokens_pushNode (b : Builder) (n : Node) :
    (b.pushNode n).tokens = b.tokens ++ n.tokens := by
  simp [tokens, pushNode, push, Node.tokensOf_append, Node.tokensOf]

@[simp] theorem tokens_markError (b : Builder) : b.markError.tokens = b.tokens := rfl

@[simp] theorem tokens_label (b : Builder) (name : String) (many : Bool) (start : Nat) (tokens : Bool)
    (relation : Option Relation) : (b.label name many start tokens relation).tokens = b.tokens := by
  simp [Builder.tokens]

/-- What `single?` gives is all that there is. -/
theorem children_of_single? {b : Builder} {n : Node} (h : b.single? = some n) :
    b.children = [.node n] ∧ b.fields = [] ∧ b.error = false := by
  unfold single? at h
  split at h
  · rename_i m hc
    split at h
    · rename_i hf
      cases h
      simp only [Bool.and_eq_true, List.isEmpty_iff, Bool.not_eq_true'] at hf
      exact ⟨hc, hf⟩
    · cases h
  · cases h

theorem tokens_of_single? {b : Builder} {n : Node} (h : b.single? = some n) : n.tokens = b.tokens := by
  simp [tokens, (children_of_single? h).1, Node.tokensOf]

@[simp] theorem tokens_unwrapped (b : Builder) : b.unwrapped.tokens = b.tokens := by
  unfold unwrapped
  split
  · rename_i n h
    rw [← tokens_of_single? h, ← tokens_finish, finish_reopen]
  · rfl

end Builder

namespace Setup

variable {u : Setup}

theorem tokens_strays (b : Builder) (places : List Nat) :
    (b.pushNode? (u.strays places)).tokens = b.tokens ++ places.map u.stream.token := by
  unfold strays
  split
  · rename_i h
    simp [h, Builder.pushNode?]
  · simp [Builder.pushNode?, Node.tokens, Node.tokensOf_map_token]

/-- The tokens that are skipped are kept. -/
theorem kept_skippedOver {x : Session} (hx : x.pos ≤ u.stream.size) (context sync : KindSet) (n : Nat)
    (code : Code) (r : Rule) (expected : KindSet) :
    u.stream.Kept x.pos ((u.stream.placesUpTo sync n x.pos).map u.stream.token)
      ((u.reported code r expected x).skippedOver context (u.stream.placesUpTo sync n x.pos)).pos := by
  unfold Session.skippedOver
  split
  · rename_i h
    rw [List.getLast?_eq_none_iff] at h
    simpa [h] using Stream.Kept.refl hx
  · rename_i last h
    exact u.stream.kept_placesUpTo hx h

/-- What a path adds to the node are the tokens that it passes. -/
theorem Path.kept {x₀ x : Session} {b₀ b : Builder} (h : u.Path x₀ b₀ x b)
    (hx : x₀.pos ≤ u.stream.size) :
    ∃ ts, b.tokens = b₀.tokens ++ ts ∧ u.stream.Kept x₀.pos ts x.pos := by
  induction h with
  | refl => exact ⟨[], by simp, .refl hx⟩
  | quiet _ hy ih =>
    obtain ⟨ts, hb, hk⟩ := ih hx
    exact ⟨ts, hb, hy.pos ▸ hk⟩
  | @take _ _ x b y _ he hp _ _ ih =>
    obtain ⟨ts, hb, hk⟩ := ih hx
    refine ⟨ts ++ [u.stream.current x.pos], by simp [hb], ?_⟩
    rw [hp]
    exact hk.trans (.current hk.le_size he)
  | @takeComment _ _ x b i _ hi _ ih =>
    obtain ⟨ts, hb, hk⟩ := ih hx
    exact ⟨ts ++ [u.stream.token i], by simp [hb], hk.trans (.comment hi)⟩
  | @flaw _ _ x b _ code r expected context sync n _ ih =>
    obtain ⟨ts, hb, hk⟩ := ih hx
    refine ⟨ts ++ (u.stream.placesUpTo sync n x.pos).map u.stream.token, ?_, ?_⟩
    · rw [Builder.tokens_markError, tokens_strays, hb, List.append_assoc]
    · exact hk.trans (kept_skippedOver hk.le_size context sync n code r expected)
  | @stray _ _ x b _ code r expected context sync n _ ih =>
    obtain ⟨ts, hb, hk⟩ := ih hx
    refine ⟨ts ++ (u.stream.placesUpTo sync n x.pos).map u.stream.token, ?_, ?_⟩
    · rw [tokens_strays, hb, List.append_assoc]
    · exact hk.trans (kept_skippedOver hk.le_size context sync n code r expected)
  | label _ _ _ _ _ _ ih =>
    obtain ⟨ts, hb, hk⟩ := ih hx
    exact ⟨ts, by simp [hb], hk⟩
  | @node _ _ x b y r c m _ _ hm ih1 ih2 =>
    obtain ⟨ts, hb, hk⟩ := ih1 hx
    obtain ⟨us, hc, hk'⟩ := ih2 hk.le_size
    refine ⟨ts ++ us, ?_, hk.trans hk'⟩
    have hmt : m.tokens = c.tokens := by
      rcases hm with rfl | hm
      · exact c.tokens_finish
      · exact Builder.tokens_of_single? hm
    simp [hb, hmt, hc]

/-! ### Comments -/

/-- The comments right inside the node are there because its rule takes one. -/
def PlacesComment (n : Node) : Prop :=
  ∀ t, .token t ∈ n.children → t.channel = .comment → n.rule.takesComment = true

/-- All comments in the node in the making are where a rule takes one. -/
structure PlacesComments (b : Builder) : Prop where
  here : PlacesComment b.finish
  below : ∀ n ∈ Node.descendantsOf b.children, PlacesComment n

namespace PlacesComments

variable {b : Builder}

theorem start (r : Rule) : PlacesComments (.start r) :=
  ⟨fun _ h => by simp [Builder.finish, Builder.start, Node.children] at h,
    fun _ h => by simp [Builder.start, Node.descendantsOf] at h⟩

theorem pushToken (h : PlacesComments b) {t : Token}
    (ht : t.channel = .comment → b.rule.takesComment = true) : PlacesComments (b.pushToken t) := by
  refine ⟨fun t' hm hc => ?_, fun n hn => ?_⟩
  · rcases List.mem_append.1 hm with hm | hm
    · exact h.here t' hm hc
    · cases List.mem_singleton.1 hm
      exact ht hc
  · simp only [Builder.pushToken, Builder.push, Node.descendantsOf_append, Node.descendantsOf,
      List.append_nil] at hn
    exact h.below n hn

theorem pushNode (h : PlacesComments b) {n : Node} (hn : ∀ m ∈ n.descendants, PlacesComment m) :
    PlacesComments (b.pushNode n) := by
  refine ⟨fun t hm hc => ?_, fun m hm => ?_⟩
  · rcases List.mem_append.1 hm with hm | hm
    · exact h.here t hm hc
    · simp at hm
  · simp only [Builder.pushNode, Builder.push, Node.descendantsOf_append, Node.descendantsOf,
      List.append_nil, List.mem_append] at hm
    exact hm.elim (h.below m) (hn m)

/-- Skipped tokens are no comments. -/
theorem pushStrays (h : PlacesComments b) (sync : KindSet) (n pos : Nat) :
    PlacesComments (b.pushNode? (u.strays (u.stream.placesUpTo sync n pos))) := by
  unfold strays
  split
  · exact h
  · refine h.pushNode fun m hm => ?_
    simp only [Node.descendants, Node.descendantsOf_map_token, List.mem_singleton] at hm
    subst hm
    intro t ht hc
    obtain ⟨i, hi, he⟩ := List.mem_map.1 ht
    cases he
    simp [u.stream.channel_of_mem_placesUpTo hi] at hc

theorem label (h : PlacesComments b) (name : String) (many : Bool) (start : Nat) (tokens : Bool)
    (relation : Option Relation) : PlacesComments (b.label name many start tokens relation) := by
  obtain ⟨fields, hb⟩ := b.label_eq name many start tokens relation
  rw [hb]
  exact ⟨h.here, h.below⟩

theorem finish (h : PlacesComments b) : ∀ m ∈ b.finish.descendants, PlacesComment m := by
  intro m hm
  rcases List.mem_cons.1 hm with rfl | hm
  · exact h.here
  · exact h.below m hm

theorem single (h : PlacesComments b) {n : Node} (hn : b.single? = some n) :
    ∀ m ∈ n.descendants, PlacesComment m := by
  intro m hm
  refine h.below m ?_
  rw [(Builder.children_of_single? hn).1]
  simpa [Node.descendantsOf] using hm

theorem reopen {n : Node} (h : ∀ m ∈ n.descendants, PlacesComment m) : PlacesComments (.reopen n) := by
  rcases n with ⟨r, cs, fs, e⟩
  exact ⟨h _ (by simp [Node.descendants, Builder.finish, Builder.reopen, Node.rule, Node.children,
      Node.fields, Node.isError]),
    fun m hm => h m (by simp [Node.descendants]; exact .inr hm)⟩

theorem unwrapped (h : PlacesComments b) : PlacesComments b.unwrapped := by
  unfold Builder.unwrapped
  split
  · rename_i n hn
    exact reopen (h.single hn)
  · exact h

end PlacesComments

theorem Path.placesComments {x₀ x : Session} {b₀ b : Builder} (h : u.Path x₀ b₀ x b)
    (hb : PlacesComments b₀) : PlacesComments b := by
  induction h with
  | refl => exact hb
  | quiet _ _ ih => exact ih hb
  | take _ he _ _ _ ih =>
    refine (ih hb).pushToken fun hc => ?_
    have hd := u.stream.channel_settle (u.stream.settle_lt_of_not_atEnd he)
    rw [Stream.current, hd] at hc
    cases hc
  | takeComment _ _ ht ih => exact (ih hb).pushToken fun _ => ht
  | flaw _ _ _ _ _ sync n _ ih =>
    have hp := (ih hb).pushStrays (u := u) sync n
    exact ⟨(hp _).here, (hp _).below⟩
  | stray _ _ _ _ _ sync n _ ih => exact (ih hb).pushStrays sync n _
  | label _ _ _ _ _ _ ih => exact (ih hb).label _ _ _ _ _
  | node _ _ hm ih1 ih2 =>
    have hc := ih2 (.start _)
    refine (ih1 hb).pushNode ?_
    rcases hm with rfl | hm
    · exact hc.finish
    · exact hc.single hm

/-! ### The end -/

/-- Where nothing is skipped up to the end, the end is, unless a token looks like it. -/
theorem atEnd_of_placesUpTo_nil {s : Stream} (hno : ∀ i, s.atEnd i = false → s.kind i ≠ .eof)
    {n pos : Nat} (hp : pos ≤ s.size) (hn : s.size ≤ pos + n)
    (h : s.placesUpTo endKinds n pos = []) : s.atEnd pos = true := by
  rcases Nat.eq_zero_or_pos n with rfl | hpos
  · rw [s.atEnd_iff]
    have := s.le_settle hp
    have := s.settle_le_size pos
    omega
  · rcases (Stream.placesUpTo_eq_nil (by omega)).1 h with he | hk
    · exact he
    · rcases he : s.atEnd pos with _ | _
      · exact absurd (by simpa [endKinds] using hk) (Ne.symm (hno pos he))
      · rfl

theorem atEnd_of_placesUpTo {s : Stream} (hno : ∀ i, s.atEnd i = false → s.kind i ≠ .eof)
    {n pos last : Nat} (hp : pos ≤ s.size) (hn : s.size ≤ pos + n)
    (h : (s.placesUpTo endKinds n pos).getLast? = some last) : s.atEnd (last + 1) = true := by
  induction n generalizing pos with
  | zero => simp [Stream.placesUpTo] at h
  | succ n ih =>
    unfold Stream.placesUpTo at h
    rcases he : s.atEnd pos with _ | _
    · have hlt : s.settle pos + 1 ≤ s.size := s.settle_lt_of_not_atEnd he
      have hle := s.le_settle hp
      have hk : endKinds.contains (s.kind pos) = false := by
        simpa [endKinds, eq_comm] using hno pos he
      rw [s.next?_of_not_atEnd he] at h
      simp only [hk, Bool.false_eq_true, if_false, List.getLast?_cons, Option.some.injEq] at h
      rcases hr : (s.placesUpTo endKinds n (s.settle pos + 1)).getLast? with _ | l
      · rw [hr, Option.getD_none] at h
        subst h
        exact atEnd_of_placesUpTo_nil hno hlt (by omega) (List.getLast?_eq_none_iff.1 hr)
      · rw [hr, Option.getD_some] at h
        subst h
        exact ih hlt (by omega) hr
    · simp [s.next?_of_atEnd he] at h

/-- Behind the end of a text nothing is left, unless a token looks like the end. -/
theorem atEnd_of_expectEnd (hno : ∀ i, u.stream.atEnd i = false → u.stream.kind i ≠ .eof)
    {scope : Scope} {r : Rule} {b b' : Builder} {x x' : Session} (hx : x.pos ≤ u.stream.size)
    (h : u.expectEnd scope r b x = .ok b' x') : u.stream.atEnd x'.pos = true := by
  rw [expectEnd_eq] at h
  split at h
  · cases h
    assumption
  · cases h
    unfold Session.skippedOver
    split
    · rename_i hl
      rw [List.getLast?_eq_none_iff, passed] at hl
      simpa using atEnd_of_placesUpTo_nil hno hx (by omega) hl
    · rename_i last hl
      rw [passed] at hl
      exact atEnd_of_placesUpTo hno hx (by omega) hl

end Setup

theorem Rule.takesComment_iff {r : Rule} :
    r.takesComment = true ↔ r = .comment ∨ r = .documentation ∨ r = .textualRepresentation := by
  cases r <;> simp [takesComment]

/-- A whole parse keeps its stream, and puts comments where a rule takes one. -/
theorem Setup.Rooted.kept {u : Setup} (hu : u.Regular) (hg : u.grammar.placesComments = true)
    (hno : ∀ i, u.stream.atEnd i = false → u.stream.kind i ≠ .eof) {r : Rule} {n : Node}
    {x : Session} (h : u.Rooted r n x) :
    u.stream.Kept 0 n.tokens u.stream.size ∧ ∀ m ∈ n.descendants, PlacesComment m := by
  obtain ⟨y, b, c, hpath, he, rfl⟩ := h.path hu hg
  have hpath' := Setup.Path.refl.expectEnd he
  obtain ⟨ts, hb, hk⟩ := hpath.kept (Nat.zero_le _)
  obtain ⟨us, hc, hk'⟩ := hpath'.kept hk.le_size
  have hend := Setup.atEnd_of_expectEnd hno hk.le_size he
  refine ⟨?_, ((hpath'.placesComments (hpath.placesComments (.start r)).unwrapped).finish)⟩
  rw [Builder.tokens_finish, hc, Builder.tokens_unwrapped, hb, Builder.tokens_start, List.nil_append]
  exact (hk.trans hk').whole hend

/-- Every default-channel token of a text is in its tree, in order and once, and nothing else is, but
for the comments that are the bodies of nodes. -/
theorem parseTokens_lossless (r : Rule) (ts : List Token) (settings : Settings)
    (hts : ∀ t ∈ ts, t.channel = .default → t.kind ≠ .eof) (hc : settings.cancel = none) :
    ∃ p, (parseTokens r ts settings).1 = .ok p ∧
      p.root.tokens.Sublist ts ∧
      p.root.tokens.filter (fun t => t.channel = .default) =
        ts.filter (fun t => t.channel = .default) ∧
      (∀ t ∈ p.root.tokens, t.channel = .default ∨ t.channel = .comment) ∧
      ∀ n ∈ p.root.descendants, ∀ t, .token t ∈ n.children → t.channel = .comment →
        n.rule = .comment ∨ n.rule = .documentation ∨ n.rule = .textualRepresentation := by
  obtain ⟨p, hp⟩ := parseTokens_answers r ts hc
  obtain ⟨x, hr, -⟩ := rooted_of_parseTokens hp
  obtain ⟨hk, hplaced⟩ := hr.kept (regular_ofTokens ts settings) placesComments_kerml
    (Stream.kind_ne_eof_ofTokens hts)
  have hall : (Stream.ofTokens ts).stretch 0 (Stream.ofTokens ts).size = ts :=
    (Stream.ofTokens ts).stretch_all
  refine ⟨p, hp, ?_, ?_, fun t ht => ?_, fun n hn t ht htc => ?_⟩
  · exact hall ▸ hk.sublist
  · exact hall ▸ hk.default
  · rcases h : t.channel with _ | _ | _
    · exact .inl rfl
    · exact absurd h (hk.visible t ht)
    · exact .inr rfl
  · exact Rule.takesComment_iff.1 (hplaced n hn t ht htc)

/-- The text breaks off behind its documentation. -/
theorem parseTokens_lossless_doc :
    ∃ p, (parseTokens .rootNamespace (scan "doc /* c */ class (") .standard).1 = .ok p ∧
      p.root.tokens.Sublist (scan "doc /* c */ class (") ∧
      p.root.tokens.filter (fun t => t.channel = .default) =
        (scan "doc /* c */ class (").filter (fun t => t.channel = .default) ∧
      (∀ t ∈ p.root.tokens, t.channel = .default ∨ t.channel = .comment) ∧
      ∀ n ∈ p.root.descendants, ∀ t, .token t ∈ n.children → t.channel = .comment →
        n.rule = .comment ∨ n.rule = .documentation ∨ n.rule = .textualRepresentation :=
  parseTokens_lossless _ _ _ (by decide +kernel) rfl

end KermlText
