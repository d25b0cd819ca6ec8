import KermlText.Proofs.Arrows
import KermlText.Proofs.Respelling

/-! Spellings in a tree. A field of a node points at the token that spells its relation. So a tree tells of
each of its tokens which relation it spells, if any, and a form that makes the tree takes the token for
that relation. -/

namespace KermlText

open Grammar Rules

namespace Node

/-- The relation that is spelled by the child at a place. -/
def relationAt (fs : Fields) (i : Nat) : Option Relation :=
  match fs.lookup "relation" with
  | some (.relation r j) => if j = i then some r else none
  | _ => none

/-- The field of a node in the tree points at this token for the relation `r`. -/
inductive Points (r : Relation) : List Token → Token → List Token → Node → Prop
  | here {q pre t post fs e} (h : fs.lookup "relation" = some (.relation r pre.length)) :
      Points r (tokensOf pre) t (tokensOf post) (.mk q (pre ++ .token t :: post) fs e)
  | inside {us t vs q pre n post fs e} (h : Points r us t vs n) :
      Points r (tokensOf pre ++ us) t (vs ++ tokensOf post) (.mk q (pre ++ .node n :: post) fs e)

mutual

/-- What relation each token of the tree spells, in the order of the text. -/
def spelled : Node → List (Option Relation)
  | .mk _ cs fs _ => spelledOf fs 0 cs

def spelledOf (fs : Fields) : Nat → List Child → List (Option Relation)
  | _, [] => []
  | i, .token _ :: cs => relationAt fs i :: spelledOf fs (i + 1) cs
  | i, .node n :: cs => n.spelled ++ spelledOf fs (i + 1) cs

end

theorem spelledOf_append (fs : Fields) (i : Nat) (cs ds : List Child) :
    spelledOf fs i (cs ++ ds) = spelledOf fs i cs ++ spelledOf fs (i + cs.length) ds := by
  induction cs generalizing i with
  | nil => simp [spelledOf]
  | cons c cs ih =>
    have hi : i + 1 + cs.length = i + (cs.length + 1) := by omega
    cases c <;> simp [spelledOf, ih, hi]

theorem spelledOf_congr {fs gs : Fields} {i : Nat} {cs : List Child}
    (h : ∀ j, i ≤ j → j < i + cs.length → relationAt fs j = relationAt gs j) :
    spelledOf fs i cs = spelledOf gs i cs := by
  induction cs generalizing i with
  | nil => rfl
  | cons c cs ih =>
    have hrest := ih (i := i + 1) fun j h1 h2 => h j (by omega) (by simp only [List.length_cons]; omega)
    cases c with
    | token t => simp [spelledOf, hrest, h i (Nat.le_refl i) (by simp)]
    | node n => simp [spelledOf, hrest]

mutual

theorem length_spelled : ∀ n : Node, n.spelled.length = n.tokens.length
  | .mk _ cs fs _ => by simp [spelled, tokens, length_spelledOf fs 0 cs]

theorem length_spelledOf (fs : Fields) : ∀ (i : Nat) (cs : List Child),
    (spelledOf fs i cs).length = (tokensOf cs).length
  | _, [] => rfl
  | i, .token _ :: cs => by simp [spelledOf, tokensOf, length_spelledOf fs (i + 1) cs]
  | i, .node n :: cs => by simp [spelledOf, tokensOf, length_spelled n, length_spelledOf fs (i + 1) cs]

end

variable {r : Relation} {us vs : List Token} {t : Token} {n : Node}

theorem Points.tokens (h : Points r us t vs n) : n.tokens = us ++ t :: vs := by
  induction h with
  | here _ => simp [Node.tokens, tokensOf_append, tokensOf]
  | inside _ ih => simp [Node.tokens, tokensOf_append, tokensOf, ih]

theorem Points.spelled (h : Points r us t vs n) : n.spelled[us.length]? = some (some r) := by
  induction h with
  | @here _ pre _ _ fs _ h =>
    rw [Node.spelled, spelledOf_append, List.getElem?_append_right (Nat.le_of_eq (length_spelledOf ..)),
      length_spelledOf]
    simp [spelledOf, relationAt, h]
  | @inside us t vs _ pre n post fs _ h ih =>
    have hlt : us.length < n.spelled.length := (List.getElem?_eq_some_iff.1 ih).1
    rw [Node.spelled, spelledOf_append, List.getElem?_append_right (by rw [length_spelledOf]; simp),
      length_spelledOf, List.length_append, Nat.add_sub_cancel_left, spelledOf,
      List.getElem?_append_left hlt, ih]

/-- Where a child spells a relation, the field points at it. -/
theorem lookup_of_relationAt {fs : Fields} {i : Nat} (h : relationAt fs i = some r) :
    fs.lookup "relation" = some (.relation r i) := by
  unfold relationAt at h
  split at h
  · rename_i q j hl
    split at h
    · cases h
      subst_vars
      exact hl
    · cases h
  · cases h

mutual

/-- A token that spells a relation is pointed at. -/
theorem exists_points_of_spelled : ∀ (n : Node) (i : Nat), n.spelled[i]? = some (some r) →
    ∃ us t vs, us.length = i ∧ Points r us t vs n
  | .mk q cs fs e, i, h => by
    obtain ⟨us, t, vs, hlen, hp⟩ := exists_points_of_spelledOf q fs e cs [] i h
    exact ⟨us, t, vs, by simpa [tokensOf] using hlen, hp⟩

/-- So is one among the last children of a node. -/
theorem exists_points_of_spelledOf (q : Rule) (fs : Fields) (e : Bool) : ∀ (cs pre : List Child) (i : Nat),
    (spelledOf fs pre.length cs)[i]? = some (some r) →
      ∃ us t vs, us.length = (tokensOf pre).length + i ∧ Points r us t vs (.mk q (pre ++ cs) fs e)
  | [], _, _, h => by simp [spelledOf] at h
  | .token t :: cs, pre, 0, h => by
    rw [spelledOf, List.getElem?_cons_zero, Option.some.injEq] at h
    exact ⟨_, t, _, by simp, .here (lookup_of_relationAt h)⟩
  | .token t :: cs, pre, i + 1, h => by
    rw [spelledOf, List.getElem?_cons_succ] at h
    obtain ⟨us, t', vs, hlen, hp⟩ := exists_points_of_spelledOf q fs e cs (pre ++ [.token t]) i (by simpa using h)
    rw [tokensOf_append, List.length_append] at hlen
    simp only [tokensOf, List.length_cons, List.length_nil] at hlen
    exact ⟨us, t', vs, by omega, by simpa using hp⟩
  | .node n :: cs, pre, i, h => by
    rw [spelledOf] at h
    by_cases hlt : i < n.spelled.length
    · rw [List.getElem?_append_left hlt] at h
      obtain ⟨us, t, vs, hlen, hp⟩ := exists_points_of_spelled n i h
      exact ⟨_, t, _, by simp [hlen], .inside hp⟩
    · rw [List.getElem?_append_right (Nat.le_of_not_lt hlt), length_spelled] at h
      rw [length_spelled] at hlt
      obtain ⟨us, t, vs, hlen, hp⟩ :=
        exists_points_of_spelledOf q fs e cs (pre ++ [.node n]) (i - n.tokens.length) (by simpa using h)
      rw [tokensOf_append, List.length_append] at hlen
      simp only [tokensOf, List.append_nil] at hlen
      exact ⟨us, t, vs, by omega, by simpa using hp⟩

end

end Node

namespace Builder

/-- What relation a child of the node in the making spells, as far as it is known. -/
def relationAt (b : Builder) (i : Nat) : Option Relation := Node.relationAt b.fields i

/-- The field of the relation points at a child that is there. -/
def Pointed (b : Builder) : Prop := ∀ i, b.size ≤ i → b.relationAt i = none

theorem pointed_start (r : Rule) : (start r).Pointed := fun _ _ => rfl

theorem relationAt_operator (r : Rule) (left : Node) (t : Token) (i : Nat) :
    (operator r left t).relationAt i = none := by
  have h : (operator r left t).fields.lookup "relation" = none := by
    rw [operator, pushLabeledToken, lookup_label_of_ne (by decide)]
    show ((start r).pushLabeledNode "left" left).fields.lookup "relation" = none
    rw [pushLabeledNode, lookup_label_of_ne (by decide)]
    rfl
  rw [relationAt, Node.relationAt, h]

theorem pointed_operator (r : Rule) (left : Node) (t : Token) : (operator r left t).Pointed :=
  fun i _ => relationAt_operator r left t i

/-- An operand tells what was made for it. -/
theorem spelled_operand (b : Builder) : (b.single?.getD b.finish).tokens = b.tokens ∧
    (b.single?.getD b.finish).spelled = Node.spelledOf b.fields 0 b.children := by
  rcases hs : b.single? with _ | n
  · exact ⟨b.tokens_finish, rfl⟩
  · obtain ⟨hchildren, hfields, -⟩ := children_of_single? hs
    exact ⟨tokens_of_single? hs, by simp [hchildren, hfields, Node.spelledOf]⟩

/-- A label tells of children since its start only, and only of the relation that it records. -/
theorem relationAt_label (b : Builder) (name : String) (many : Bool) (start : Nat) (tokens : Bool)
    (relation : Option Relation) (i : Nat) :
    (b.label name many start tokens relation).relationAt i = b.relationAt i ∨
      start ≤ i ∧ i < b.size ∧ relation.isSome ∧
        (b.label name many start tokens relation).relationAt i = relation := by
  have hfill : ∀ slot, (∀ r j, slot ≠ .relation r j) →
      (b.fill name slot).relationAt i = b.relationAt i := by
    intro slot hslot
    unfold relationAt Node.relationAt fill
    rw [List.lookup_append, List.lookup_cons]
    rcases b.fields.lookup "relation" with _ | s
    · rcases hn : "relation" == name with _ | _
      · rfl
      · cases slot with
        | relation r j => exact absurd rfl (hslot r j)
        | one | many => rfl
    · rfl
  unfold label
  dsimp only
  split
  · split
    · refine .inl ?_
      unfold relationAt Node.relationAt
      rw [lookup_map_extend]
      rcases b.fields.lookup "relation" with _ | s
      · rfl
      · by_cases hn : "relation" = name <;> cases s <;> simp [hn, extend]
    · exact .inl (hfill _ (by simp))
  · split
    · exact .inl rfl
    · rename_i k ks hcaught
      split
      · exact .inl rfl
      · rename_i hfresh
        rcases relation with _ | r
        · exact .inl (hfill _ (by simp))
        · have hk : k ∈ b.caught start tokens := hcaught ▸ List.mem_cons_self ..
          simp only [caught, List.mem_filter, List.mem_range'_1] at hk
          dsimp only
          unfold relationAt Node.relationAt fill
          rw [List.lookup_append, List.lookup_cons]
          rcases hl : b.fields.lookup "relation" with _ | s
          · rcases hn : "relation" == name with _ | _
            · exact .inl rfl
            · by_cases hki : k = i
              · subst hki
                exact .inr ⟨hk.1.1, by omega, rfl, by simp⟩
              · exact .inl (by simp [hki])
          · exact .inl rfl

end Builder

/-! ### What a tree tells of its text -/

namespace Respelling

variable (ρ : Respelling)

/-- Where the one text may be taken: the spelling for its relation only. No bare arrow ends in front of a
brace or of arguments. -/
def manner : Manner where
  takes relation w := w <:+ ρ.source ∧ (w = ρ.mark → relation = some ρ.relation)
  ends r i v := r = .arrowInvocationExpression → i = 2 →
    nextKind (kinds v) ≠ .lBrace ∧ nextKind (kinds v) ≠ .lParen

/-- Of the first tokens of a text it is known what they spell. This agrees with the respelling. -/
def Told (ms : List (Option Relation)) (w : List Token) : Prop :=
  ∀ i, w.drop i = ρ.mark → ∀ m, ms[i]? = some m → m = some ρ.relation

variable {ρ}

theorem Told.left {ms ns : List (Option Relation)} {w : List Token} (h : ρ.Told (ms ++ ns) w) : ρ.Told ms w := by
  intro i hi m hm
  refine h i hi m ?_
  rwa [List.getElem?_append_left (List.getElem?_eq_some_iff.1 hm).1]

theorem Told.right {ms ns : List (Option Relation)} {ts v : List Token} (h : ρ.Told (ms ++ ns) (ts ++ v))
    (hl : ms.length = ts.length) : ρ.Told ns v := by
  intro i hi m hm
  refine h (ms.length + i) ?_ m ?_
  · rw [hl, ← List.drop_drop, List.drop_left, hi]
  · rwa [List.getElem?_append_right (Nat.le_add_right _ _), Nat.add_sub_cancel_left]

/-- Between `b` and `c` the node in the making got these children with the tokens between `w` and `v`. -/
structure Adds (b c : Builder) (w v : List Token) (cs : List Child) : Prop where
  rule : c.rule = b.rule
  children : c.children = b.children ++ cs
  tokens : w = Node.tokensOf cs ++ v
  relation : ∀ i < b.size, c.relationAt i = b.relationAt i
  pointed : b.Pointed → c.Pointed

variable {b c d : Builder} {w v u : List Token} {cs ds : List Child} {p q r : Prop}

theorem Adds.refl (b : Builder) (w : List Token) : Adds b b w w [] :=
  ⟨rfl, by simp, rfl, fun _ _ => rfl, id⟩

theorem Adds.size (h : Adds b c w v cs) : c.size = b.size + cs.length := by
  simp [Builder.size, h.children]

theorem Adds.pushToken (b : Builder) (t : Token) (v : List Token) :
    Adds b (b.pushToken t) (t :: v) v [.token t] :=
  ⟨rfl, rfl, rfl, fun _ _ => rfl, fun hb i hi =>
    hb i (Nat.le_of_succ_le (by simpa [Builder.size, Builder.pushToken, Builder.push] using hi))⟩

theorem Adds.trans (h1 : Adds b c w v cs) (h2 : Adds c d v u ds) : Adds b d w u (cs ++ ds) := by
  refine ⟨h2.rule.trans h1.rule, ?_, ?_, fun i hi => ?_, fun hb => h2.pointed (h1.pointed hb)⟩
  · rw [h2.children, h1.children, List.append_assoc]
  · rw [h1.tokens, h2.tokens, Node.tokensOf_append, List.append_assoc]
  · rw [h2.relation i (by have := h1.size; omega), h1.relation i hi]

theorem Adds.spelledOf (h1 : Adds b c w v cs) (h2 : Adds c d v u ds) :
    Node.spelledOf d.fields b.size (cs ++ ds) =
      Node.spelledOf c.fields b.size cs ++ Node.spelledOf d.fields c.size ds := by
  rw [Node.spelledOf_append, h1.size]
  congr 1
  exact Node.spelledOf_congr fun i _ hi => h2.relation i (by have := h1.size; omega)

variable (ρ) in
/-- Between `b` and `c` children were made, and where what they tell agrees with the respelling, and no
bare arrow in them stands in front of a brace, `p` holds. -/
def Tells (w : List Token) (b : Builder) (v : List Token) (c : Builder) (p : Prop) : Prop :=
  ∃ cs, Adds b c w v cs ∧ (b.Pointed → w <:+ ρ.source → ρ.Told (Node.spelledOf c.fields b.size cs) w →
    Node.AllCloseArrows v cs → p)

namespace Tells

theorem refl (hp : p) : ρ.Tells w b w b p := ⟨[], .refl b w, fun _ _ _ _ => hp⟩

theorem imp (h : ρ.Tells w b v c p) (hq : p → q) : ρ.Tells w b v c q := by
  obtain ⟨cs, ha, hp⟩ := h
  exact ⟨cs, ha, fun hb hw ht hc => hq (hp hb hw ht hc)⟩

theorem trans (h1 : ρ.Tells w b v c p) (h2 : ρ.Tells v c u d q) (hr : p → q → r) : ρ.Tells w b u d r := by
  obtain ⟨cs, ha, hp⟩ := h1
  obtain ⟨ds, hd, hq⟩ := h2
  refine ⟨cs ++ ds, ha.trans hd, fun hb hw ht hc => ?_⟩
  obtain ⟨hc1, hc2⟩ := (Node.allCloseArrows_append cs ds).1 hc
  rw [ha.spelledOf hd] at ht
  rw [← hd.tokens] at hc1
  have hv : v <:+ w := ha.tokens ▸ List.suffix_append _ _
  exact hr (hp hb hw ht.left hc1) (hq (ha.pointed hb) (hv.trans hw)
    ((ha.tokens ▸ ht).right (Node.length_spelledOf ..)) hc2)

theorem pushToken (t : Token) : ρ.Tells (t :: v) b v (b.pushToken t) (t :: v <:+ ρ.source ∧ t :: v ≠ ρ.mark) := by
  refine ⟨_, .pushToken b t v, fun hb hw ht _ => ⟨hw, fun hm => ?_⟩⟩
  have hnone : b.relationAt b.size = some ρ.relation := ht 0 hm _ rfl
  rw [hb _ (Nat.le_refl _)] at hnone
  cases hnone

/-- A label that records no relation tells nothing new. -/
theorem label (h : ρ.Tells w b v c p) (name : String) (many : Bool) (start : Nat) (tokens : Bool) :
    ρ.Tells w b v (c.label name many start tokens none) p := by
  obtain ⟨cs, ha, hp⟩ := h
  have hr : ∀ i, (c.label name many start tokens none).relationAt i = c.relationAt i := fun i =>
    (c.relationAt_label name many start tokens none i).resolve_right fun h => by cases h.2.2.1
  refine ⟨cs, ⟨by simpa using ha.rule, by simpa using ha.children, ha.tokens,
    fun i hi => (hr i).trans (ha.relation i hi), fun hb i hi => ?_⟩, fun hb hw ht hc => hp hb hw ?_ hc⟩
  · rw [hr]
    exact ha.pointed hb i (by simpa [Builder.size] using hi)
  · rwa [Node.spelledOf_congr fun i _ _ => (hr i).symm]

/-- The token that a relation is recorded for spells this relation. -/
theorem relation (t : Token) (name : String) (many tokens : Bool) (r : Relation) :
    ρ.Tells (t :: v) b v ((b.pushToken t).label name many b.size tokens (some r))
      (t :: v <:+ ρ.source ∧ (t :: v = ρ.mark → some r = some ρ.relation)) := by
  have ha := Adds.pushToken b t v
  have hl := (b.pushToken t).relationAt_label name many b.size tokens (some r)
  refine ⟨_, ⟨by simpa using ha.rule, by simpa using ha.children, ha.tokens, fun i hi => ?_,
    fun hb i hi => ?_⟩, fun hb hw ht _ => ⟨hw, fun hm => ?_⟩⟩
  · exact (hl i).resolve_right fun h => Nat.not_lt.2 h.1 hi
  · have hi : (b.pushToken t).size ≤ i := by simpa [Builder.size] using hi
    rw [(hl i).resolve_right fun h => Nat.not_lt.2 hi h.2.1]
    exact ha.pointed hb i hi
  · have hsome : Builder.relationAt _ b.size = some ρ.relation := ht 0 hm _ rfl
    rcases hl b.size with h | h
    · rw [h, show (b.pushToken t).relationAt b.size = none from hb _ (Nat.le_refl _)] at hsome
      cases hsome
    · exact h.2.2.2.symm.trans hsome

/-- What a node of its own tells. -/
theorem pushNode {q : Rule} {n : Node} (h : ρ.Tells w (.start q) v c p) (htokens : n.tokens = c.tokens)
    (hspelled : n.spelled = Node.spelledOf c.fields 0 c.children)
    (hclosed : n.ClosesArrows v → Node.AllCloseArrows v c.children) : ρ.Tells w b v (b.pushNode n) p := by
  obtain ⟨cs, ha, hp⟩ := h
  have hcs : c.children = cs := ha.children
  refine ⟨[.node n], ⟨rfl, rfl, ?_, fun _ _ => rfl, fun hb i hi => ?_⟩, fun hb hw ht hc => ?_⟩
  · simpa [Node.tokensOf, htokens, Builder.tokens, hcs] using ha.tokens
  · exact hb i (Nat.le_of_succ_le (by simpa [Builder.size, Builder.pushNode, Builder.push] using hi))
  · simp only [Node.spelledOf, List.append_nil, hspelled, hcs] at ht
    simp only [Node.AllCloseArrows, Node.tokensOf, List.nil_append, and_true] at hc
    exact hp (Builder.pointed_start q) hw ht (hcs ▸ hclosed hc)

end Tells

variable (ρ) in
/-- Operators behind `left` make one node with it, and where what it tells agrees with the respelling, and
no bare arrow in it stands in front of a brace, `left` stands where it does and `p` holds. -/
def OperatorsTell (left : Node) (w : List Token) (b : Builder) (v : List Token) (c : Builder) (p : Prop) :
    Prop :=
  ∃ m ts ms, c = b.pushNode m ∧ w = ts ++ v ∧ m.tokens = left.tokens ++ ts ∧ m.spelled = left.spelled ++ ms ∧
    (w <:+ ρ.source → m.ClosesArrows v → left.ClosesArrows w ∧ (ρ.Told ms w → p))

/-- An operator with what stands behind it, and more operators. -/
theorem Tells.operation {s : Rule} {left : Node} {t : Token}
    (h1 : ρ.Tells w (.operator s left t) v c p) (h2 : ρ.OperatorsTell c.finish v b u d q) :
    ρ.OperatorsTell left (t :: w) b u d ((t :: w <:+ ρ.source ∧ t :: w ≠ ρ.mark) ∧
      ((s = .arrowInvocationExpression → c.Bare → nextKind (kindsOf v) ≠ .lBrace) ∧ p) ∧ q) := by
  obtain ⟨cs, ha, hp⟩ := h1
  obtain ⟨m, ts, ms, rfl, rfl, htokens, hspelled, hq⟩ := h2
  have hcs : c.children = .node left :: .token t :: cs := by simpa using ha.children
  have hnone : c.relationAt 1 = none := by
    rw [ha.relation 1 (by simp [Builder.size]), Builder.relationAt_operator]
  have hsize : (Builder.operator s left t).size = 2 := by simp [Builder.size]
  refine ⟨m, t :: Node.tokensOf cs ++ ts, none :: Node.spelledOf c.fields 2 cs ++ ms, rfl, ?_, ?_, ?_,
    fun hw hm => ?_⟩
  · simp [ha.tokens]
  · simp [htokens, Builder.tokens, hcs, Node.tokensOf]
  · have hc : c.finish.spelled = left.spelled ++ none :: Node.spelledOf c.fields 2 cs := by
      simp [Builder.finish, Node.spelled, hcs, Node.spelledOf, ← hnone, Builder.relationAt]
    simp [hspelled, hc]
  · have hv : ts ++ u <:+ w := ha.tokens ▸ List.suffix_append _ _
    have hws : w <:+ ρ.source := (List.suffix_cons t w).trans hw
    obtain ⟨⟨hbare, hc⟩, hq⟩ := hq (hv.trans hws) hm
    rw [hcs] at hc
    obtain ⟨hleft, hc⟩ := hc
    refine ⟨by rw [ha.tokens]; exact hleft, fun ht => ⟨⟨hw, fun hmark => ?_⟩, ⟨fun hs hb => ?_, ?_⟩, ?_⟩⟩
    · cases ht 0 hmark none rfl
    · exact hbare (Builder.isBareArrow_finish (ha.rule.trans (by simpa using hs)) hb)
    · refine hp (Builder.pointed_operator s left t) hws ?_ hc
      rw [hsize]
      have ht' : ρ.Told ([none] ++ (Node.spelledOf c.fields 2 cs ++ ms)) ([t] ++ w) := by simpa using ht
      exact (ht'.right rfl).left
    · refine hq ?_
      have ht' : ρ.Told ((none :: Node.spelledOf c.fields 2 cs) ++ ms)
          ((t :: Node.tokensOf cs) ++ (ts ++ u)) := by
        simpa [← ha.tokens] using ht
      exact ht'.right (by simp [Node.length_spelledOf])

/-- Operators behind an operand make one node with it. -/
theorem Tells.climb {s : Rule} (h1 : ρ.Tells w (.start s) v c p)
    (h2 : ρ.OperatorsTell (c.single?.getD c.finish) v b u d q) : ρ.Tells w b u d (p ∧ q) := by
  obtain ⟨m, ts, ms, rfl, rfl, htokens, hspelled, hq⟩ := h2
  obtain ⟨hct, hcs⟩ := c.spelled_operand
  obtain ⟨cs, ha, hp⟩ := h1
  have hchildren : c.children = cs := ha.children
  rw [hct, Builder.tokens, hchildren] at htokens
  rw [hcs, hchildren] at hspelled
  refine ⟨[.node m], ⟨rfl, rfl, ?_, fun _ _ => rfl, fun hb i hi => ?_⟩, fun _ hw ht hc => ?_⟩
  · simp [Node.tokensOf, htokens, ha.tokens]
  · exact hb i (Nat.le_of_succ_le (by simpa [Builder.size, Builder.pushNode, Builder.push] using hi))
  · simp only [Node.spelledOf, List.append_nil, hspelled] at ht
    simp only [Node.AllCloseArrows, Node.tokensOf, List.nil_append, and_true] at hc
    have hv : ts ++ u <:+ w := ha.tokens ▸ List.suffix_append _ _
    obtain ⟨hclosed, hq⟩ := hq (hv.trans hw) hc
    have hrest : ρ.Told ms (ts ++ u) := (ha.tokens ▸ ht).right (Node.length_spelledOf ..)
    exact ⟨hp (Builder.pointed_start s) hw ht.left (hchildren ▸ (Builder.closesArrows_operand hclosed).2),
      hq hrest⟩

theorem OperatorsTell.imp {left : Node} (h : ρ.OperatorsTell left w b v c p) (hq : p → q) :
    ρ.OperatorsTell left w b v c q := by
  obtain ⟨m, ts, ms, hc, hw, ht, hs, hp⟩ := h
  exact ⟨m, ts, ms, hc, hw, ht, hs, fun hsuffix hm => (hp hsuffix hm).imp_right fun h ht => hq (h ht)⟩

/-! ### Forms that agree with the respelling -/

end Respelling

/-- Whether the element leaves arrows to the table of operators. -/
def Element.avoidsArrows : Element → Bool
  | .rule r | .ruleAt r _ => r != .arrowInvocationExpression
  | _ => true

theorem avoidsArrows_kerml {r : Rule} {a : Alternative} (ha : a ∈ kerml.alternatives r)
    (hl : a.leftRecursive = false) : rowAll Element.avoidsArrows a.elements = true := by
  have h : (Rule.all.all fun r => (kerml.alternatives r).all fun a =>
      a.leftRecursive || rowAll Element.avoidsArrows a.elements) = true := by decide +kernel
  simp only [List.all_eq_true, Bool.or_eq_true] at h
  exact (h r (Rule.mem_all r) a ha).resolve_left (by simp [hl])

namespace Grammar

variable {M : Manner} {r q : Rule} {level : Nat} {left : Node} {w v u : List Token} {b c d : Builder}

/-- A name behind an arrow gives it neither arguments nor a body. -/
theorem Forms.bare (h : kerml.Forms M (.element (.seq [Arrow.function])) w b v c) (hb : b.Bare) : c.Bare := by
  have hname : (kerml.definition .qualifiedName).inline = false := rfl
  have hplain : kerml.table? .qualifiedName = Option.none := rfl
  cases h with | cons h hnil => cases hnil with | nil =>
  cases h with | labeled h => cases h with | rule h =>
  refine Builder.Bare.label ?_ (by decide) (by decide) _ _ _ _
  cases h with
  | inlined _ hi _ =>
    rw [hname] at hi
    cases hi
  | wrapped _ _ _ => exact hb
  | climbed ht _ _ =>
    rw [hplain] at ht
    cases ht

/-- Arguments that stand behind an arrow as an operator could be read as its own. -/
theorem Forms.opens_argumentList {table : Table} {tier : Tier} {k : Kind} (ht : kerml.table? r = some table)
    (hl : table.lookup k = some (tier, .arrowInvocationExpression)) (hle : level ≤ tier.level)
    (h : kerml.Forms M (.operators r level left) v b u d) (hv : nextKind (kinds v) = .lParen) :
    kerml.Opens (.call .argumentList) (kinds v) := by
  obtain ⟨htier, ho⟩ := Table.mem_tiers_of_lookup hl
  -- the arrow is an operator of the same level as the bracket
  obtain ⟨rfl, hlevel⟩ : table = suffixTable ∧ tier.level = 13 := by
    rcases table_kerml ht with ⟨-, rfl⟩ | ⟨-, rfl⟩
    · have hno : ∀ tier ∈ operatorTable.tiers, ∀ o ∈ tier.operators, o.2 ≠ .arrowInvocationExpression := by
        decide +kernel
      exact absurd rfl (hno tier htier _ ho)
    · exact ⟨rfl, (by decide +kernel : ∀ tier ∈ suffixTable.tiers, tier.level = 13) tier htier⟩
  obtain ⟨bracket, hbracket, hform, hbl⟩ : ∃ tier, suffixTable.lookup .lParen =
      some (tier, .invocationExpression) ∧ tier.form ≠ .binary ∧ tier.level = 13 := ⟨_, rfl, by decide, rfl⟩
  cases h with
  | done ht' hl' =>
    cases ht.symm.trans ht'
    have := hl' bracket _ (hv ▸ hbracket)
    omega
  | binary ht' hl' _ hf _ _ _ =>
    cases ht.symm.trans ht'
    cases (hv ▸ hbracket).symm.trans hl'
    exact absurd hf hform
  | suffix ht' hl' _ _ _ h1 _ =>
    cases ht.symm.trans ht'
    cases (hv ▸ hbracket).symm.trans hl'
    have hbody := h1.greedy fun _ _ _ _ _ => table?_node_kerml
    rw [kinds_cons, nextKind_cons] at hv
    rw [kinds_cons, hv]
    exact (Arrow.greedy_argumentList (.rule hbody (.plain rfl))).opens

end Grammar

namespace Respelling

variable (ρ : Respelling)

/-- What a form tells of its text. The form of an arrow has to be told whether it is bare there. -/
def JobTells (M : Manner) (w : List Token) (b : Builder) (v : List Token) (c : Builder) : Job → Prop
  | .element e => e.all Element.avoidsArrows = true →
      ρ.Tells w b v c (kerml.Forms M (.element e) w b v c)
  | .body r => (r = .arrowInvocationExpression → b.Bare) → ρ.Tells w b v c
      ((r = .arrowInvocationExpression → (c.Bare → nextKind (kindsOf v) ≠ .lBrace) ∧
        (nextKind (kinds v) = .lParen → kerml.Opens (.call .argumentList) (kinds v))) →
          kerml.Forms M (.body r) w b v c)
  | .call r level => r ≠ .arrowInvocationExpression →
      ρ.Tells w b v c (kerml.Forms M (.call r level) w b v c)
  | .operators r level left =>
      ρ.OperatorsTell left w b v c (kerml.Forms M (.operators r level left) w b v c)

variable {ρ}

/-- A form tells of its text what its tree tells. -/
theorem tells_of_forms (hd : ∀ t ∈ ρ.source, t.channel = .default) {M : Manner} {job : Job} {w v : List Token}
    {b c : Builder} (h : kerml.Forms M job w b v c) : ρ.JobTells ρ.manner w b v c job := by
  induction h with
  | eof => exact fun _ => .refl .eof
  | @token k t w b ht hk _ =>
    exact fun _ => (Tells.pushToken t).imp fun h => .token ht hk ⟨h.1, fun hm => absurd hm h.2⟩
  | @relation k r t w b ht hk _ =>
    exact fun _ => (Tells.pushToken t).imp fun h => .relation ht hk ⟨h.1, fun hm => absurd hm h.2⟩
  | @oneOf ks t w b h hk hc _ =>
    exact fun _ => (Tells.pushToken t).imp fun hm => .oneOf h hk hc ⟨hm.1, fun h => absurd h hm.2⟩
  | rule _ ih =>
    intro ha
    exact (ih (by simpa [Element.all, Element.avoidsArrows] using ha)).imp .rule
  | present _ ih =>
    intro ha
    exact (ih (by simpa [Element.all, Element.avoidsArrows] using ha)).imp .present
  | absent h => exact fun _ => .refl (.absent h)
  | again _ _ ih1 ih2 =>
    intro ha
    exact (ih1 (by simpa [Element.all, Element.avoidsArrows] using ha)).trans
      (ih2 (by simpa [Element.all, Element.avoidsArrows] using ha)) .again
  | none h => exact fun _ => .refl (.none h)
  | nil => exact fun _ => .refl .nil
  | cons _ _ ih1 ih2 =>
    intro ha
    simp only [Element.all, Element.avoidsArrows, rowAll, Bool.true_and, Bool.and_eq_true] at ha
    exact (ih1 ha.1).trans (ih2 (by simpa [Element.all, Element.avoidsArrows] using ha.2)) .cons
  | @labeled name many e w b v c h ih =>
    intro ha
    rcases hr : e.relation? with _ | r
    · refine ((ih (by simpa [Element.all, Element.avoidsArrows] using ha)).label name many b.size
        e.catchesTokens).imp fun h => ?_
      rw [← hr]
      exact .labeled h
    · obtain ⟨k, rfl⟩ : ∃ k, e = .relation k r := by
        cases e <;> simp [Element.relation?] at hr
        exact ⟨_, by rw [hr]⟩
      cases h with
      | @relation _ _ t _ _ ht hk _ =>
        refine (Tells.relation t name many _ r).imp fun h => ?_
        exact .labeled (e := .relation k r) (.relation ht hk h)
  | @chosen r i a w b v c ha hl hi _ h ih =>
    intro hb
    have hrow := avoidsArrows_kerml (List.mem_of_getElem? ha) hl
    obtain ⟨cs, hadds, hform⟩ := ih (by simpa [Element.all, Element.avoidsArrows] using hrow)
    refine ⟨cs, hadds, fun hp hw ht hc harrow => .chosen ha hl hi ?_ (hform hp hw ht hc)⟩
    rintro rfl rfl
    obtain ⟨hbrace, hparen⟩ := harrow rfl
    have hkinds : kindsOf v = kinds v := by
      have hv : v <:+ w := hadds.tokens ▸ List.suffix_append _ _
      rw [kindsOf, List.filter_eq_self.2 fun t ht => by simpa using hd t ((hv.trans hw).subset ht)]
      rfl
    rw [Arrow.alternatives_eq] at ha
    cases ha
    refine ⟨hkinds ▸ hbrace (h.bare (hb rfl)), fun hv => ?_⟩
    -- with the arguments behind it the arrow would not be bare
    obtain ⟨u, hargs⟩ := hparen hv
    have hname := h.greedy fun _ _ _ _ _ => table?_node_kerml
    refine hi 0 (by decide) _ rfl rfl ⟨u, ?_⟩
    cases hname with | cons hname hnil => cases hnil with | nil =>
    exact hname.spans.both (hargs.both (spans_empty u))
  | @inlined r level w b v c ht hi _ ih =>
    intro hr
    exact (ih fun h => absurd h hr).imp fun h => .inlined ht hi (h fun h => absurd h hr)
  | @wrapped r level w b v c ht hi _ ih =>
    intro hr
    refine (ih fun h => absurd h hr).pushNode c.tokens_finish rfl And.right |>.imp fun h => ?_
    exact .wrapped ht hi (h fun h => absurd h hr)
  | @climbed r table level w b v c u d ht _ _ ih1 ih2 =>
    intro hr
    exact ((ih1 fun h => absurd h hr).climb ih2).imp fun h =>
      .climbed ht (h.1 fun h => absurd h hr) h.2
  | @done r table level left w b ht hl =>
    exact ⟨left, [], [], rfl, rfl, by simp, by simp, fun _ h => ⟨h, fun _ => .done ht hl⟩⟩
  | @binary r table level left tier q t w b v c u d ht hl hle hf _ _ _ ih1 ih2 =>
    have hr : r ≠ .arrowInvocationExpression := by
      rintro rfl
      cases ht
    exact (((ih1 hr).label "right" false _ false).operation ih2).imp fun h =>
      .binary ht hl hle hf ⟨h.1.1, fun hm => absurd hm h.1.2⟩ h.2.1.2 h.2.2
  | @suffix r table level left tier q t w b v c u d ht hl hle hf _ _ h2 ih1 ih2 =>
    have hpair := (ih1 fun _ => Builder.bare_operator q left t).operation ih2
    refine hpair.imp ?_
    rintro ⟨htake, ⟨hbrace, hbody⟩, hrest⟩
    refine .suffix ht hl hle hf ⟨htake.1, fun hm => absurd hm htake.2⟩ (hbody fun hq => ?_) hrest
    subst hq
    exact ⟨hbrace rfl, h2.opens_argumentList ht hl hle⟩

end Respelling

end KermlText
