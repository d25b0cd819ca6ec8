import KermlText.Tree.Shape
import KermlText.Proofs.Lossless
import KermlText.Proofs.Respelling
import Mathlib.Data.List.Forall2

/-! Nodes in the making that will show the same. Their fields have the same names and show the same, though
they may point at other places; the children themselves have to be alike only as long as there are no
fields, since then a node may still be taken for the one inside it. -/

namespace KermlText

/-- What a child shows where a field points at it. -/
def Child.shape : Child → Shape
  | .token t => .token t.text
  | .node n => n.shape

theorem Node.shapesOf_eq_map (cs : List Child) : shapesOf cs = cs.map Child.shape := by
  induction cs with
  | nil => rfl
  | cons c cs ih => cases c <;> simp [shapesOf, Child.shape, ih]

/-- Whether a label catches what shows like this. -/
def Shape.caught (tokens : Bool) : Shape → Bool
  | .token _ => tokens
  | .node r _ => !tokens && r != .error
  | .relation _ | .list _ => false

theorem Builder.catches_eq (tokens : Bool) (c : Child) : catches tokens c = c.shape.caught tokens := by
  cases c with
  | token t => rfl
  | node n =>
    cases n with
    | mk r cs fs e => rfl

/-- Two fields show the same, each among children of its own. -/
inductive Slot.Alike (xs ys : List Shape) : Slot → Slot → Prop
  | one {i j x} (hi : xs[i]? = some x) (hj : ys[j]? = some x) : Slot.Alike xs ys (.one i) (.one j)
  | many {is js} (h : List.Forall₂ (fun i j => ∃ x, xs[i]? = some x ∧ ys[j]? = some x) is js) :
      Slot.Alike xs ys (.many is) (.many js)
  | relation {r i j} : Slot.Alike xs ys (.relation r i) (.relation r j)

theorem Slot.Alike.append {xs ys : List Shape} {s s' : Slot} (h : Slot.Alike xs ys s s') (us vs : List Shape) :
    Slot.Alike (xs ++ us) (ys ++ vs) s s' := by
  have hget : ∀ {xs us : List Shape} {i x}, xs[i]? = some x → (xs ++ us)[i]? = some x := fun h => by
    rwa [List.getElem?_append_left (List.getElem?_eq_some_iff.1 h).1]
  cases h with
  | one hi hj => exact .one (hget hi) (hget hj)
  | many h => exact .many (h.imp fun _ _ ⟨x, hi, hj⟩ => ⟨x, hget hi, hget hj⟩)
  | relation => exact .relation

theorem Slot.Alike.ofSlot {xs ys : List Shape} {s s' : Slot} (h : Slot.Alike xs ys s s') :
    Shape.ofSlot ys s' = Shape.ofSlot xs s := by
  cases h with
  | one hi hj => simp [Shape.ofSlot, hi, hj]
  | many h =>
    simp only [Shape.ofSlot, Option.some.injEq, Shape.list.injEq]
    induction h with
    | nil => rfl
    | cons h _ ih =>
      obtain ⟨x, hi, hj⟩ := h
      simp [hi, hj, ih]
  | relation => rfl

namespace Builder

/-- Two nodes in the making will show the same if the same is done with them. -/
structure Likens (b b' : Builder) : Prop where
  rule : b'.rule = b.rule
  error : b'.error = b.error
  fields : List.Forall₂ (fun f f' => f'.1 = f.1 ∧
    Slot.Alike (b.children.map Child.shape) (b'.children.map Child.shape) f.2 f'.2) b.fields b'.fields
  children : b.fields = [] → b'.children.map Child.shape = b.children.map Child.shape

variable {b b' c c' : Builder} {cs cs' : List Child}

theorem likens_start (r : Rule) : (start r).Likens (start r) := ⟨rfl, rfl, .nil, fun _ => rfl⟩

/-- What a field shows it shows among more children as well. -/
theorem Likens.fields_append (h : b.Likens b') (cs cs' : List Child) :
    List.Forall₂ (fun f f' => f'.1 = f.1 ∧ Slot.Alike ((b.children ++ cs).map Child.shape)
      ((b'.children ++ cs').map Child.shape) f.2 f'.2) b.fields b'.fields := by
  simp only [List.map_append]
  exact h.fields.imp fun _ _ hf => ⟨hf.1, hf.2.append _ _⟩

theorem Likens.append (h : b.Likens b') (hs : cs'.map Child.shape = cs.map Child.shape ∨ b.fields ≠ []) :
    ({ b with children := b.children ++ cs } : Builder).Likens { b' with children := b'.children ++ cs' } := by
  refine ⟨h.rule, h.error, h.fields_append cs cs', fun hf => ?_⟩
  simp only [List.map_append]
  rw [h.children hf, hs.resolve_right fun hn => hn hf]

theorem Likens.names (h : b.Likens b') : b'.fields.map Prod.fst = b.fields.map Prod.fst := by
  have hf := h.fields
  generalize b.fields = fs at hf
  generalize b'.fields = fs' at hf
  induction hf with
  | nil => rfl
  | cons h _ ih => simp [h.1, ih]

theorem Likens.any (h : b.Likens b') (name : String) :
    b'.fields.any (fun f => f.1 == name) = b.fields.any fun f => f.1 == name := by
  have hn := congrArg (List.any · (· == name)) h.names
  simpa [List.any_map, Function.comp_def] using hn

theorem Likens.finish (h : b.Likens b') : b'.finish.shape = b.finish.shape := by
  have hf := h.fields
  simp only [Builder.finish, Node.shape, Node.shapesOf_eq_map, h.rule, Shape.node.injEq, true_and]
  generalize b.fields = fs at hf
  generalize b'.fields = fs' at hf
  induction hf with
  | nil => rfl
  | @cons f f' fs fs' h _ ih => simp only [List.filterMap_cons, h.2.ofSlot, h.1, ih]

/-- What is taken for an operand shows the same. -/
theorem Likens.operand (h : b.Likens b') :
    (b'.single?.getD b'.finish).shape = (b.single?.getD b.finish).shape := by
  have hsingle : ∀ {b : Builder} {n : Node}, b.children = [.node n] → b.fields = [] → b.error = false →
      b.single? = some n := fun hc hf he => by simp [single?, hc, hf, he]
  -- a node is the one inside in both, or in neither
  have hback : ∀ {b b' : Builder} {n : Node}, b.single? = some n → b'.error = b.error →
      (b'.fields = [] ↔ b.fields = []) → (b.fields = [] → b'.children.map Child.shape = b.children.map Child.shape) →
      ∃ n', b'.single? = some n' ∧ n'.shape = n.shape := by
    intro b b' n hs he hf hc
    obtain ⟨hchildren, hfields, herror⟩ := children_of_single? hs
    have hc := hc hfields
    rw [hchildren] at hc
    obtain ⟨c, hc', hshape⟩ := List.map_eq_singleton_iff.1 hc
    cases c with
    | token t =>
      cases n with
      | mk => cases hshape
    | node n' => exact ⟨n', hsingle hc' (hf.2 hfields) (he.trans herror), hshape⟩
  have hnil : b'.fields = [] ↔ b.fields = [] := by
    rw [← List.map_eq_nil_iff (f := Prod.fst), h.names, List.map_eq_nil_iff]
  rcases hs : b.single? with _ | n
  · rcases hs' : b'.single? with _ | n'
    · exact h.finish
    · obtain ⟨n, hn, -⟩ := hback hs' h.error.symm hnil.symm fun hf => (h.children (hnil.1 hf)).symm
      rw [hs] at hn
      cases hn
  · obtain ⟨n', hn, hshape⟩ := hback hs h.error hnil h.children
    rw [hn]
    exact hshape

/-! ### More children -/

def pushTokens (b : Builder) (ts : List Token) : Builder :=
  { b with children := b.children ++ ts.map .token }

@[simp] theorem pushTokens_nil (b : Builder) : b.pushTokens [] = b := by simp [pushTokens]

@[simp] theorem pushTokens_cons (b : Builder) (t : Token) (ts : List Token) :
    b.pushTokens (t :: ts) = (b.pushToken t).pushTokens ts := by
  simp [pushTokens, pushToken, push]

/-! ### Labels -/

/-- The places among `cs` that a label catches. -/
def caughtIn (cs : List Child) (tokens : Bool) : List Nat :=
  (List.range cs.length).filter fun i => cs[i]?.any (catches tokens)

theorem caught_append (h : c.children = b.children ++ cs) (tokens : Bool) :
    c.caught b.size tokens = (caughtIn cs tokens).map (b.size + ·) := by
  unfold caught caughtIn size
  simp only [h, List.length_append, Nat.add_sub_cancel_left, List.range'_eq_map_range, List.filter_map]
  congr 1
  refine List.filter_congr fun i _ => ?_
  simp [List.getElem?_append_right]

theorem caughtIn_congr (h : cs'.map Child.shape = cs.map Child.shape) (tokens : Bool) :
    caughtIn cs' tokens = caughtIn cs tokens := by
  have hlen : cs'.length = cs.length := by simpa using congrArg List.length h
  unfold caughtIn
  rw [hlen]
  refine List.filter_congr fun i _ => ?_
  have hi : (cs'.map Child.shape)[i]? = (cs.map Child.shape)[i]? := by rw [h]
  simp only [List.getElem?_map] at hi
  rcases hc : cs[i]? with _ | c <;> rcases hc' : cs'[i]? with _ | c' <;>
    simp_all [catches_eq]

theorem caughtIn_lt {cs : List Child} {tokens : Bool} {i : Nat} (h : i ∈ caughtIn cs tokens) : i < cs.length :=
  List.mem_range.1 (List.mem_filter.1 h).1

theorem Likens.fill (h : c.Likens c') (name : String) {s s' : Slot}
    (hs : Slot.Alike (c.children.map Child.shape) (c'.children.map Child.shape) s s') :
    (c.fill name s).Likens (c'.fill name s') := by
  refine ⟨h.rule, h.error, ?_, fun hf => ?_⟩
  · exact List.rel_append h.fields (.cons ⟨rfl, hs⟩ .nil)
  · exact absurd hf (by simp [Builder.fill])

theorem Likens.extend (h : c.Likens c') (name : String) {is js : List Nat}
    (hs : List.Forall₂ (fun i j => ∃ x, (c.children.map Child.shape)[i]? = some x ∧
      (c'.children.map Child.shape)[j]? = some x) is js) :
    ({ c with fields := c.fields.map fun f => if f.1 == name then (f.1, Builder.extend is f.2) else f } :
      Builder).Likens
      { c' with fields := c'.fields.map fun f => if f.1 == name then (f.1, Builder.extend js f.2) else f } := by
  refine ⟨h.rule, h.error, ?_, fun hf => h.children (List.map_eq_nil_iff.1 hf)⟩
  refine List.forall₂_map_left_iff.2 (List.forall₂_map_right_iff.2 (h.fields.imp ?_))
  rintro ⟨n, s⟩ ⟨n', s'⟩ ⟨hn, hf⟩
  obtain rfl : n' = n := hn
  dsimp only at hf ⊢
  split
  · refine ⟨rfl, ?_⟩
    cases hf with
    | one hi hj => exact .one hi hj
    | many h => exact .many (List.rel_append h hs)
    | relation => exact .relation
  · exact ⟨rfl, hf⟩

/-- From alike ones, `b` and `b'` came to alike ones again, by children that show the same. -/
structure Grows (b b' c c' : Builder) : Prop where
  likens : c.Likens c'
  children : ∃ cs cs', c.children = b.children ++ cs ∧ c'.children = b'.children ++ cs' ∧
    cs'.map Child.shape = cs.map Child.shape

variable {d d' : Builder}

theorem Grows.refl (h : b.Likens b') : Grows b b' b b' := ⟨h, [], [], by simp, by simp, rfl⟩

theorem Grows.trans (h1 : Grows b b' c c') (h2 : Grows c c' d d') : Grows b b' d d' := by
  obtain ⟨cs, cs', hc, hc', hs⟩ := h1.children
  obtain ⟨ds, ds', hd, hd', ht⟩ := h2.children
  exact ⟨h2.likens, cs ++ ds, cs' ++ ds', by rw [hd, hc, List.append_assoc],
    by rw [hd', hc', List.append_assoc], by rw [List.map_append, List.map_append, hs, ht]⟩

theorem Likens.push (h : b.Likens b') {x x' : Child} (hx : x'.shape = x.shape) :
    Grows b b' (b.push x) (b'.push x') :=
  ⟨h.append (.inl (by simp [hx])), [x], [x'], rfl, rfl, by simp [hx]⟩

theorem Likens.pushToken (h : b.Likens b') {t t' : Token} (ht : t'.face = t.face) :
    Grows b b' (b.pushToken t) (b'.pushToken t') :=
  h.push (congrArg (fun f : Kind × String => Shape.token f.2) ht)

theorem Likens.pushNode (h : b.Likens b') {n n' : Node} (hn : n'.shape = n.shape) :
    Grows b b' (b.pushNode n) (b'.pushNode n') :=
  h.push hn

/-- What a label catches among children that show the same shows the same. -/
theorem Grows.caught (h : Grows b b' c c') (tokens : Bool) : ∃ is : List Nat,
    c.caught b.size tokens = is.map (b.size + ·) ∧ c'.caught b'.size tokens = is.map (b'.size + ·) ∧
      ∀ i ∈ is, ∃ x, (c.children.map Child.shape)[b.size + i]? = some x ∧
        (c'.children.map Child.shape)[b'.size + i]? = some x := by
  obtain ⟨cs, cs', hc, hc', hs⟩ := h.children
  refine ⟨caughtIn cs tokens, ?_, ?_, fun i hi => ⟨(cs.get ⟨i, caughtIn_lt hi⟩).shape, ?_, ?_⟩⟩
  · exact caught_append hc tokens
  · rw [caught_append hc', caughtIn_congr hs]
  · rw [hc, List.map_append, List.getElem?_append_right (by simp [size])]
    simp [size, caughtIn_lt hi]
  · rw [hc', List.map_append, List.getElem?_append_right (by simp [size]), hs]
    simp [size, caughtIn_lt hi]

/-- A label over children that show the same keeps the nodes alike. -/
theorem Grows.label (h : Grows b b' c c') (name : String) (many tokens : Bool) (relation : Option Relation) :
    Grows b b' (c.label name many b.size tokens relation) (c'.label name many b'.size tokens relation) := by
  obtain ⟨cs, cs', hc, hc', hs⟩ := h.children
  refine ⟨?_, cs, cs', by simpa using hc, by simpa using hc', hs⟩
  obtain ⟨is, his, his', hshape⟩ := h.caught tokens
  have hpair : List.Forall₂ (fun i j => ∃ x, (c.children.map Child.shape)[i]? = some x ∧
      (c'.children.map Child.shape)[j]? = some x) (is.map (b.size + ·)) (is.map (b'.size + ·)) :=
    List.forall₂_map_left_iff.2 (List.forall₂_map_right_iff.2 (List.forall₂_same.2 hshape))
  unfold Builder.label
  simp only [his, his', h.likens.any]
  split
  · split
    · exact h.likens.extend name hpair
    · exact h.likens.fill name (.many hpair)
  · rcases is with _ | ⟨i, is⟩
    · exact h.likens
    · simp only [List.map_cons]
      split
      · exact h.likens
      · obtain ⟨x, hi, hi'⟩ := hshape i (List.mem_cons_self ..)
        cases relation with
        | none => exact h.likens.fill name (.one hi hi')
        | some r => exact h.likens.fill name .relation

/-- A relation shows the same however it is spelled. -/
theorem Likens.relation (h : b.Likens b') (t t' : Token) (name : String) (r : Relation) :
    ((b.pushToken t).label name false b.size true (some r)).Likens
        ((b'.pushToken t').label name false b'.size true (some r)) ∧
      ((b.pushToken t).label name false b.size true (some r)).fields ≠ [] := by
  have hcaught : ∀ (b : Builder) (t : Token), (b.pushToken t).caught b.size true = [b.size] := fun b t => by
    have h : (b.pushToken t).children = b.children ++ [.token t] := rfl
    rw [caught_append h]
    rfl
  have hlabel : ∀ (b : Builder) (t : Token), (b.pushToken t).label name false b.size true (some r) =
      if b.fields.any (fun f => f.1 == name) then b.pushToken t
      else (b.pushToken t).fill name (.relation r b.size) := fun b t => by
    unfold Builder.label
    rw [hcaught]
    rfl
  rw [hlabel, hlabel, h.any]
  split
  · rename_i hn
    have hne : b.fields ≠ [] := by
      rintro hf
      simp [hf] at hn
    have hpush : (b.pushToken t).Likens (b'.pushToken t') := h.append (.inr hne)
    exact ⟨hpush, hne⟩
  · refine ⟨⟨h.rule, h.error, ?_, fun hf => absurd hf (by simp [Builder.fill])⟩, by simp [Builder.fill]⟩
    exact List.rel_append (h.fields_append _ _) (.cons ⟨rfl, .relation⟩ .nil)

/-- Tokens go on behind a field that is there. -/
theorem Likens.pushTokens (h : b.Likens b') (hb : b.fields ≠ []) (ts ts' : List Token) :
    (b.pushTokens ts).Likens (b'.pushTokens ts') :=
  h.append (.inr hb)

/-- An operator behind nodes that show the same. -/
theorem likens_operator (r : Rule) {left left' : Node} (hl : left'.shape = left.shape) {t t' : Token}
    (ht : t'.face = t.face) : (operator r left t).Likens (operator r left' t') :=
  ((((likens_start r).pushNode hl).label "left" false false none).likens.pushToken ht).label "operator" false
    true none |>.likens

end Builder

end KermlText
