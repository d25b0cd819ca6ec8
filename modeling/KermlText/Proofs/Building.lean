import KermlText.Proofs.Likeness
import KermlText.Proofs.Paths

/-! Nodes under any hands. A bench holds nodes in the making and finished ones, and whatever is done to them in
whatever order, a field points at children that are there and were not skipped, so all of a node can be read.
Fields that are there stay, in their order: a list may become longer at its end, and a single one points where
it pointed at first. What may be done to a piece is said once, as `Turns`. -/

namespace KermlText

/-! ### Slots -/

namespace Slot

/-- Where a field points, in order. -/
def places : Slot → List Nat
  | .one i | .relation _ i => [i]
  | .many is => is

/-- A list that became longer at its end, or the same slot. -/
inductive Grows : Slot → Slot → Prop
  | same (s : Slot) : Grows s s
  | longer (is js : List Nat) : Grows (.many is) (.many (is ++ js))

/-- What a slot shows among children: what is there at each of its places. -/
inductive Shows (cs : List Child) : Slot → Shape → Prop
  | one {i c} (h : cs[i]? = some c) : Shows cs (.one i) c.shape
  | many {is xs} (h : List.Forall₂ (fun i x => ∃ c, cs[i]? = some c ∧ x = c.shape) is xs) :
      Shows cs (.many is) (.list xs)
  | relation {r i} : Shows cs (.relation r i) (.relation r)

variable {s t u : Slot} {is : List Nat} {i : Nat}

theorem Grows.trans (h : s.Grows t) (h' : t.Grows u) : s.Grows u := by
  cases h with
  | same => exact h'
  | longer is js =>
    cases h' with
    | same => exact .longer is js
    | longer _ ks => rw [List.append_assoc]; exact .longer is (js ++ ks)

theorem grows_extend (is : List Nat) (s : Slot) : s.Grows (Builder.extend is s) := by
  cases s with
  | many js => exact .longer js is
  | one i => exact .same _
  | relation r i => exact .same _

theorem mem_places_extend (h : i ∈ (Builder.extend is s).places) : i ∈ s.places ∨ i ∈ is := by
  cases s with
  | many js => exact List.mem_append.1 h
  | one j => exact .inl h
  | relation r j => exact .inl h

end Slot

/-- Every field stays where it is in the order, and its slot grows. -/
def Fields.Grows (fs gs : Fields) : Prop :=
  ∀ (i : Nat) (f : String × Slot), fs[i]? = some f →
    ∃ g : String × Slot, gs[i]? = some g ∧ g.1 = f.1 ∧ f.2.Grows g.2

namespace Fields

variable {fs gs hs : Fields}

theorem Grows.refl (fs : Fields) : fs.Grows fs := fun _ f hf => ⟨f, hf, rfl, .same _⟩

theorem Grows.trans (h : fs.Grows gs) (h' : gs.Grows hs) : fs.Grows hs := by
  intro i f hf
  obtain ⟨g, hg, hname, hgrows⟩ := h i f hf
  obtain ⟨k, hk, hname', hgrows'⟩ := h' i g hg
  exact ⟨k, hk, hname'.trans hname, hgrows.trans hgrows'⟩

theorem nil_grows (gs : Fields) : Grows [] gs := by
  intro i f hf
  simp at hf

theorem Grows.eq_nil (h : fs.Grows []) : fs = [] := by
  rw [List.eq_nil_iff_forall_not_mem]
  intro f hf
  obtain ⟨i, hi⟩ := List.mem_iff_getElem?.1 hf
  obtain ⟨g, hg, -⟩ := h i f hi
  simp at hg

end Fields

/-! ### Labels -/

namespace Builder

theorem mem_caught {b : Builder} {start i : Nat} {tokens : Bool} :
    i ∈ b.caught start tokens ↔ start ≤ i ∧ ∃ c, b.children[i]? = some c ∧ catches tokens c = true := by
  have hlt : ∀ {c}, b.children[i]? = some c → i < b.size := fun hc => (List.getElem?_eq_some_iff.1 hc).1
  rw [caught, List.mem_filter, List.mem_range'_1, Option.any_eq_true]
  constructor
  · exact fun h => ⟨h.1.1, h.2⟩
  · rintro ⟨hstart, c, hc, hcatch⟩
    have hi := hlt hc
    exact ⟨⟨hstart, by omega⟩, c, hc, hcatch⟩

/-- A field behind a label of that name. -/
def lengthen (name : String) (is : List Nat) (f : String × Slot) : String × Slot :=
  if f.1 == name then (f.1, extend is f.2) else f

theorem lengthen_cases (name : String) (is : List Nat) (f : String × Slot) :
    lengthen name is f = f ∨ f.1 = name ∧ lengthen name is f = (f.1, extend is f.2) := by
  unfold lengthen
  split
  · rename_i h
    exact .inr ⟨beq_iff_eq.1 h, rfl⟩
  · exact .inl rfl

theorem lengthen_fst (name : String) (is : List Nat) (f : String × Slot) :
    (lengthen name is f).1 = f.1 := by
  rcases lengthen_cases name is f with h | ⟨-, h⟩ <;> rw [h]

theorem mem_places_lengthen {name : String} {is : List Nat} {f : String × Slot} {i : Nat}
    (h : i ∈ (lengthen name is f).2.places) : i ∈ f.2.places ∨ f.1 = name ∧ i ∈ is := by
  rcases lengthen_cases name is f with he | ⟨hname, he⟩
  · exact .inl (he ▸ h)
  · rw [he] at h
    exact (Slot.mem_places_extend h).imp_right fun hi => ⟨hname, hi⟩

section

variable (b : Builder) (name : String) (many : Bool) (start : Nat) (tokens : Bool) (relation : Option Relation)

/-- A label does nothing, fills a field that was not there with what it caught, or makes the list of its name
longer. -/
theorem label_cases :
    b.label name many start tokens relation = b ∨
      (∃ slot, b.label name many start tokens relation = b.fill name slot ∧ (∀ f ∈ b.fields, f.1 ≠ name) ∧
        slot.places.Sublist (b.caught start tokens) ∧
        ∀ r i, slot = .relation r i → many = false ∧ relation = some r) ∨
      b.label name many start tokens relation =
        { b with fields := b.fields.map (lengthen name (b.caught start tokens)) } := by
  have hnew : ¬ (b.fields.any fun f => f.1 == name) = true → ∀ f ∈ b.fields, f.1 ≠ name := by
    intro h f hf hname
    exact h (List.any_eq_true.2 ⟨f, hf, beq_iff_eq.2 hname⟩)
  unfold label
  dsimp only
  split
  · split
    · exact .inr (.inr rfl)
    · rename_i h
      exact .inr (.inl ⟨_, rfl, hnew h, List.Sublist.refl _, nofun⟩)
  · rename_i hmany
    rcases b.caught start tokens with _ | ⟨i, is⟩
    · exact .inl rfl
    · have hfirst : [i].Sublist (i :: is) := List.sublist_append_left [i] is
      dsimp only
      split
      · exact .inl rfl
      · rename_i h
        refine .inr (.inl ?_)
        cases relation with
        | none => exact ⟨_, rfl, hnew h, hfirst, nofun⟩
        | some r =>
          refine ⟨_, rfl, hnew h, hfirst, fun q j hq => ?_⟩
          cases hq
          exact ⟨Bool.eq_false_iff.2 hmany, rfl⟩

/-- A label points at what was pointed at before, or at what it caught. -/
theorem places_label {f : String × Slot} (hf : f ∈ (b.label name many start tokens relation).fields) {i : Nat}
    (hi : i ∈ f.2.places) : (∃ g ∈ b.fields, i ∈ g.2.places) ∨ i ∈ b.caught start tokens := by
  rcases b.label_cases name many start tokens relation with h | ⟨slot, h, -, hsub, -⟩ | h
  · exact .inl ⟨f, h ▸ hf, hi⟩
  · rw [h] at hf
    rcases List.mem_append.1 hf with hf | hf
    · exact .inl ⟨f, hf, hi⟩
    · obtain rfl := List.mem_singleton.1 hf
      exact .inr (hsub.subset hi)
  · rw [h] at hf
    obtain ⟨g, hg, rfl⟩ := List.mem_map.1 hf
    exact (mem_places_lengthen hi).imp (fun hi => ⟨g, hg, hi⟩) And.right

theorem names_label (h : (b.fields.map (·.1)).Nodup) :
    ((b.label name many start tokens relation).fields.map (·.1)).Nodup := by
  rcases b.label_cases name many start tokens relation with he | ⟨slot, he, hnew, -⟩ | he
  · rwa [he]
  · rw [he]
    simp only [fill, List.map_append, List.map_cons, List.map_nil]
    rw [List.nodup_append]
    refine ⟨h, List.pairwise_singleton _ name, ?_⟩
    intro a ha c hc
    obtain ⟨f, hf, rfl⟩ := List.mem_map.1 ha
    obtain rfl := List.mem_singleton.1 hc
    exact hnew f hf
  · have hsame : (b.label name many start tokens relation).fields.map (·.1) = b.fields.map (·.1) := by
      rw [he, List.map_map]
      exact List.map_congr_left fun f _ => lengthen_fst ..
    rwa [hsame]

theorem grows_label : b.fields.Grows (b.label name many start tokens relation).fields := by
  rcases b.label_cases name many start tokens relation with h | ⟨slot, h, -⟩ | h
  · rw [h]
    exact .refl _
  · rw [h]
    intro i f hf
    have hi := (List.getElem?_eq_some_iff.1 hf).1
    exact ⟨f, (List.getElem?_append_left hi).trans hf, rfl, .same _⟩
  · rw [h]
    intro i f hf
    refine ⟨lengthen name (b.caught start tokens) f, by rw [List.getElem?_map, hf]; rfl, lengthen_fst .., ?_⟩
    rcases lengthen_cases name (b.caught start tokens) f with he | ⟨-, he⟩
    · rw [he]
      exact .same _
    · rw [he]
      exact Slot.grows_extend _ _

end

end Builder

/-! ### Sound nodes -/

namespace Node

/-- The names are different, and fields point at children that are there and were not skipped. -/
structure Sound (n : Node) : Prop where
  names : (n.fields.map (·.1)).Nodup
  inside : ∀ f ∈ n.fields, ∀ i ∈ f.2.places, i < n.children.length
  unskipped : ∀ f ∈ n.fields, ∀ i ∈ f.2.places, ∀ m, n.children[i]? = some (.node m) → m.rule ≠ .error

/-- Each field gives what it points at, all of it: only a name that is missing or an empty list gives
nothing. -/
structure Legible (n : Node) : Prop where
  field : ∀ name, n.field? name = none ↔ n.slot? name = none ∨ n.slot? name = some (.many [])
  fieldAll : ∀ name, List.Forall₂ (fun i c => n.children[i]? = some c) ((n.slot? name).elim [] Slot.places)
    (n.fieldAll name)
  shape : ∃ shown, n.shape = .node n.rule shown ∧
    List.Forall₂ (fun f g => g.1 = f.1 ∧ f.2.Shows n.children g.2) n.fields shown

/-- The fields grow, and the children that they point at stay. -/
structure Grows (n m : Node) : Prop where
  fields : n.fields.Grows m.fields
  children : n.fields = [] ∨ n.children <+: m.children

variable {n m k : Node} {b : Builder}

theorem Grows.refl (n : Node) : n.Grows n := ⟨.refl _, .inr (List.prefix_refl _)⟩

theorem Grows.trans (h : n.Grows m) (h' : m.Grows k) : n.Grows k := by
  refine ⟨h.fields.trans h'.fields, ?_⟩
  rcases h.children with hn | hnm
  · exact .inl hn
  · rcases h'.children with hm | hmk
    · exact .inl (Fields.Grows.eq_nil (hm ▸ h.fields))
    · exact .inr (hnm.trans hmk)

/-- What is at the places of a field. -/
theorem Sound.child (h : n.Sound) {f : String × Slot} (hf : f ∈ n.fields) {i : Nat} (hi : i ∈ f.2.places) :
    ∃ c, n.children[i]? = some c :=
  ⟨_, List.getElem?_eq_getElem (h.inside f hf i hi)⟩

theorem sound_start (r : Rule) : (Builder.start r).finish.Sound := ⟨.nil, nofun, nofun⟩

theorem Sound.push (h : b.finish.Sound) (c : Child) : (b.push c).finish.Sound where
  names := h.names
  inside f hf i hi := by
    have := h.inside f hf i hi
    exact Nat.lt_of_lt_of_le this (by simp [Builder.finish, Builder.push, Node.children])
  unskipped f hf i hi m hm := by
    have hlt := h.inside f hf i hi
    refine h.unskipped f hf i hi m ?_
    rwa [← List.getElem?_append_left hlt]

theorem Sound.label (h : b.finish.Sound) (name : String) (many : Bool) (start : Nat) (tokens : Bool)
    (relation : Option Relation) : (b.label name many start tokens relation).finish.Sound := by
  have hcaught : ∀ i ∈ b.caught start tokens, i < b.children.length ∧
      ∀ m, b.children[i]? = some (.node m) → m.rule ≠ .error := by
    intro i hi
    obtain ⟨-, c, hc, hcatch⟩ := Builder.mem_caught.1 hi
    refine ⟨(List.getElem?_eq_some_iff.1 hc).1, fun m hm => ?_⟩
    obtain rfl := Option.some.inj (hc.symm.trans hm)
    simp only [Builder.catches, Bool.and_eq_true, bne_iff_ne] at hcatch
    exact hcatch.2
  have hplace : ∀ f ∈ (b.label name many start tokens relation).fields, ∀ i ∈ f.2.places,
      i < b.children.length ∧ ∀ m, b.children[i]? = some (.node m) → m.rule ≠ .error := by
    intro f hf i hi
    rcases b.places_label name many start tokens relation hf hi with ⟨g, hg, hi⟩ | hi
    · exact ⟨h.inside g hg i hi, h.unskipped g hg i hi⟩
    · exact hcaught i hi
  refine ⟨b.names_label name many start tokens relation h.names, fun f hf i hi => ?_, fun f hf i hi => ?_⟩
  · rw [Builder.finish, Node.children, Builder.label_children]
    exact (hplace f hf i hi).1
  · rw [Builder.finish, Node.children, Builder.label_children]
    exact (hplace f hf i hi).2

theorem forall₂_filterMap {α β : Type} {R : α → β → Prop} {f : α → Option β} {l : List α}
    (h : ∀ a ∈ l, ∃ b, f a = some b ∧ R a b) : List.Forall₂ R l (l.filterMap f) := by
  induction l with
  | nil => exact .nil
  | cons a l ih =>
    obtain ⟨b, hb, hr⟩ := h a List.mem_cons_self
    rw [List.filterMap_cons_some hb]
    exact .cons hr (ih fun c hc => h c (List.mem_cons_of_mem a hc))

theorem field?_eq (n : Node) (name : String) :
    n.field? name = ((n.slot? name).elim [] Slot.places).head?.bind fun i => n.children[i]? := by
  unfold field?
  rcases n.slot? name with _ | i | is | ⟨r, i⟩ <;> rfl

theorem fieldAll_eq (n : Node) (name : String) :
    n.fieldAll name = ((n.slot? name).elim [] Slot.places).filterMap fun i => n.children[i]? := by
  unfold fieldAll
  rcases n.slot? name with _ | i | is | ⟨r, i⟩ <;> simp [Slot.places, List.filterMap_cons]
  all_goals rcases n.children[i]? with _ | c <;> rfl

theorem Sound.shows (h : n.Sound) {f : String × Slot} (hf : f ∈ n.fields) :
    ∃ x, Shape.ofSlot (n.children.map Child.shape) f.2 = some x ∧ f.2.Shows n.children x := by
  have hchild : ∀ i ∈ f.2.places, ∃ c, n.children[i]? = some c := fun i => h.child hf
  rcases f with ⟨name, i | is | ⟨r, i⟩⟩
  · obtain ⟨c, hc⟩ := hchild i List.mem_cons_self
    exact ⟨c.shape, by simp [Shape.ofSlot, hc], .one hc⟩
  · refine ⟨_, rfl, .many (forall₂_filterMap fun i hi => ?_)⟩
    obtain ⟨c, hc⟩ := hchild i hi
    exact ⟨c.shape, by simp [hc], c, hc, rfl⟩
  · exact ⟨_, rfl, .relation⟩

theorem Sound.slot (h : n.Sound) {name : String} {i : Nat} (hi : i ∈ (n.slot? name).elim [] Slot.places) :
    ∃ c, n.children[i]? = some c := by
  rcases hs : n.slot? name with _ | s
  · rw [hs] at hi
    exact absurd hi List.not_mem_nil
  · rw [hs] at hi
    obtain ⟨before, after, hfields, -⟩ := List.lookup_eq_some_iff.1 hs
    have hf : (name, s) ∈ n.fields := by
      rw [hfields]
      exact List.mem_append_right before List.mem_cons_self
    exact h.child hf hi

theorem Sound.field (h : n.Sound) (name : String) :
    n.field? name = none ↔ n.slot? name = none ∨ n.slot? name = some (.many []) := by
  have hfirst : ∀ i is, (n.slot? name).elim [] Slot.places = i :: is → n.children[i]? ≠ none := by
    intro i is hi
    have hmem : i ∈ (n.slot? name).elim [] Slot.places := hi ▸ List.mem_cons_self
    obtain ⟨c, hc⟩ := h.slot hmem
    simp [hc]
  rw [field?_eq]
  rcases hs : n.slot? name with _ | i | (_ | ⟨i, is⟩) | ⟨r, i⟩
  · simp
  · simpa [Slot.places] using hfirst i [] (by rw [hs]; rfl)
  · simp [Slot.places]
  · simpa [Slot.places] using hfirst i is (by rw [hs]; rfl)
  · simpa [Slot.places] using hfirst i [] (by rw [hs]; rfl)

theorem Sound.shape (h : n.Sound) : ∃ shown, n.shape = .node n.rule shown ∧
    List.Forall₂ (fun f g => g.1 = f.1 ∧ f.2.Shows n.children g.2) n.fields shown := by
  cases n with
  | mk r cs fs e =>
    refine ⟨_, by rw [Node.shape, shapesOf_eq_map]; rfl, ?_⟩
    apply forall₂_filterMap
    intro f hf
    obtain ⟨x, hx, hshows⟩ := h.shows hf
    exact ⟨(f.1, x), congrArg (Option.map _) hx, rfl, hshows⟩

theorem Sound.legible (h : n.Sound) : n.Legible where
  field := h.field
  fieldAll name := by
    rw [fieldAll_eq]
    apply forall₂_filterMap
    intro i hi
    obtain ⟨c, hc⟩ := h.slot hi
    exact ⟨c, hc, hc⟩
  shape := h.shape

end Node

/-! ### The bench -/

inductive Piece where
  | making (b : Builder)
  | made (n : Node)

/-- What may be done. A piece is known by its place on the bench. -/
inductive Chore where
  | start (r : Rule)
  | pushToken (i : Nat) (t : Token)
  | pushNode (i j : Nat)
  | markError (i : Nat)
  | label (i : Nat) (name : String) (many : Bool) (start : Nat) (tokens : Bool) (relation : Option Relation)
  | pushLabeledNode (i : Nat) (name : String) (j : Nat)
  | pushLabeledToken (i : Nat) (name : String) (t : Token)
  | finish (i : Nat)
  | reopen (i : Nat)
  | single (i : Nat)

/-- The node of a piece as it is. -/
def Piece.node : Piece → Node
  | .making b => b.finish
  | .made n => n

abbrev Bench := List Piece

namespace Bench

def making? (bench : Bench) (i : Nat) : Option Builder :=
  match bench[i]? with
  | some (.making b) => some b
  | _ => none

def made? (bench : Bench) (i : Nat) : Option Node :=
  match bench[i]? with
  | some (.made n) => some n
  | _ => none

def change (bench : Bench) (i : Nat) (f : Builder → Builder) : Bench :=
  match bench.making? i with
  | some b => bench.set i (.making (f b))
  | none => bench

/-- A chore done. Nothing is done to a piece that is not there, or is made where one in the making is asked
for. A node that was put into another one may be used again. -/
def step (bench : Bench) : Chore → Bench
  | .start r => bench ++ [.making (.start r)]
  | .pushToken i t => bench.change i (·.pushToken t)
  | .pushNode i j => (bench.made? j).elim bench fun n => bench.change i (·.pushNode n)
  | .markError i => bench.change i (·.markError)
  | .label i name many start tokens relation => bench.change i (·.label name many start tokens relation)
  | .pushLabeledNode i name j => (bench.made? j).elim bench fun n => bench.change i (·.pushLabeledNode name n)
  | .pushLabeledToken i name t => bench.change i (·.pushLabeledToken name t)
  | .finish i => (bench.making? i).elim bench fun b => bench.set i (.made b.finish)
  | .reopen i => (bench.made? i).elim bench fun n => bench.set i (.making (.reopen n))
  | .single i => ((bench.making? i).bind (·.single?)).elim bench fun n => bench.set i (.made n)

def run (chores : List Chore) : Bench := chores.foldl step []

end Bench

/-- What may become of a node, where others are at hand. -/
inductive Node.Turns (hands : List Node) : Node → Node → Prop
  | same (n : Node) : Turns hands n n
  | token (b : Builder) (t : Token) : Turns hands b.finish (b.pushToken t).finish
  | node (b : Builder) {n : Node} (h : n ∈ hands) : Turns hands b.finish (b.pushNode n).finish
  | mark (b : Builder) : Turns hands b.finish b.markError.finish
  | label (b : Builder) (name : String) (many : Bool) (start : Nat) (tokens : Bool)
      (relation : Option Relation) : Turns hands b.finish (b.label name many start tokens relation).finish
  | single {b : Builder} {n : Node} (h : b.single? = some n) : Turns hands b.finish n
  | trans {n m k : Node} (h : Turns hands n m) (h' : Turns hands m k) : Turns hands n k

/-- A node and all nodes in it are sound. -/
def Node.Sturdy (n : Node) : Prop := ∀ m ∈ n.descendants, m.Sound

theorem Node.sturdy_finish {b : Builder} :
    b.finish.Sturdy ↔ b.finish.Sound ∧ ∀ m ∈ descendantsOf b.children, m.Sound :=
  List.forall_mem_cons

namespace Builder

@[simp] theorem descendantsOf_pushToken (b : Builder) (t : Token) :
    Node.descendantsOf (b.pushToken t).children = Node.descendantsOf b.children := by
  simp [pushToken, push, Node.descendantsOf_append, Node.descendantsOf]

@[simp] theorem descendantsOf_pushNode (b : Builder) (n : Node) :
    Node.descendantsOf (b.pushNode n).children = Node.descendantsOf b.children ++ n.descendants := by
  simp [pushNode, push, Node.descendantsOf_append, Node.descendantsOf]

theorem descendantsOf_of_single? {b : Builder} {n : Node} (h : b.single? = some n) :
    Node.descendantsOf b.children = n.descendants := by
  rw [(children_of_single? h).1, Node.descendantsOf, Node.descendantsOf, List.append_nil]

end Builder

namespace Node.Turns

variable {hands : List Node} {n m : Node}

theorem grows (h : Turns hands n m) : n.Grows m := by
  induction h with
  | same n => exact .refl n
  | token b t => exact ⟨.refl _, .inr (List.prefix_append _ _)⟩
  | node b h => exact ⟨.refl _, .inr (List.prefix_append _ _)⟩
  | mark b => exact ⟨.refl _, .inr (List.prefix_refl _)⟩
  | label b name many start tokens relation =>
    refine ⟨b.grows_label name many start tokens relation, .inr ?_⟩
    simp only [Builder.finish, Node.children, Builder.label_children]
    exact List.prefix_refl _
  | single h =>
    obtain ⟨-, hfields, -⟩ := Builder.children_of_single? h
    have hnil : (Builder.finish _).fields = [] := hfields
    exact ⟨hnil ▸ Fields.nil_grows _, .inl hnil⟩
  | trans _ _ ih ih' => exact ih.trans ih'

theorem sturdy (h : Turns hands n m) (hhands : ∀ k ∈ hands, k.Sturdy) (hn : n.Sturdy) : m.Sturdy := by
  induction h with
  | same n => exact hn
  | token b t =>
    obtain ⟨hsound, hbelow⟩ := sturdy_finish.1 hn
    exact sturdy_finish.2 ⟨hsound.push _, by rwa [Builder.descendantsOf_pushToken]⟩
  | @node b k hk =>
    obtain ⟨hsound, hbelow⟩ := sturdy_finish.1 hn
    refine sturdy_finish.2 ⟨hsound.push _, ?_⟩
    rw [Builder.descendantsOf_pushNode]
    exact List.forall_mem_append.2 ⟨hbelow, hhands k hk⟩
  | mark b =>
    obtain ⟨hsound, hbelow⟩ := sturdy_finish.1 hn
    exact sturdy_finish.2 ⟨⟨hsound.names, hsound.inside, hsound.unskipped⟩, hbelow⟩
  | label b name many start tokens relation =>
    obtain ⟨hsound, hbelow⟩ := sturdy_finish.1 hn
    refine sturdy_finish.2 ⟨hsound.label name many start tokens relation, ?_⟩
    rwa [Builder.label_children]
  | @single b k hk =>
    have hbelow := (sturdy_finish.1 hn).2
    rwa [Builder.descendantsOf_of_single? hk] at hbelow
  | trans _ _ ih ih' => exact ih' (ih hn)

end Node.Turns

namespace Bench

variable {bench : Bench} {i : Nat}

/-- The nodes of all pieces as they are. -/
def hands (bench : Bench) : List Node := bench.map Piece.node

theorem making?_eq_some {b : Builder} : bench.making? i = some b ↔ bench[i]? = some (.making b) := by
  unfold making?
  constructor
  · intro h
    split at h
    · rename_i b' hb
      rwa [← Option.some.inj h]
    · cases h
  · intro h
    rw [h]

theorem of_made? {n : Node} (h : bench.made? i = some n) : bench[i]? = some (.made n) := by
  unfold made? at h
  split at h
  · rename_i n' hn
    rwa [← Option.some.inj h]
  · cases h

/-- What a step may do: nothing, or put one more piece on the bench, or turn a piece into another one. -/
inductive Goes (bench : Bench) : Bench → Prop
  | stays : Goes bench bench
  | start (r : Rule) : Goes bench (bench ++ [.making (.start r)])
  | turns {i : Nat} {p q : Piece} (hp : bench[i]? = some p) (h : Node.Turns bench.hands p.node q.node) :
      Goes bench (bench.set i q)

theorem goes_change {f : Builder → Builder} (h : ∀ b : Builder, Node.Turns bench.hands b.finish (f b).finish)
    (i : Nat) : bench.Goes (bench.change i f) := by
  unfold change
  rcases hb : bench.making? i with _ | b
  · exact .stays
  · exact .turns (making?_eq_some.1 hb) (h b)

theorem goes_step (bench : Bench) (c : Chore) : bench.Goes (bench.step c) := by
  have hhand : ∀ {j n}, bench.made? j = some n → n ∈ bench.hands := fun hn =>
    List.mem_map.2 ⟨_, List.mem_of_getElem? (of_made? hn), rfl⟩
  cases c with
  | start r => exact .start r
  | pushToken i t => exact goes_change (fun b => .token b t) i
  | pushNode i j =>
    simp only [step]
    rcases hn : bench.made? j with _ | n
    · exact .stays
    · exact goes_change (fun b => .node b (hhand hn)) i
  | markError i => exact goes_change .mark i
  | label i name many start tokens relation =>
    exact goes_change (fun b => .label b name many start tokens relation) i
  | pushLabeledNode i name j =>
    simp only [step]
    rcases hn : bench.made? j with _ | n
    · exact .stays
    · exact goes_change (fun b => (Node.Turns.node b (hhand hn)).trans (.label ..)) i
  | pushLabeledToken i name t => exact goes_change (fun b => (Node.Turns.token b t).trans (.label ..)) i
  | finish i =>
    simp only [step]
    rcases hb : bench.making? i with _ | b
    · exact .stays
    · exact .turns (making?_eq_some.1 hb) (.same _)
  | reopen i =>
    simp only [step]
    rcases hn : bench.made? i with _ | n
    · exact .stays
    · refine .turns (of_made? hn) ?_
      rw [Piece.node, Piece.node, Builder.finish_reopen]
      exact .same n
  | single i =>
    simp only [step]
    rcases hb : bench.making? i with _ | b
    · exact .stays
    · rw [Option.bind_some]
      rcases hs : b.single? with _ | n
      · exact .stays
      · exact .turns (making?_eq_some.1 hb) (.single hs)

/-- Every piece is still there, and its node grew. -/
def Grows (bench bench' : Bench) : Prop :=
  ∀ (i : Nat) (p : Piece), bench[i]? = some p → ∃ q : Piece, bench'[i]? = some q ∧ p.node.Grows q.node

def Sturdy (bench : Bench) : Prop := ∀ p ∈ bench, p.node.Sturdy

variable {bench' : Bench}

theorem Grows.refl (bench : Bench) : bench.Grows bench := fun _ p hp => ⟨p, hp, .refl _⟩

theorem Goes.grows (h : bench.Goes bench') : bench.Grows bench' := by
  intro j p hp
  cases h with
  | stays => exact ⟨p, hp, .refl _⟩
  | start r =>
    have hj := (List.getElem?_eq_some_iff.1 hp).1
    exact ⟨p, (List.getElem?_append_left hj).trans hp, .refl _⟩
  | @turns i p' q hp' h =>
    rcases Nat.decEq i j with hij | rfl
    · exact ⟨p, (List.getElem?_set_ne hij).trans hp, .refl _⟩
    · obtain rfl := Option.some.inj (hp.symm.trans hp')
      exact ⟨q, List.getElem?_set_self (List.getElem?_eq_some_iff.1 hp).1, h.grows⟩

theorem Goes.sturdy (h : bench.Goes bench') (hs : bench.Sturdy) : bench'.Sturdy := by
  cases h with
  | stays => exact hs
  | start r =>
    refine List.forall_mem_append.2 ⟨hs, List.forall_mem_singleton.2 ?_⟩
    exact Node.sturdy_finish.2 ⟨Node.sound_start r, nofun⟩
  | turns hp h =>
    intro p hp'
    rcases List.mem_or_eq_of_mem_set hp' with hp' | rfl
    · exact hs p hp'
    · refine h.sturdy ?_ (hs _ (List.mem_of_getElem? hp))
      exact List.forall_mem_map.2 hs

/-- Whatever else is done, sound pieces stay sound and grow. -/
theorem foldl_step (h : bench.Sturdy) (chores : List Chore) :
    (chores.foldl step bench).Sturdy ∧ bench.Grows (chores.foldl step bench) := by
  induction chores generalizing bench with
  | nil => exact ⟨h, .refl bench⟩
  | cons c chores ih =>
    have hgoes := bench.goes_step c
    obtain ⟨hsturdy, hgrows⟩ := ih (hgoes.sturdy h)
    refine ⟨hsturdy, fun i p hp => ?_⟩
    obtain ⟨q, hq, hpq⟩ := hgoes.grows i p hp
    obtain ⟨k, hk, hqk⟩ := hgrows i q hq
    exact ⟨k, hk, hpq.trans hqk⟩

theorem single?_eq_some {b : Builder} {n : Node} :
    b.single? = some n ↔ b.children = [.node n] ∧ b.fields = [] ∧ b.error = false := by
  refine ⟨Builder.children_of_single?, ?_⟩
  rintro ⟨hchildren, hfields, herror⟩
  simp [Builder.single?, hchildren, hfields, herror]

/-- Whatever is done on a bench, all nodes on it are sound and can be read, what is done further lets every
piece grow, and a node in the making gives way to one inside it only if there is nothing else in it. -/
theorem run_sound (chores more : List Chore) :
    (∀ p ∈ run chores, ∀ n ∈ p.node.descendants, n.Sound ∧ n.Legible) ∧
      (run chores).Grows (run (chores ++ more)) ∧
      ∀ i b, (run chores)[i]? = some (.making b) →
        (∀ n, b.children = [.node n] ∧ b.fields = [] ∧ b.error = false →
          run (chores ++ [.single i]) = (run chores).set i (.made n)) ∧
        ((¬ ∃ n, b.children = [.node n] ∧ b.fields = [] ∧ b.error = false) →
          run (chores ++ [.single i]) = run chores) := by
  have happend : ∀ more, run (chores ++ more) = more.foldl step (run chores) := fun more => by
    rw [run, List.foldl_append, run]
  have hempty : Sturdy [] := nofun
  have hsturdy : (run chores).Sturdy := (foldl_step hempty chores).1
  refine ⟨fun p hp n hn => ⟨hsturdy p hp n hn, (hsturdy p hp n hn).legible⟩, ?_, fun i b hb => ?_⟩
  · rw [happend]
    exact (foldl_step hsturdy more).2
  · have hstep : run (chores ++ [.single i]) =
        b.single?.elim (run chores) fun n => (run chores).set i (.made n) := by
      rw [happend, List.foldl_cons, List.foldl_nil, step, making?_eq_some.2 hb, Option.bind_some]
    refine ⟨fun n hn => ?_, fun hnone => ?_⟩
    · rw [hstep, single?_eq_some.2 hn, Option.elim_some]
    · rw [hstep]
      rcases hs : b.single? with _ | n
      · rfl
      · exact absurd ⟨n, single?_eq_some.1 hs⟩ hnone

end Bench
end KermlText
