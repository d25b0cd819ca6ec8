import KermlText.Proofs.Acceptance
import KermlText.Proofs.Building
import KermlText.Proofs.Matched
import Mathlib.Data.List.Nodup

/-! Where the fields of a parsed tree point. Labels catch children by their places, so what keeps fields apart
is that nothing under a label fills a field by itself: then all that a label catches comes behind everything
that was caught before. That is a matter of the rules, and so is that skipped tokens are never all of a node.
Both are found by a look at each rule, and a run keeps them from task to task. -/

namespace KermlText

theorem Slot.ascending_extend {s : Slot} {is : List Nat} (hs : s.places.Pairwise (· < ·))
    (his : is.Pairwise (· < ·)) (h : ∀ i ∈ s.places, ∀ j ∈ is, i < j) :
    (Builder.extend is s).places.Pairwise (· < ·) := by
  cases s with
  | many js => exact List.pairwise_append.2 ⟨hs, his, h⟩
  | one i => exact hs
  | relation r i => exact hs

theorem Slot.eq_of_extend_eq_relation {s : Slot} {is : List Nat} {r : Relation} {i : Nat}
    (h : Builder.extend is s = .relation r i) : s = .relation r i := by
  cases s with
  | many js => cases h
  | one i => exact h
  | relation r i => exact h

theorem Builder.ascending_caught (b : Builder) (start : Nat) (tokens : Bool) :
    (b.caught start tokens).Pairwise (· < ·) :=
  (List.pairwise_lt_range' ..).filter _

namespace Node

/-- Fields point at children in their order and at none of them twice, and a relation at a token that spells
it. -/
structure Pointed (n : Node) : Prop extends n.Sound where
  ascending : ∀ f ∈ n.fields, f.2.places.Pairwise (· < ·)
  once : (n.fields.flatMap (·.2.places)).Nodup
  relations : ∀ f ∈ n.fields, ∀ r i, f.2 = .relation r i →
    ∃ t, n.children[i]? = some (.token t) ∧ t.kind ∈ r.spellings.map (·.1)

/-- The fields are in order, and skipped tokens are tokens and nothing else, and are marked. -/
structure WellFormed (n : Node) : Prop extends n.Pointed where
  skipped : n.rule = .error →
    n.children ≠ [] ∧ (∀ c ∈ n.children, ∃ t, c = .token t) ∧ n.fields = [] ∧ n.isError = true

variable {b : Builder}

theorem pointed_of_fields_nil {n : Node} (h : n.fields = []) : n.Pointed where
  names := by rw [h]; exact .nil
  inside := by rw [h]; exact nofun
  unskipped := by rw [h]; exact nofun
  ascending := by rw [h]; exact nofun
  once := by rw [h]; exact .nil
  relations := by rw [h]; exact nofun

theorem Pointed.push (h : b.finish.Pointed) (c : Child) : (b.push c).finish.Pointed where
  toSound := h.toSound.push c
  ascending := h.ascending
  once := h.once
  relations f hf r i hr := by
    obtain ⟨t, ht, hk⟩ := h.relations f hf r i hr
    have hi : i < b.children.length := (List.getElem?_eq_some_iff.1 ht).1
    exact ⟨t, (List.getElem?_append_left hi).trans ht, hk⟩

theorem Pointed.markError (h : b.finish.Pointed) : b.markError.finish.Pointed where
  names := h.names
  inside := h.inside
  unskipped := h.unskipped
  ascending := h.ascending
  once := h.once
  relations := h.relations

section

variable {start : Nat} (tokens : Bool) (hstart : ∀ f ∈ b.fields, ∀ i ∈ f.2.places, i < start)
include hstart

theorem lt_caught {f : String × Slot} (hf : f ∈ b.fields) :
    ∀ i ∈ f.2.places, ∀ j ∈ b.caught start tokens, i < j := fun i hi _ hj =>
  Nat.lt_of_lt_of_le (hstart f hf i hi) (Builder.mem_caught.1 hj).1

variable (h : b.finish.Pointed) (name : String) (many : Bool) {relation : Option Relation}
include h

theorem Pointed.ascending_label :
    ∀ f ∈ (b.label name many start tokens relation).fields, f.2.places.Pairwise (· < ·) := by
  have hcaught := b.ascending_caught start tokens
  rcases b.label_cases name many start tokens relation with he | ⟨slot, he, -, hsub, -⟩ | he
  · rw [he]
    exact h.ascending
  · rw [he]
    refine List.forall_mem_append.2 ⟨h.ascending, List.forall_mem_singleton.2 ?_⟩
    exact hcaught.sublist hsub
  · rw [he]
    refine List.forall_mem_map.2 fun f hf => ?_
    rcases Builder.lengthen_cases name (b.caught start tokens) f with he | ⟨-, he⟩
    · rw [he]
      exact h.ascending f hf
    · rw [he]
      exact Slot.ascending_extend (h.ascending f hf) hcaught (lt_caught tokens hstart hf)

theorem Pointed.once_label :
    ((b.label name many start tokens relation).fields.flatMap (·.2.places)).Nodup := by
  have hcaught : (b.caught start tokens).Nodup := (b.ascending_caught start tokens).imp Nat.ne_of_lt
  rcases b.label_cases name many start tokens relation with he | ⟨slot, he, -, hsub, -⟩ | he
  · rw [he]
    exact h.once
  · rw [he, Builder.fill, List.flatMap_append, List.flatMap_singleton]
    refine List.nodup_append.2 ⟨h.once, hcaught.sublist hsub, fun i hi j hj => ?_⟩
    obtain ⟨f, hf, hi⟩ := List.mem_flatMap.1 hi
    exact Nat.ne_of_lt (lt_caught tokens hstart hf i hi j (hsub.subset hj))
  · have hasc : ∀ f ∈ (b.label name many start tokens relation).fields, f.2.places.Pairwise (· < ·) :=
      h.ascending_label tokens hstart name many
    rw [he] at hasc ⊢
    obtain ⟨-, hapart⟩ := List.nodup_flatMap.1 h.once
    refine List.nodup_flatMap.2 ⟨fun f hf => (hasc f hf).imp Nat.ne_of_lt, ?_⟩
    rw [List.pairwise_map]
    refine ((List.pairwise_map.1 h.names).and hapart).imp_of_mem fun {f g} hf hg hfg i hi hj => ?_
    obtain ⟨hne, hdisjoint⟩ := hfg
    -- one of the two at most has the name, and only that one points at more than before
    rcases Builder.mem_places_lengthen hi with hi | ⟨hfname, hi⟩
    · rcases Builder.mem_places_lengthen hj with hj | ⟨-, hj⟩
      · exact hdisjoint hi hj
      · exact absurd (lt_caught tokens hstart hf i hi i hj) (Nat.lt_irrefl i)
    · rcases Builder.mem_places_lengthen hj with hj | ⟨hgname, -⟩
      · exact absurd (lt_caught tokens hstart hg i hj i hi) (Nat.lt_irrefl i)
      · exact hne (hfname.trans hgname.symm)

/-- A label is in order behind everything that fields point at, and with a relation only on tokens that spell
it. -/
theorem Pointed.label (hrelation : ∀ r, relation = some r → ∀ i ∈ b.caught start tokens,
      ∃ t, b.children[i]? = some (.token t) ∧ t.kind ∈ r.spellings.map (·.1)) :
    (b.label name many start tokens relation).finish.Pointed where
  toSound := h.toSound.label name many start tokens relation
  ascending := h.ascending_label tokens hstart name many
  once := h.once_label tokens hstart name many
  relations := by
    change ∀ f ∈ (b.label name many start tokens relation).fields, ∀ r i, f.2 = .relation r i →
      ∃ t, (b.label name many start tokens relation).children[i]? = some (.token t) ∧ _
    rw [Builder.label_children]
    rcases b.label_cases name many start tokens relation with he | ⟨slot, he, -, hsub, hslot⟩ | he
    · rw [he]
      exact h.relations
    · rw [he]
      refine List.forall_mem_append.2 ⟨h.relations, List.forall_mem_singleton.2 ?_⟩
      rintro r i rfl
      exact hrelation r (hslot r i rfl).2 i (hsub.subset List.mem_cons_self)
    · rw [he]
      refine List.forall_mem_map.2 fun f hf r i hr => h.relations f hf r i ?_
      rcases Builder.lengthen_cases name (b.caught start tokens) f with he | ⟨-, he⟩
      · rwa [he] at hr
      · rw [he] at hr
        exact Slot.eq_of_extend_eq_relation hr

end

end Node

/-! ### Nodes in the making -/

namespace Builder

/-- The fields are in order so far, and so are the nodes inside. -/
structure Formed (b : Builder) : Prop where
  pointed : b.finish.Pointed
  below : ∀ m ∈ Node.descendantsOf b.children, m.WellFormed

/-- Skipped tokens are not all of it: there is a mark or a field, if there are any. -/
def Flagged (b : Builder) : Prop :=
  b.error = true ∨ b.fields ≠ [] ∨ ∀ m, .node m ∈ b.children → m.rule ≠ .error

variable {b c d : Builder} {n : Node}

theorem formed_start (r : Rule) : (start r).Formed := ⟨Node.pointed_of_fields_nil rfl, nofun⟩

theorem flagged_start (r : Rule) : (start r).Flagged := .inr (.inr nofun)

theorem formed_reopen (hn : ∀ m ∈ n.descendants, m.WellFormed) : (reopen n).Formed := by
  cases n with
  | mk r cs fs e =>
    obtain ⟨hself, hbelow⟩ := List.forall_mem_cons.1 hn
    exact ⟨hself.toPointed, hbelow⟩

theorem Formed.finish (h : b.Formed) (hr : b.rule ≠ .error) : ∀ m ∈ b.finish.descendants, m.WellFormed :=
  List.forall_mem_cons.2 ⟨⟨h.pointed, fun he => absurd he hr⟩, h.below⟩

theorem Formed.pushToken (h : b.Formed) (t : Token) : (b.pushToken t).Formed where
  pointed := h.pointed.push _
  below := by
    rw [descendantsOf_pushToken]
    exact h.below

theorem Formed.pushNode (h : b.Formed) (hn : ∀ m ∈ n.descendants, m.WellFormed) : (b.pushNode n).Formed where
  pointed := h.pointed.push _
  below := by
    rw [descendantsOf_pushNode]
    exact List.forall_mem_append.2 ⟨h.below, hn⟩

theorem Formed.markError (h : b.Formed) : b.markError.Formed := ⟨h.pointed.markError, h.below⟩

theorem Formed.label (h : b.Formed) {name : String} {many : Bool} {start : Nat} {tokens : Bool}
    {relation : Option Relation} (hb : (b.label name many start tokens relation).finish.Pointed) :
    (b.label name many start tokens relation).Formed := ⟨hb, by rw [label_children]; exact h.below⟩

theorem Formed.lt_size (h : b.Formed) : ∀ f ∈ b.fields, ∀ i ∈ f.2.places, i < b.size := h.pointed.inside

theorem Formed.single? (h : b.Formed) (hn : b.single? = some n) : ∀ m ∈ n.descendants, m.WellFormed := by
  have hbelow := h.below
  rwa [descendantsOf_of_single? hn] at hbelow

/-- A node that stands for the one in the making is not one of skipped tokens. -/
theorem Flagged.single? (h : b.Flagged) (hn : b.single? = some n) : n.rule ≠ .error := by
  obtain ⟨hchildren, hfields, herror⟩ := children_of_single? hn
  rcases h with h | h | h
  · exact absurd (h.symm.trans herror) (by decide)
  · exact absurd hfields h
  · exact h n (by rw [hchildren]; exact List.mem_cons_self)

theorem Flagged.pushNode (h : b.Flagged) (hn : n.rule ≠ .error) : (b.pushNode n).Flagged := by
  refine h.imp_right (Or.imp_right fun h m hm => ?_)
  rcases List.mem_append.1 hm with hm | hm
  · exact h m hm
  · cases List.mem_singleton.1 hm
    exact hn

theorem Flagged.pushToken (h : b.Flagged) (t : Token) : (b.pushToken t).Flagged := by
  refine h.imp_right (Or.imp_right fun h m hm => ?_)
  rcases List.mem_append.1 hm with hm | hm
  · exact h m hm
  · cases List.mem_singleton.1 hm

/-- A label keeps the fields that are there. -/
theorem Flagged.label (h : b.Flagged) (name : String) (many : Bool) (start : Nat) (tokens : Bool)
    (relation : Option Relation) : (b.label name many start tokens relation).Flagged := by
  rw [Flagged, label_error, label_children]
  refine h.imp_right (Or.imp_left fun h he => h ?_)
  exact Fields.Grows.eq_nil (he ▸ b.grows_label name many start tokens relation)

/-- A list field is there behind its label. -/
theorem flagged_label_many (b : Builder) (name : String) (start : Nat) (tokens : Bool)
    (relation : Option Relation) : (b.label name true start tokens relation).Flagged := by
  refine .inr (.inl ?_)
  rw [Builder.label, if_pos rfl]
  split
  · rename_i h
    obtain ⟨f, hf, -⟩ := List.any_eq_true.1 h
    simpa using List.ne_nil_of_mem hf
  · simp [fill]

theorem Formed.label_none (h : b.Formed) (name : String) (many : Bool) {start : Nat} (tokens : Bool)
    (hstart : ∀ f ∈ b.fields, ∀ i ∈ f.2.places, i < start) : (b.label name many start tokens none).Formed :=
  h.label (h.pointed.label tokens hstart name many (by rintro r ⟨⟩))

theorem Formed.pushLabeledNode (h : b.Formed) (name : String) (hn : ∀ m ∈ n.descendants, m.WellFormed) :
    (b.pushLabeledNode name n).Formed :=
  (h.pushNode hn).label_none name false false h.lt_size

theorem Formed.pushLabeledToken (h : b.Formed) (name : String) (t : Token) :
    (b.pushLabeledToken name t).Formed :=
  (h.pushToken t).label_none name false true h.lt_size

theorem formed_operator (r : Rule) (hn : ∀ m ∈ n.descendants, m.WellFormed) (t : Token) :
    (operator r n t).Formed :=
  ((formed_start r).pushLabeledNode "left" hn).pushLabeledToken "operator" t

/-- What becomes of a node in the making. If `bare`, no field is filled, and if `tidy`, skipped tokens do not
get in by themselves. -/
structure Fills (bare tidy : Prop) (b c : Builder) : Prop where
  rule : c.rule = b.rule
  formed : b.Formed → c.Formed
  fields : bare → c.fields = b.fields
  flagged : tidy → b.Flagged → c.Flagged

namespace Fills

variable {bare tidy bare' tidy' : Prop}

theorem refl (b : Builder) : Fills bare tidy b b := ⟨rfl, id, fun _ => rfl, fun _ => id⟩

theorem trans (h1 : Fills bare tidy b c) (h2 : Fills bare tidy c d) : Fills bare tidy b d where
  rule := h2.rule.trans h1.rule
  formed hb := h2.formed (h1.formed hb)
  fields hbare := (h2.fields hbare).trans (h1.fields hbare)
  flagged htidy hb := h2.flagged htidy (h1.flagged htidy hb)

theorem imp (h : Fills bare tidy b c) (hbare : bare' → bare) (htidy : tidy' → tidy) : Fills bare' tidy' b c :=
  ⟨h.rule, h.formed, fun hb => h.fields (hbare hb), fun ht => h.flagged (htidy ht)⟩

theorem token (b : Builder) (t : Token) : Fills bare tidy b (b.pushToken t) :=
  ⟨rfl, fun h => h.pushToken t, fun _ => rfl, fun _ h => h.pushToken t⟩

theorem node (b : Builder) (hn : ∀ m ∈ n.descendants, m.WellFormed) (hr : n.rule ≠ .error) :
    Fills bare tidy b (b.pushNode n) :=
  ⟨rfl, fun h => h.pushNode hn, fun _ => rfl, fun _ h => h.pushNode hr⟩

theorem mark (h : Fills bare False b c) : Fills bare tidy b c.markError :=
  ⟨h.rule, fun hb => (h.formed hb).markError, h.fields, fun _ _ => .inl rfl⟩

end Fills

end Builder

/-! ### The rules -/

/-- The rules without a node that only choose among others. -/
def Rule.isGroup : Rule → Bool
  | .namespaceMember | .functionBodyMember | .packageElement | .importElement | .classifierElement
  | .featureElement | .relationshipElement | .annotationElement | .classifierRelationship
  | .featureRelationship | .argument => true
  | _ => false

/-- A rule that fills no field of the node that mentions it. -/
def Grammar.isBare (g : Grammar) (r : Rule) : Bool :=
  (g.table? r).isSome || !(g.definition r).inline || r.isGroup

/-- A rule that may be all of a node of another rule. -/
def Grammar.isOpen (g : Grammar) (r : Rule) : Bool := (g.definition r).inline || (g.table? r).isSome

namespace Element

/-- The element fills no field. -/
def isBare (bare : Rule → Bool) : Element → Bool
  | .labeled .. => false
  | .rule r | .ruleAt r _ => bare r
  | _ => true

/-- What is under a label fills no field, and a relation is spelled as it should be. -/
def isPointing (bare : Rule → Bool) : Element → Bool
  | .rule r | .ruleAt r _ => r != .error
  | .relation k r => (r.spellings.map (·.1)).contains k
  | .labeled _ _ e => e.all (isBare bare)
  | _ => true

end Element

mutual

/-- Skipped tokens do not get in without a mark, but for those in a list with a name. -/
def Element.isTidy : Element → Bool
  | .token k | .relation k _ => k != .eof
  | .oneOf ks => ks != Setup.endKinds
  | .comment | .rule _ | .ruleAt _ _ => true
  | .optional e => e.isTidy
  | .repeated e _ resync => !resync && e.isTidy
  | .seq es => allTidy es
  | .labeled _ many e => many || e.isTidy

def allTidy : List Element → Bool
  | [] => true
  | e :: es => e.isTidy && allTidy es

end

namespace Grammar

/-- What the rows of the rules have to be like. -/
structure Orderly (g : Grammar) : Prop where
  pointing : ∀ r, ∀ a ∈ g.alternatives r, a.leftRecursive = false →
    rowAll (Element.isPointing g.isBare) a.elements = true
  groups : ∀ r, r.isGroup = true → ∀ a ∈ g.alternatives r, a.leftRecursive = false →
    rowAll (Element.isBare g.isBare) a.elements = true
  tidy : ∀ r, g.isOpen r = true → ∀ a ∈ g.alternatives r, a.leftRecursive = false →
    allTidy a.elements = true
  error : g.table? .error = none
  operators : ∀ r t, g.table? r = some t → ∀ k tier, t.lookup k ≠ some (tier, .error)

end Grammar

theorem orderly_kerml : kerml.Orderly := by
  have h : ∀ r ∈ Rule.all, ((kerml.alternatives r).all fun a => a.leftRecursive ||
      rowAll (Element.isPointing kerml.isBare) a.elements &&
        (!r.isGroup || rowAll (Element.isBare kerml.isBare) a.elements) &&
        (!kerml.isOpen r || allTidy a.elements)) = true := by
    decide +kernel
  simp only [List.all_eq_true, Bool.or_eq_true, Bool.and_eq_true, Bool.not_eq_true'] at h
  have hrow : ∀ {r a}, a ∈ kerml.alternatives r → a.leftRecursive = false → _ := fun {r a} ha hl =>
    (h r (Rule.mem_all r) a ha).resolve_left (by simp [hl])
  refine ⟨fun r a ha hl => (hrow ha hl).1.1, fun r hr a ha hl => ?_, fun r hr a ha hl => ?_, Setup.table?_error,
    readable_kerml.operators⟩
  · exact (hrow ha hl).1.2.resolve_left (by simp [hr])
  · exact (hrow ha hl).2.resolve_left (by simp [hr])

/-! ### What a run does -/

namespace Task

/-- What is known of a task when it is begun. -/
def Points (g : Grammar) : Task → Prop
  | .element e _ | .items e _ _ _ => e.all (Element.isPointing g.isBare) = true
  | .row es _ => rowAll (Element.isPointing g.isBare) es = true
  | .body _ => True
  | .call r _ _ => r ≠ .error
  | .operators table _ scope left => g.table? scope.rule = some table ∧ left.rule ≠ .error ∧
      ∀ m ∈ left.descendants, m.WellFormed

/-- The task fills no field. -/
def Bare (g : Grammar) : Task → Prop
  | .element e _ | .items e _ _ _ => e.all (Element.isBare g.isBare) = true
  | .row es _ => rowAll (Element.isBare g.isBare) es = true
  | .body scope => scope.rule.isGroup = true
  | .call r _ _ => g.isBare r = true
  | .operators .. => True

/-- The task lets no skipped tokens in by themselves. -/
def Tidy (g : Grammar) : Task → Prop
  | .element e _ => e.isTidy = true
  | .items e resync _ _ => resync = false ∧ e.isTidy = true
  | .row es _ => allTidy es = true
  | .body scope => g.isOpen scope.rule = true
  | .call .. | .operators .. => True

end Task

namespace Setup

variable {u : Setup} {b b' c : Builder} {x x' : Session}

theorem strays_wellFormed {places : List Nat} {n : Node} (h : u.strays places = some n) :
    ∀ m ∈ n.descendants, m.WellFormed := by
  unfold strays at h
  split at h
  · cases h
  · rename_i hne
    cases h
    rw [Node.descendants, Node.descendantsOf_map_token]
    refine List.forall_mem_singleton.2 ⟨Node.pointed_of_fields_nil rfl, fun _ => ⟨?_, ?_, rfl, rfl⟩⟩
    · simpa [Node.children] using hne
    · exact List.forall_mem_map.2 fun i _ => ⟨_, rfl⟩

variable {bare tidy : Prop}

theorem fills_strays (b : Builder) (places : List Nat) :
    Builder.Fills bare False b (b.pushNode? (u.strays places)) := by
  rcases h : u.strays places with _ | n
  · exact .refl b
  · exact ⟨rfl, fun hb => hb.pushNode (strays_wellFormed h), fun _ => rfl, False.elim⟩

theorem fills_expectEnd {scope : Scope} {r : Rule} (h : u.expectEnd scope r b x = .ok b' x') :
    Builder.Fills bare False b b' := by
  rw [expectEnd_eq] at h
  split at h
  · cases h
    exact .refl b
  · cases h
    exact fills_strays b _

theorem fills_expect (hu : u.Regular) {scope : Scope} {set : KindSet}
    (h : u.expect scope set b x = .ok b' x') : Builder.Fills bare (set ≠ endKinds) b b' := by
  rw [expect_eq hu] at h
  split at h
  · rename_i hset
    exact (fills_expectEnd h).imp id fun hne => hne hset
  · split at h
    · cases h
      exact .token b _
    · rw [← Builder.pushNode?_markError] at h
      dsimp only at h
      have hmark : Builder.Fills bare (set ≠ endKinds) b (b.pushNode? (u.strays
          (u.passed (set ∪ scope.follow ∪ scope.context ∪ endKinds) x))).markError := (fills_strays b _).mark
      split at h
      · cases h
        exact hmark.trans (.token _ _)
      · cases h
        exact hmark

/-- A wanted token is of a wanted kind. -/
theorem expect_caught (hu : u.Regular) {scope : Scope} {set : KindSet}
    (h : u.expect scope set b x = .ok b' x') :
    ∀ i ∈ b'.caught b.size true, ∃ t, b'.children[i]? = some (.token t) ∧ set.contains t.kind = true := by
  have hstrays : ∀ (n : Option Node) t, .token t ∉ (n.map Child.node).toList := by
    rintro (_ | n) t ht <;> simp at ht
  have hstands : ∀ {pos}, u.stream.stands pos set = true → set.contains (u.stream.current pos).kind = true :=
    fun h => (Bool.and_eq_true_iff.1 h).2
  have hnew : ∃ cs, b'.children = b.children ++ cs ∧ ∀ t, .token t ∈ cs → set.contains t.kind = true := by
    rw [expect_eq hu] at h
    split at h
    · rw [expectEnd_eq] at h
      split at h
      · cases h
        exact ⟨[], (List.append_nil _).symm, nofun⟩
      · cases h
        exact ⟨_, Builder.pushNode?_children .., fun t ht => absurd ht (hstrays _ t)⟩
    · split at h
      · rename_i hst
        cases h
        refine ⟨_, rfl, fun t ht => ?_⟩
        cases List.mem_singleton.1 ht
        exact hstands hst
      · dsimp only at h
        split at h
        · rename_i hst
          cases h
          rw [Builder.pushToken, Builder.push, Builder.pushNode?_children, List.append_assoc]
          refine ⟨_, rfl, fun t ht => ?_⟩
          rcases List.mem_append.1 ht with ht | ht
          · exact absurd ht (hstrays _ t)
          · cases List.mem_singleton.1 ht
            exact hstands hst
        · cases h
          exact ⟨_, Builder.pushNode?_children .., fun t ht => absurd ht (hstrays _ t)⟩
  obtain ⟨cs, hchildren, hcs⟩ := hnew
  intro i hi
  obtain ⟨hsize, c, hc, hcatch⟩ := Builder.mem_caught.1 hi
  cases c with
  | node m => cases hcatch
  | token t =>
    refine ⟨t, hc, hcs t ?_⟩
    rw [hchildren, List.getElem?_append_right hsize] at hc
    exact List.mem_of_getElem? hc

theorem fills_expectComment {scope : Scope} (h : u.expectComment scope b x = .ok b' x') :
    Builder.Fills bare tidy b b' := by
  rw [expectComment_eq] at h
  split at h
  · cases h
    exact .token b _
  · cases h
    exact (Builder.Fills.refl b).mark

theorem fills_recover {scope : Scope} {r : Rule} (h : u.recover scope r b x = .ok b' x') :
    Builder.Fills bare tidy b b' := by
  rw [recover_eq] at h
  cases h
  exact (fills_strays b _).mark

/-- A label that nothing under it fills a field of. -/
theorem fills_labeled {g : Grammar} {name : String} {many : Bool} {e : Element}
    (hbare : e.all (Element.isBare g.isBare) = true)
    (he : Builder.Fills (e.all (Element.isBare g.isBare) = true) (e.isTidy = true) b b')
    (hrelation : ∀ r, e.relation? = some r → ∀ i ∈ b'.caught b.size e.catchesTokens,
      ∃ t, b'.children[i]? = some (.token t) ∧ t.kind ∈ r.spellings.map (·.1)) :
    Builder.Fills False ((many || e.isTidy) = true) b
      (b'.label name many b.size e.catchesTokens e.relation?) where
  rule := (Builder.label_rule ..).trans he.rule
  formed hb := by
    have hb' := he.formed hb
    refine hb'.label (hb'.pointed.label _ ?_ name many hrelation)
    rw [he.fields hbare]
    exact hb.lt_size
  fields := False.elim
  flagged ht hb := by
    cases many with
    | true => exact Builder.flagged_label_many ..
    | false => exact (he.flagged ht hb).label ..

/-- A run keeps what is in order, and what a task says of itself. -/
theorem Runs.fills (hu : u.Regular) (hg : u.grammar.Orderly) {n : Nat} {task : Task}
    (h : u.Runs n task x b x' b') (hp : task.Points u.grammar) :
    Builder.Fills (task.Bare u.grammar) (task.Tidy u.grammar) b b' := by
  induction h with
  | token h | relation h =>
    refine (fills_expect hu h).imp id fun ht => ?_
    simpa [Task.Tidy, Element.isTidy, single_eq_endKinds] using ht
  | oneOf h =>
    refine (fills_expect hu h).imp id fun ht => ?_
    simpa [Task.Tidy, Element.isTidy] using ht
  | comment h => exact fills_expectComment h
  | rule _ ih | ruleAt _ ih =>
    simp only [Task.Points, Element.all, Element.isPointing, bne_iff_ne] at hp
    exact (ih hp).imp id fun _ => trivial
  | present _ _ ih | repeated _ ih | seq _ ih =>
    simp only [Task.Points, Element.all, Element.isPointing, Bool.true_and] at hp
    exact (ih hp).imp (by simp [Task.Bare, Element.all, Element.isBare]) (by simp [Task.Tidy, Element.isTidy])
  | absent => exact .refl _
  | @labeled _ _ _ e _ _ _ _ _ h ih =>
    simp only [Task.Points, Element.all, Element.isPointing, Bool.and_eq_true] at hp
    obtain ⟨hbare, hp⟩ := hp
    refine (fills_labeled hbare (ih hp) fun r hr i hi => ?_).imp
      (by simp [Task.Bare, Element.all, Element.isBare]) (by simp [Task.Tidy, Element.isTidy])
    cases e with
    | relation k q =>
      cases hr
      cases h with
      | relation h =>
        obtain ⟨t, ht, hk⟩ := expect_caught hu h i hi
        rw [KindSet.contains_single, decide_eq_true_eq] at hk
        refine ⟨t, ht, ?_⟩
        rw [← hk]
        simpa [Element.all, Element.isPointing] using hp
    | _ => cases hr
  | nil => exact .refl _
  | cons _ _ ih1 ih2 =>
    simp only [Task.Points, rowAll, Bool.and_eq_true] at hp
    simp only [Task.Bare, Task.Tidy, rowAll, allTidy, Bool.and_eq_true]
    exact ((ih1 hp.1).imp And.left And.left).trans ((ih2 hp.2).imp And.right And.right)
  | moved _ _ _ _ ih1 ih2 => exact ((ih1 hp).imp id And.right).trans (ih2 hp)
  | stuck _ _ _ _ ih => exact (ih hp).imp id And.right
  | freed _ _ _ hk _ _ ih1 ih2 =>
    have hskips := ((fills_strays _ _).imp id fun ht => ?_).trans (ih2 hp)
    · exact ((ih1 hp).imp id And.right).trans hskips
    · simp [stops, ht.1] at hk
  | ended => exact .refl _
  | resumed _ hk _ _ ih =>
    refine ((fills_strays _ _).imp id fun ht => ?_).trans (ih hp)
    simp [leaves, ht.1] at hk
  | @chosen _ scope _ _ i _ _ _ _ hi _ ih =>
    obtain ⟨a, ha, hl⟩ := Grammar.mem_choices.1 hi
    have hm := List.mem_of_getElem? ha
    rw [Resolver.elements_of_getElem? ha] at ih
    exact (ih (hg.pointing _ a hm hl)).imp (fun hr => hg.groups _ hr a hm hl) fun hr => hg.tidy _ hr a hm hl
  | lost _ h => exact fills_recover h
  | refused h => exact fills_recover h
  | @inlined _ r _ _ _ _ _ _ ht hi _ ih =>
    refine (ih trivial).imp (fun hr => ?_) fun _ => ?_
    · have hgroup : r.isGroup = true := by simpa [Task.Bare, Grammar.isBare, ht, hi] using hr
      exact hgroup
    · simp [Task.Tidy, Grammar.isOpen, Setup.inside, hi]
  | @wrapped _ r _ _ _ b _ c _ _ _ ih =>
    have hc := ih trivial
    have hr : c.rule ≠ .error := by rw [hc.rule]; exact hp
    exact .node b ((hc.formed (Builder.formed_start r)).finish hr) hr
  | @climbed _ r _ _ _ _ table _ c _ _ ht _ _ ih1 ih2 =>
    have hc := ih1 trivial
    have hr : c.rule ≠ .error := by rw [hc.rule]; exact hp
    have hformed := hc.formed (Builder.formed_start r)
    have hflagged := hc.flagged (by simp [Task.Tidy, Grammar.isOpen, operandScope, ht])
      (Builder.flagged_start r)
    refine (ih2 ⟨ht, ?_⟩).imp (fun _ => trivial) id
    rcases hs : c.single? with _ | n
    · exact ⟨hr, hformed.finish hr⟩
    · exact ⟨hflagged.single? hs, hformed.single? hs⟩
  | done _ => exact .node _ hp.2.2 hp.2.1
  | @binary _ table _ scope left x _ tier rule _ c _ _ hl _ _ _ _ _ ih1 ih2 =>
    obtain ⟨ht, -, hleft⟩ := hp
    have hscope : scope.rule ≠ .error := fun he => by
      rw [he, hg.error] at ht
      cases ht
    have hrule : rule ≠ .error := fun he => hg.operators _ _ ht _ tier (he ▸ hl)
    have hoperator := Builder.formed_operator rule hleft (u.stream.current x.pos)
    have hc := ih1 hscope
    have hfields := hc.fields (by simp [Task.Bare, Grammar.isBare, ht])
    have hr : c.rule ≠ .error := by rw [hc.rule, Builder.operator_rule]; exact hrule
    have hformed := hc.formed hoperator
    have hlabel := hformed.label_none "right" false false (hfields ▸ hoperator.lt_size)
    refine ih2 ⟨ht, ?_, hlabel.finish ?_⟩
    all_goals exact (Builder.label_rule ..).trans_ne hr
  | @suffix _ table _ scope left x _ tier rule _ c _ _ hl _ _ _ _ _ ih1 ih2 =>
    obtain ⟨ht, -, hleft⟩ := hp
    have hrule : rule ≠ .error := fun he => hg.operators _ _ ht _ tier (he ▸ hl)
    have hc := ih1 trivial
    have hr : c.rule ≠ .error := by rw [hc.rule, Builder.operator_rule]; exact hrule
    exact ih2 ⟨ht, hr, (hc.formed (Builder.formed_operator rule hleft _)).finish hr⟩

/-- All nodes of a parsed tree are well-formed. -/
theorem Rooted.wellFormed (hu : u.Regular) (hg : u.grammar.Orderly) {r : Rule} (hr : r ≠ .error) {n : Node}
    (h : u.Rooted r n x) : ∀ m ∈ n.descendants, m.WellFormed := by
  obtain ⟨y, b, c, hruns, he, rfl⟩ := h
  have hb := hruns.fills hu hg hr
  have hformed := hb.formed (Builder.formed_start r)
  have hflagged := hb.flagged trivial (Builder.flagged_start r)
  -- a node that is opened again is none of skipped tokens, so it may take those behind the rule
  have hopen : b.unwrapped.Formed ∧ b.unwrapped.rule ≠ .error := by
    unfold Builder.unwrapped
    split
    · rename_i n hn
      exact ⟨Builder.formed_reopen (hformed.single? hn), hflagged.single? hn⟩
    · exact ⟨hformed, hb.rule ▸ hr⟩
  have hc : Builder.Fills True False b.unwrapped c := fills_expectEnd he
  exact (hc.formed hopen.1).finish (hc.rule ▸ hopen.2)

end Setup

/-- Whatever is parsed, the fields of all nodes point at children that are there, one after the other and none
twice, and at no skipped tokens; relations point at tokens that spell them, and skipped tokens lie in marked
nodes without anything else. -/
theorem parseTokens_wellFormed {r : Rule} (hr : r ≠ .error) (ts : List Token) (settings : Settings) {p : Parse}
    (hp : (parseTokens r ts settings).1 = .ok p) : ∀ n ∈ p.root.descendants, n.WellFormed := by
  obtain ⟨x, hroot, -⟩ := rooted_of_parseTokens hp
  exact hroot.wellFormed (regular_ofTokens ts settings) orderly_kerml hr

theorem checked_fields :
    (parseTokens .rootNamespace (scan "class A :> B \x7b ) feature f : A, C; \x7d")
      .standard).1.toOption.any (fun p => p.root.descendants.any (fun n => n.rule == .error) &&
        p.root.descendants.any fun n => n.relation? "relation" == some .typing) = true := by
  decide +kernel

/-- A bracket that is skipped inside a class, and a feature of two types behind it. -/
theorem parseTokens_wellFormed_bracket :
    ∃ p, (parseTokens .rootNamespace (scan "class A :> B \x7b ) feature f : A, C; \x7d") .standard).1 = .ok p ∧
      (∃ n ∈ p.root.descendants, n.rule = .error) ∧
      (∃ n ∈ p.root.descendants, n.relation? "relation" = some .typing) ∧
      ∀ n ∈ p.root.descendants, n.WellFormed := by
  obtain ⟨p, hp⟩ := parseTokens_answers .rootNamespace (scan "class A :> B \x7b ) feature f : A, C; \x7d")
    (rfl : Settings.standard.cancel = none)
  have h := checked_fields
  rw [hp] at h
  simp only [Except.toOption, Option.any_some, Bool.and_eq_true, List.any_eq_true, beq_iff_eq] at h
  exact ⟨p, hp, h.1, h.2, parseTokens_wellFormed (by decide) _ _ hp⟩

end KermlText
