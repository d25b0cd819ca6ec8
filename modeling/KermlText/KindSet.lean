import KermlText.Kind

/-!
Sets of kinds. A set is one bit per kind, so union and intersection are single operations on bit
vectors and two sets are equal exactly when their bits are. `toList` lists the members in
declaration order; every other operation is described by what it does to `contains`.
-/

namespace KermlText

structure KindSet where
  bits : BitVec Kind.count
  deriving DecidableEq

namespace KindSet

def empty : KindSet := ⟨0⟩

instance : EmptyCollection KindSet := ⟨empty⟩

def single (k : Kind) : KindSet := ⟨BitVec.twoPow Kind.count k.index⟩

def contains (s : KindSet) (k : Kind) : Bool := s.bits.getLsbD k.index

def union (s t : KindSet) : KindSet := ⟨s.bits ||| t.bits⟩

instance : Union KindSet := ⟨union⟩

def insert (s : KindSet) (k : Kind) : KindSet := s ∪ single k

def ofList (ks : List Kind) : KindSet := ks.foldl insert ∅

def toList (s : KindSet) : List Kind := Kind.all.filter s.contains

def size (s : KindSet) : Nat := s.toList.length

def isEmpty (s : KindSet) : Bool := s.bits == 0

def intersects (s t : KindSet) : Bool := s.bits &&& t.bits != 0

/-- The union, and whether it holds more than `s` did. -/
def extend (s t : KindSet) : KindSet × Bool :=
  (s ∪ t, s ∪ t != s)

/-- How a message lists a set. -/
def render (s : KindSet) : String :=
  match s.toList.map Kind.noun with
  | [] => "nothing"
  | [n] => n
  | ns => "one of " ++ ", ".intercalate ns

/-- The set in braces, by code name. -/
def renderLabels (s : KindSet) : String :=
  "\x7b" ++ ", ".intercalate (s.toList.map Kind.label) ++ "\x7d"

@[simp] theorem contains_empty (k : Kind) : (∅ : KindSet).contains k = false := by
  simp [EmptyCollection.emptyCollection, empty, contains]

@[simp] theorem contains_single (a k : Kind) : (single a).contains k = decide (a = k) := by
  simp only [single, contains, BitVec.getLsbD_twoPow]
  have := Kind.index_lt a
  by_cases h : a = k
  · subst h; simp [this]
  · simp [h, this]; exact fun e => h (Kind.index_inj e)

@[simp] theorem contains_union (s t : KindSet) (k : Kind) :
    (s ∪ t).contains k = (s.contains k || t.contains k) := by
  simp [Union.union, union, contains]

@[simp] theorem contains_insert (s : KindSet) (a k : Kind) :
    (s.insert a).contains k = (s.contains k || decide (a = k)) := by
  simp [insert]

theorem contains_ofList {ks : List Kind} {k : Kind} : (ofList ks).contains k = true ↔ k ∈ ks := by
  suffices ∀ s : KindSet, (ks.foldl insert s).contains k = true ↔ s.contains k = true ∨ k ∈ ks by
    simpa [ofList] using this ∅
  induction ks with
  | nil => simp
  | cons a ks ih =>
    intro s
    rw [List.foldl_cons, ih, contains_insert, Bool.or_eq_true, decide_eq_true_eq, List.mem_cons,
      or_assoc, @eq_comm _ a k]

theorem mem_toList {s : KindSet} {k : Kind} : k ∈ s.toList ↔ s.contains k = true := by
  simp [toList, Kind.mem_all]

end KindSet

end KermlText
