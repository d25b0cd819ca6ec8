import KermlText.Proofs.Starts

/-! Patterns that keep apart. Two stacks of patterns are followed side by side, token by token: if no pair
of stacks that is met on the way allows both to go on or to be over, no text can be read by both. The
pairs are finitely many, so the check is a computation. -/

namespace KermlText

namespace KindSet

def without (s : KindSet) (k : Kind) : KindSet := ⟨s.bits &&& ~~~(single k).bits⟩

theorem contains_without {s : KindSet} {a k : Kind} (hk : k ≠ a) (h : s.contains k = true) :
    (s.without a).contains k = true := by
  have ha : (single a).contains k = false := by simpa using hk.symm
  unfold contains at h ha
  unfold contains without
  rw [BitVec.getLsbD_and, BitVec.getLsbD_not, h, ha]
  simp [Kind.index_lt k]

theorem intersects_of_contains {s t : KindSet} {k : Kind} (hs : s.contains k = true)
    (ht : t.contains k = true) : s.intersects t = true := by
  rcases h : s.intersects t with _ | _
  · rw [not_contains_of_not_intersects h hs] at ht
    cases ht
  · rfl

end KindSet

abbrev Stack := List Pattern

/-- What a stack may do: be over, or take a token and go on as another stack. -/
structure Moves where
  ends : Bool
  steps : List (KindSet × Stack)

namespace Moves

def join (m m' : Moves) : Moves := ⟨m.ends || m'.ends, m.steps ++ m'.steps⟩

/-- The pairs of stacks that one token leads to. -/
def pairs (m m' : Moves) : List (Stack × Stack) :=
  m.steps.flatMap fun a => (m'.steps.filter fun b => a.1.intersects b.1).map fun b => (a.2, b.2)

/-- One of the moves can be made on `w`. -/
def Allows (g : Grammar) (p : List Kind → Prop) (w : List Kind) (m : Moves) : Prop :=
  (m.ends = true ∧ (p w ∨ w = [])) ∨
    ∃ a ∈ m.steps, ∃ k v, a.1.contains k = true ∧ w = k :: v ∧ g.Matches p a.2 v

variable {g : Grammar} {p : List Kind → Prop} {w : List Kind} {m : Moves}

theorem Allows.join_left (h : m.Allows g p w) (m' : Moves) : (m.join m').Allows g p w := by
  rcases h with ⟨he, hp⟩ | ⟨a, ha, hw⟩
  · exact .inl ⟨by simp [join, he], hp⟩
  · exact .inr ⟨a, List.mem_append_left _ ha, hw⟩

theorem Allows.join_right (h : m.Allows g p w) (m' : Moves) : (m'.join m).Allows g p w := by
  rcases h with ⟨he, hp⟩ | ⟨a, ha, hw⟩
  · exact .inl ⟨by simp [join, he], hp⟩
  · exact .inr ⟨a, List.mem_append_right _ ha, hw⟩

theorem of_join {x y : Option Moves} (h : (do return (← x).join (← y)) = some m) :
    ∃ m1 m2, x = some m1 ∧ y = some m2 ∧ m = m1.join m2 := by
  cases x with
  | none => cases h
  | some m1 =>
    cases y with
    | none => cases h
    | some m2 =>
      cases h
      exact ⟨m1, m2, rfl, rfl, rfl⟩

end Moves

/-- One of the kinds stands next, and no name goes on here. -/
structure Behind (ks : KindSet) (w : List Kind) : Prop where
  next : ks.contains (nextKind w) = true
  name : ∀ v, w ≠ .colonColon :: .ident :: v

namespace Grammar

variable (g : Grammar)

/-- The moves of a stack. Patterns that take nothing are looked through at most so many times. -/
def moves : Nat → Stack → Option Moves
  | 0, _ => none
  | _ + 1, [] => some ⟨true, []⟩
  | n + 1, s :: ss =>
    match s with
    | .never => some ⟨false, []⟩
    | .empty => moves n ss
    | .finish => some ⟨true, []⟩
    | .one ks => some ⟨false, [(ks, ss)]⟩
    | .either a b => do return (← moves n (a :: ss)).join (← moves n (b :: ss))
    | .both a b => moves n (a :: b :: ss)
    | .many a => do return (← moves n ss).join (← moves n (a :: .many a :: ss))
    | .call r => moves n (g.pattern r :: ss)

def stackKinds (ss : Stack) : KindSet := Pattern.stackKinds g.nullable g.first ss

def stackNullable (ss : Stack) : Bool := ss.all (Pattern.isNullable g.nullable)

/-- What may stand in front of a stack with one of `ks` behind it. -/
def frontKinds (ks : KindSet) (ss : Stack) : KindSet :=
  if g.stackNullable ss then g.stackKinds ss ∪ ks else g.stackKinds ss

/-- The stack can only go on with a name. -/
def wantsName (ss : Stack) : Bool :=
  !g.stackNullable ss && g.stackKinds ss == .single .ident

/-- Where one of `ks` ends the text of the other stack, this step cannot be made. -/
def stepAvoids (ks : KindSet) (a : KindSet × Stack) : Bool :=
  !a.1.intersects (ks.without .colonColon) &&
    (!a.1.contains .colonColon || !ks.contains .colonColon || g.wantsName a.2)

/-- The next token tells the two apart. -/
def startsApart (ks : KindSet) (p : Stack × Stack) : Bool :=
  !g.stackNullable p.1 && !(g.stackKinds p.1).intersects (g.frontKinds ks p.2)

/-- The pairs that must keep apart for these to do so, or nothing if these do not. -/
def meet (ks : KindSet) (p : Stack × Stack) : Option (List (Stack × Stack)) :=
  if g.startsApart ks p then some []
  else do
    let m ← g.moves 60 p.1
    let m' ← g.moves 60 p.2
    if !m.ends && (!m'.ends || m.steps.all (g.stepAvoids ks)) then
      some ((m.pairs m').filter fun q => !g.startsApart ks q)
    else none

def keepApart (ks : KindSet) : Nat → List (Stack × Stack) → List (Stack × Stack) → Bool
  | 0, _, _ => false
  | _ + 1, [], _ => true
  | n + 1, p :: todo, seen =>
    if seen.contains p then keepApart ks n todo seen
    else match g.meet ks p with
      | some next => keepApart ks n (next ++ todo) (p :: seen)
      | none => false

/-- No text is read by `s` and, with one of `ks` behind it, by `us`. -/
def apart (ks : KindSet) (s us : Stack) : Bool := g.keepApart ks 400 [(s, us)] []

variable {g} {p : List Kind → Prop} {ks : KindSet} {w : List Kind} {ss us : Stack} {n : Nat}

theorem moves_pos {m : Moves} (h : g.moves n ss = some m) : ∃ i, n = i + 1 := by
  cases n with
  | zero => cases h
  | succ i => exact ⟨i, rfl⟩

/-- A stack that can be read makes one of its moves. -/
theorem Matches.allowed (h : g.Matches p ss w) {m : Moves} (hm : g.moves n ss = some m) :
    m.Allows g p w := by
  induction h generalizing n m with
  | nil h =>
    obtain ⟨n, rfl⟩ := moves_pos hm
    cases hm
    exact .inl ⟨rfl, .inl h⟩
  | finish _ =>
    obtain ⟨n, rfl⟩ := moves_pos hm
    cases hm
    exact .inl ⟨rfl, .inr rfl⟩
  | one hk h _ =>
    obtain ⟨n, rfl⟩ := moves_pos hm
    cases hm
    exact .inr ⟨_, List.mem_singleton.2 rfl, _, _, hk, rfl, h⟩
  | empty _ ih | both _ ih | call _ ih =>
    obtain ⟨n, rfl⟩ := moves_pos hm
    exact ih hm
  | left _ ih | stop _ ih =>
    obtain ⟨n, rfl⟩ := moves_pos hm
    obtain ⟨m1, m2, h1, -, rfl⟩ := Moves.of_join hm
    exact (ih h1).join_left m2
  | right _ ih | again _ ih =>
    obtain ⟨n, rfl⟩ := moves_pos hm
    obtain ⟨m1, m2, -, h2, rfl⟩ := Moves.of_join hm
    exact (ih h2).join_right m1

/-! ### The check is right -/

/-- No text is read by the first and, with one of `ks` behind it, by the second. -/
def Apart (g : Grammar) (ks : KindSet) (w : List Kind) (p : Stack × Stack) : Prop :=
  g.Matches (fun _ => True) p.1 w → ¬ g.Matches (Behind ks) p.2 w

variable (hg : g.Closed)
include hg

theorem Matches.front (h : g.Matches (Behind ks) ss w) : (g.frontKinds ks ss).contains (nextKind w) = true := by
  unfold frontKinds
  rcases Matches.starts hg h with hk | ⟨hn, hb⟩
  · split
    · rw [KindSet.contains_union]
      exact Bool.or_eq_true_iff.2 (.inl hk)
    · exact hk
  · rw [if_pos (show g.stackNullable ss = true from hn), KindSet.contains_union]
    exact Bool.or_eq_true_iff.2 (.inr hb.next)

theorem Matches.starts_of_not_nullable (h : g.Matches p ss w) (hn : g.stackNullable ss = false) :
    (g.stackKinds ss).contains (nextKind w) = true := by
  rcases Matches.starts hg h with hk | ⟨hn', -⟩
  · exact hk
  · exact absurd (hn ▸ hn' : false = true) Bool.false_ne_true

/-- A step that avoids what may stand behind the other stack is not made there. -/
theorem not_matches_of_stepAvoids {a : KindSet × Stack} (ha : g.stepAvoids ks a = true) {k : Kind}
    {v : List Kind} (hk : a.1.contains k = true) (hb : Behind ks (k :: v)) :
    ¬ g.Matches (fun _ => True) a.2 v := by
  intro h
  have hnext : ks.contains k = true := hb.next
  simp only [stepAvoids, Bool.and_eq_true, Bool.or_eq_true, Bool.not_eq_true'] at ha
  by_cases hc : k = .colonColon
  · subst hc
    obtain ⟨-, (hno | hno) | hname⟩ := ha
    · simp [hk] at hno
    · simp [hnext] at hno
    · simp only [wantsName, Bool.and_eq_true, Bool.not_eq_true', beq_iff_eq] at hname
      have hfirst := h.starts_of_not_nullable hg hname.1
      rw [hname.2, KindSet.contains_single, decide_eq_true_eq] at hfirst
      cases v with
      | nil => cases hfirst
      | cons k v =>
        obtain rfl : Kind.ident = k := hfirst
        exact hb.name v rfl
  · have hin := KindSet.contains_without hc hnext
    rw [KindSet.not_contains_of_not_intersects ha.1 hk] at hin
    cases hin

theorem apart_of_startsApart {q : Stack × Stack} (h : g.startsApart ks q = true) : g.Apart ks w q := by
  intro h1 h2
  simp only [startsApart, Bool.and_eq_true, Bool.not_eq_true'] at h
  have hk := h1.starts_of_not_nullable hg h.1
  have hn := KindSet.not_contains_of_not_intersects h.2 hk
  rw [h2.front hg] at hn
  cases hn

/-- Where the pairs that one token leads to keep apart, so does the pair itself. -/
theorem apart_of_meet {q : Stack × Stack} {next : List (Stack × Stack)} (hm : g.meet ks q = some next)
    (h : ∀ k v, w = k :: v → ∀ y ∈ next, g.Apart ks v y) : g.Apart ks w q := by
  intro h1 h2
  unfold meet at hm
  split at hm
  · rename_i hd
    exact apart_of_startsApart hg hd h1 h2
  · obtain ⟨m, hm1, hm⟩ := Option.bind_eq_some_iff.1 hm
    obtain ⟨m', hm2, hm⟩ := Option.bind_eq_some_iff.1 hm
    split at hm
    · rename_i hends
      cases hm
      simp only [Bool.and_eq_true, Bool.or_eq_true, Bool.not_eq_true', List.all_eq_true] at hends
      rcases h1.allowed hm1 with ⟨he, -⟩ | ⟨a, ha, k, v, hk, rfl, ha'⟩
      · simp [hends.1] at he
      · rcases h2.allowed hm2 with ⟨he, hb | hb⟩ | ⟨b, hb, k', v', hk', hw, hb'⟩
        · rcases hends.2 with hno | hall
          · simp [hno] at he
          · exact not_matches_of_stepAvoids hg (hall a ha) hk hb ha'
        · cases hb
        · cases hw
          rcases hs : g.startsApart ks (a.2, b.2) with _ | _
          · refine h k v rfl (a.2, b.2) (List.mem_filter.2 ⟨?_, by simp [hs]⟩) ha' hb'
            refine List.mem_flatMap.2 ⟨a, ha, List.mem_map.2 ⟨b, List.mem_filter.2 ⟨hb, ?_⟩, rfl⟩⟩
            exact KindSet.intersects_of_contains hk hk'
          · exact apart_of_startsApart hg hs ha' hb'
    · cases hm

omit hg in
/-- A check that succeeds has met a set of pairs that nothing leads out of. -/
theorem closed_of_keepApart {todo seen : List (Stack × Stack)} (h : g.keepApart ks n todo seen = true)
    (hs : ∀ q ∈ seen, ∃ next, g.meet ks q = some next ∧ ∀ y ∈ next, y ∈ seen ∨ y ∈ todo) :
    ∃ all : List (Stack × Stack), (∀ q ∈ todo, q ∈ all) ∧ (∀ q ∈ seen, q ∈ all) ∧
      ∀ q ∈ all, ∃ next, g.meet ks q = some next ∧ ∀ y ∈ next, y ∈ all := by
  induction n generalizing todo seen with
  | zero => cases h
  | succ n ih =>
    cases todo with
    | nil => exact ⟨seen, by simp, fun _ hq => hq, fun q hq => by simpa using hs q hq⟩
    | cons q todo =>
      simp only [keepApart] at h
      split at h
      · rename_i hin
        have hin : q ∈ seen := by simpa using hin
        obtain ⟨all, ht, hseen, hall⟩ := ih h fun y hy => by
          obtain ⟨next, hm, hnext⟩ := hs y hy
          refine ⟨next, hm, fun z hz => ?_⟩
          rcases hnext z hz with h | h
          · exact .inl h
          · rcases List.mem_cons.1 h with rfl | h
            · exact .inl hin
            · exact .inr h
        exact ⟨all, List.forall_mem_cons.2 ⟨hseen q hin, ht⟩, hseen, hall⟩
      · split at h
        · rename_i next hm
          obtain ⟨all, ht, hseen, hall⟩ := ih h fun y hy => by
            rcases List.mem_cons.1 hy with rfl | hy
            · exact ⟨next, hm, fun z hz => .inr (List.mem_append_left _ hz)⟩
            · obtain ⟨next', hm', hnext⟩ := hs y hy
              refine ⟨next', hm', fun z hz => ?_⟩
              rcases hnext z hz with h | h
              · exact .inl (List.mem_cons_of_mem _ h)
              · rcases List.mem_cons.1 h with rfl | h
                · exact .inl (List.mem_cons_self ..)
                · exact .inr (List.mem_append_right _ h)
          exact ⟨all, List.forall_mem_cons.2 ⟨hseen q (List.mem_cons_self ..),
            fun z hz => ht z (List.mem_append_right _ hz)⟩, fun z hz => hseen z (List.mem_cons_of_mem _ hz), hall⟩
        · cases h

theorem apart_of_apart (h : g.apart ks ss us = true) : g.Apart ks w (ss, us) := by
  obtain ⟨all, ht, -, hall⟩ := closed_of_keepApart h (by simp)
  suffices ∀ q ∈ all, g.Apart ks w q from this _ (ht _ (by simp))
  induction w with
  | nil =>
    intro q hq
    obtain ⟨next, hm, -⟩ := hall q hq
    exact apart_of_meet hg hm fun k v hw => by cases hw
  | cons k v ih =>
    intro q hq
    obtain ⟨next, hm, hnext⟩ := hall q hq
    refine apart_of_meet hg hm fun k' v' hw y hy => ?_
    cases hw
    exact ih y (hnext y hy)

end Grammar

end KermlText
