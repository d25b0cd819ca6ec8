import KermlText.Proofs.Choices
import KermlText.Proofs.Outlook
import KermlText.Proofs.Paths
import KermlText.Proofs.Retraced

/-! What a decision computes. It goes by what a recognizer without memo would find in each alternative, though its
own trials share one memo: on a stream without comments a place is known by the token ahead. -/

namespace KermlText

namespace Stream

variable {s : Stream} {pos p q : Nat}

theorem Silent.commentsBefore (h : s.Silent) (p : Nat) : s.commentsBefore p = 0 := by
  rw [Stream.commentsBefore, List.countP_eq_zero]
  intro t ht
  obtain ⟨j, -, -, hj, rfl⟩ := s.mem_stretch ht
  simpa using h _ (List.mem_of_getElem? (s.token_of_lt hj))

theorem LeftAt.le (h : s.LeftAt pos p) : pos ≤ p := by
  rcases h with rfl | ⟨k, hk, -, -, rfl⟩
  · exact Nat.le_refl _
  · exact Nat.le_succ_of_le hk

theorem LeftAt.skip (h : s.LeftAt pos p) : s.LeftAt pos (s.skip p) := by
  rcases he : s.atEnd p with _ | _
  · have hlt := s.settle_lt_of_not_atEnd he
    rw [Stream.skip, s.next?_of_not_atEnd he]
    exact .inr ⟨_, Nat.le_trans h.le (le_settle_of_not_atEnd he), hlt, by simp [s.channel_settle hlt], rfl⟩
  · rw [Stream.skip, s.next?_of_atEnd he]
    exact h

end Stream

namespace Recognizer

variable {z : Recognizer}

theorem inRow_unit (es : List Element) : inRow (fun _ _ _ => True) es () () := by
  induction es with
  | nil => rfl
  | cons e es ih => exact ⟨(), trivial, ih⟩

/-- Where there are no comments one lane is enough. -/
def lanesFrom (z : Recognizer) (hz : z.stream.Silent) (pos : Nat) : z.Lanes Unit where
  lane _ p := z.stream.LeftAt pos p
  calls _ _ _ := True
  runs _ _ _ _ := True
  apart _ _ hp hq hs := hp.eq_of_commentsBefore hq hs.symm (by rw [hz.commentsBefore, hz.commentsBefore])
  single _ _ hp h := by
    rcases of_behind? h with rfl | rfl | ⟨i, hi, -⟩
    · exact hp
    · exact hp.skip
    · rw [hz.comment?] at hi
      cases hi
  rule _ := ⟨rfl, trivial⟩
  ruleAt _ := ⟨rfl, trivial⟩
  optional _ := ⟨rfl, trivial⟩
  repeated _ := ⟨rfl, trivial⟩
  seq _ := inRow_unit _
  labeled _ := trivial
  rows _ _ _ _ := inRow_unit _
  operators _ _ _ := ⟨fun _ hp _ => hp.skip, fun _ => trivial⟩

end Recognizer

namespace Resolver

open Recognizer

/-! ### The choice among alternatives -/

section

variable (comes : Nat → Verdict → Prop) (passes : Verdict → Prop)

/-- What is remembered of alternatives none of which passed. -/
inductive Ranks : List Nat → Ranking → Prop
  | nothing : Ranks [] ⟨none, none⟩
  | completed {pre i post q best} (hpre : ∀ j ∈ pre, ∃ f, comes j (.failed f)) (hi : comes i (.matched q)) :
    Ranks (pre ++ i :: post) ⟨some i, best⟩
  | farthest {pre i post f} (hpre : ∀ j ∈ pre, ∃ f' < f, comes j (.failed f')) (hi : comes i (.failed f))
    (hpost : ∀ j ∈ post, ∃ f' ≤ f, comes j (.failed f')) : Ranks (pre ++ i :: post) ⟨none, some (i, f)⟩

variable {comes passes} {tried : List Nat} {rank : Ranking} {i : Nat}

theorem Ranks.matched (h : Ranks comes tried rank) {q : Nat} (hi : comes i (.matched q)) :
    Ranks comes (tried ++ [i]) (rank.matched i) := by
  cases h with
  | nothing => exact @completed _ [] i [] q none nofun hi
  | completed hpre hj => exact List.append_assoc _ _ _ ▸ .completed hpre hj
  | farthest hpre hj hpost =>
    refine .completed (fun k hk => ?_) hi
    rcases List.mem_append.1 hk with hk | hk
    · obtain ⟨f, -, hf⟩ := hpre k hk
      exact ⟨f, hf⟩
    · rcases List.mem_cons.1 hk with rfl | hk
      · exact ⟨_, hj⟩
      · obtain ⟨f, -, hf⟩ := hpost k hk
        exact ⟨f, hf⟩

theorem Ranks.failed (h : Ranks comes tried rank) {f : Nat} (hi : comes i (.failed f)) :
    Ranks comes (tried ++ [i]) (rank.failed i f) := by
  cases h with
  | nothing => exact @farthest _ [] i [] f nofun hi nofun
  | @completed _ _ _ _ best hpre hj =>
    unfold Ranking.failed
    dsimp only
    split
    · split <;> exact List.append_assoc _ _ _ ▸ .completed hpre hj
    · exact List.append_assoc _ _ _ ▸ .completed hpre hj
  | @farthest pre j post best hpre hj hpost =>
    unfold Ranking.failed
    dsimp only
    split
    · rename_i hlt
      -- all that were tried before got less far than this one
      refine .farthest (fun k hk => ?_) hi nofun
      rcases List.mem_append.1 hk with hk | hk
      · obtain ⟨f', hf', hk⟩ := hpre k hk
        exact ⟨f', Nat.lt_trans hf' hlt, hk⟩
      · rcases List.mem_cons.1 hk with rfl | hk
        · exact ⟨best, hlt, hj⟩
        · obtain ⟨f', hf', hk⟩ := hpost k hk
          exact ⟨f', Nat.lt_of_le_of_lt hf' hlt, hk⟩
    · rename_i hge
      rw [List.append_assoc, List.cons_append]
      refine .farthest hpre hj fun k hk => ?_
      rcases List.mem_append.1 hk with hk | hk
      · exact hpost k hk
      · cases List.mem_singleton.1 hk
        exact ⟨f, Nat.not_lt.1 hge, hi⟩

end

section

variable (y : Recognizer) (pos : Nat) (r : Rule) (follow : KindSet) (c : Bool)

/-- The trial of an alternative comes to a verdict, if nothing is known and calls may nest deep enough. -/
def Comes (i : Nat) (v : Verdict) : Prop := y.Reaches c (.row (elements y.grammar r i)) pos v

/-- There is no more to be looked at, or what follows may follow. -/
def Passes : Verdict → Prop
  | .horizon => True
  | .matched q => y.limitAt q = true ∨ follow.contains (y.stream.lookahead q c) = true
  | _ => False

end

variable {y : Recognizer} {pos : Nat} {r : Rule} {follow : KindSet} {c : Bool}

section

variable {g : Grammar} {s : Stream} {z : Resolver} {candidates : List Nat} (hz : z.cache = [])
  (hmany : 2 ≤ candidates.length)
include hz hmany

end

end Resolver

end KermlText
