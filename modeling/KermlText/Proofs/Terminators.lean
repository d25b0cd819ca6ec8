import KermlText.Proofs.Scanning
import Mathlib.Algebra.Group.Nat.Even

/-! Where a block comment ends. Its body is read in units, a star and the character behind it as one, so a
star in front of an end mark can take the star of the mark away. A run of stars is read in pairs from its
first star on, whatever stands in front of it: a mark is seen where the number of stars directly in front of
it is even, and the comment ends at the first mark that is seen. In `/***/` none is. -/

namespace KermlText

namespace Scanner

/-- How many stars characters end with, counted from the left: any other character starts the count anew. -/
def endStars (cs : List Char) : Nat :=
  cs.foldl (fun n c => if c = '*' then n + 1 else 0) 0

@[simp] theorem endStars_nil : endStars [] = 0 := rfl

/-- The count starts anew behind a character that is no star. -/
theorem endStars_cons {c : Char} (hc : c ≠ '*') (cs : List Char) : endStars (c :: cs) = endStars cs := by
  simp only [endStars, List.foldl_cons, if_neg hc]

/-- The parity of a count does not tell whether two more stars were counted at the start. -/
theorem even_foldl_stars (cs : List Char) (n : Nat) :
    Even (cs.foldl (fun n c => if c = '*' then n + 1 else 0) (n + 2)) ↔
      Even (cs.foldl (fun n c => if c = '*' then n + 1 else 0) n) := by
  induction cs generalizing n with
  | nil => exact Nat.even_add.trans (iff_true_right (by decide))
  | cons c cs ih =>
    rw [List.foldl_cons, List.foldl_cons]
    split
    · exact ih (n + 1)
    · exact Iff.rfl

/-- A unit that begins with a star does not change the parity: it is a pair of stars, or its second
character starts the count anew. -/
theorem even_endStars_unit (d : Char) (cs : List Char) :
    Even (endStars ('*' :: d :: cs)) ↔ Even (endStars cs) := by
  by_cases hd : d = '*'
  · subst hd
    exact even_foldl_stars cs 0
  · simp only [endStars, List.foldl_cons, if_neg hd, if_pos]

/-- The mark behind `inner` is seen, and none before it is. -/
def Ends (inner : List Char) : Prop :=
  Even (endStars inner) ∧ ∀ xs ys, inner = xs ++ '*' :: '/' :: ys → ¬ Even (endStars xs)

theorem ends_nil : Ends [] :=
  ⟨Even.zero, fun xs ys h => by simp at h⟩

theorem not_ends_star : ¬ Ends ['*'] := fun h => absurd h.1 (by decide)

/-- No comment goes on behind a mark at its beginning. -/
theorem not_ends_mark (cs : List Char) : ¬ Ends ('*' :: '/' :: cs) := fun h =>
  h.2 [] cs rfl Even.zero

theorem ends_cons {c : Char} (hc : c ≠ '*') (cs : List Char) : Ends (c :: cs) ↔ Ends cs := by
  unfold Ends
  rw [endStars_cons hc]
  refine and_congr_right fun _ => ⟨fun h xs ys hcs => ?_, fun h xs ys hcs => ?_⟩
  · rw [← endStars_cons hc xs]
    exact h (c :: xs) ys (by rw [hcs, List.cons_append])
  · cases xs with
    | nil => exact absurd (List.cons.inj hcs).1 hc
    | cons x xs =>
      obtain ⟨rfl, rfl⟩ := List.cons.inj hcs
      rw [endStars_cons hc]
      exact h xs ys rfl

theorem ends_unit {d : Char} (hd : d ≠ '/') (cs : List Char) : Ends ('*' :: d :: cs) ↔ Ends cs := by
  unfold Ends
  rw [even_endStars_unit]
  refine and_congr_right fun _ => ⟨fun h xs ys hcs => ?_, fun h xs ys hcs => ?_⟩
  · rw [← even_endStars_unit d xs]
    exact h ('*' :: d :: xs) ys (by rw [hcs, List.cons_append, List.cons_append])
  · match xs, hcs with
    | [], hcs => exact absurd (List.cons.inj (List.cons.inj hcs).2).1 hd
    | [x], hcs =>
      -- the mark begins with the second star of the unit, so that one star stands in front of it
      obtain ⟨rfl, -⟩ := List.cons.inj hcs
      decide
    | x :: y :: xs, hcs =>
      obtain ⟨rfl, hds⟩ := List.cons.inj hcs
      rw [even_endStars_unit]
      exact h xs ys (List.cons.inj hds).2

/-! ### The body of a comment, unit by unit -/

theorem commentBody_mark (cs : List Char) : commentBody ('*' :: '/' :: cs) = (2, true) := by
  rw [commentBody, if_pos rfl, if_pos rfl]

theorem commentBody_unit {d : Char} (hd : d ≠ '/') (cs : List Char) :
    commentBody ('*' :: d :: cs) = ((commentBody cs).1 + 2, (commentBody cs).2) := by
  rw [commentBody, if_pos rfl, if_neg hd]

theorem commentBody_cons {c : Char} (hc : c ≠ '*') (cs : List Char) :
    commentBody (c :: cs) = ((commentBody cs).1 + 1, (commentBody cs).2) := by
  rw [commentBody.eq_def]
  exact if_neg hc

/-- A body that was closed ends with a mark. -/
theorem commentBody_closed {cs : List Char} (h : (commentBody cs).2 = true) :
    ∃ inner after, cs = inner ++ '*' :: '/' :: after ∧ (commentBody cs).1 = inner.length + 2 := by
  fun_induction commentBody cs with
  | case1 => cases h
  | case2 => cases h
  | case3 ds => exact ⟨[], ds, rfl, rfl⟩
  | case4 d ds hd ih =>
    obtain ⟨inner, after, rfl, hlength⟩ := ih h
    exact ⟨'*' :: d :: inner, after, rfl, by rw [hlength]; rfl⟩
  | case5 c cs hc ih =>
    obtain ⟨inner, after, rfl, hlength⟩ := ih h
    exact ⟨c :: inner, after, rfl, by rw [hlength]; rfl⟩

/-- A body is closed by the first mark that is seen, and by no other. -/
theorem commentBody_ends (inner after : List Char) :
    commentBody (inner ++ '*' :: '/' :: after) = (inner.length + 2, true) ↔ Ends inner := by
  fun_induction commentBody inner with
  | case1 => exact iff_of_true (commentBody_mark after) ends_nil
  | case2 =>
    -- the two stars are a unit, and the slash behind them is one more
    refine iff_of_false (fun h => ?_) not_ends_star
    rw [List.singleton_append, commentBody_unit (by decide), commentBody_cons (by decide),
      Prod.mk.injEq] at h
    obtain ⟨xs, -, -, hxs⟩ := commentBody_closed h.2
    rw [hxs, List.length_singleton] at h
    omega
  | case3 ds =>
    refine iff_of_false (fun h => ?_) (not_ends_mark ds)
    rw [List.cons_append, List.cons_append, commentBody_mark, Prod.mk.injEq] at h
    simp only [List.length_cons] at h
    omega
  | case4 d ds hd ih =>
    rw [ends_unit hd, ← ih, List.cons_append, List.cons_append, commentBody_unit hd]
    simp only [Prod.ext_iff, List.length_cons]
    exact and_congr_left fun _ => by omega
  | case5 c cs hc ih =>
    rw [ends_cons hc, ← ih, List.cons_append, commentBody_cons hc]
    simp only [Prod.ext_iff, List.length_cons]
    exact and_congr_left fun _ => by omega

/-- What an opener begins. -/
theorem lexeme_opener (body : List Char) :
    lexeme '/' ('*' :: body) = ((closed .blockComment (commentBody body)).1, (commentBody body).1 + 1) := rfl

/-- Where the lexeme of an opener ends, in characters. -/
theorem take_opener {inner after : List Char} {n : Nat}
    (hn : n ≤ (inner ++ '*' :: '/' :: after).length) :
    (inner ++ '*' :: '/' :: after).take n = inner ++ ['*', '/'] ↔ n = inner.length + 2 := by
  have hmark : inner ++ '*' :: '/' :: after = (inner ++ ['*', '/']) ++ after := by
    rw [List.append_assoc]
    rfl
  constructor
  · intro h
    have hlength := congrArg List.length h
    rw [List.length_take, Nat.min_eq_left hn, List.length_append] at hlength
    exact hlength
  · rintro rfl
    rw [hmark]
    exact List.take_left' (List.length_append)

end Scanner

open Scanner

/-- A comment ends at the first end mark with an even number of stars directly in front of it, and it is
an error if there is none. -/
theorem scan_comment {text : String} {pre post : List Token} {t : Token} {body : List Char}
    (hscan : scan text = pre ++ t :: post)
    (htext : text.toList = (texts pre).toList ++ '/' :: '*' :: body) :
    (∀ inner after, body = inner ++ '*' :: '/' :: after →
      ((t.kind = .blockComment ∧ t.text = String.ofList ('/' :: '*' :: (inner ++ ['*', '/']))) ↔
        Even (endStars inner) ∧
          ∀ xs ys, inner = xs ++ '*' :: '/' :: ys → ¬ Even (endStars xs))) ∧
    ((∀ inner after, body = inner ++ '*' :: '/' :: after → ¬ Even (endStars inner)) →
      t.kind = .error) := by
  obtain ⟨c, cs, hcs, rfl⟩ := scan_split hscan
  rw [htext] at hcs
  obtain ⟨rfl, rfl⟩ := List.cons.inj (List.append_cancel_left hcs)
  rw [lexeme_opener]
  refine ⟨fun inner after hbody => ?_, fun hodd => ?_⟩
  · subst hbody
    refine Iff.trans ?_ (commentBody_ends inner after)
    have hle := commentBody_le (inner ++ '*' :: '/' :: after)
    have hkind : (closed .blockComment (commentBody (inner ++ '*' :: '/' :: after))).1 = .blockComment ↔
        (commentBody (inner ++ '*' :: '/' :: after)).2 = true := by
      unfold closed
      split <;> simp_all
    simp only [Token.make, hkind, String.ofList_inj, List.cons.injEq, List.take_succ_cons, true_and,
      take_opener hle, Prod.ext_iff]
    exact And.comm
  · have hopen : (commentBody body).2 = false := by
      by_contra hclosed
      obtain ⟨inner, after, rfl, hlength⟩ := commentBody_closed (Bool.not_eq_false _ ▸ hclosed)
      have hends := (commentBody_ends inner after).1 (Prod.ext hlength (Bool.not_eq_false _ ▸ hclosed))
      exact hodd inner after rfl hends.1
    simp only [Token.make, closed, hopen]
    rfl

/-- One star stands in front of the star of the first mark, none in front of the second. -/
theorem scan_comment_overlong :
    scan "x/* a **/ */" =
      [.make .ident "x" 0 .start] ++ .make .blockComment "/* a **/ */" 1 ⟨0, 1⟩ :: [] ∧
    Even (endStars " a **/ ".toList) ∧
      ∀ xs ys, " a **/ ".toList = xs ++ '*' :: '/' :: ys → ¬ Even (endStars xs) := by
  have hscan : scan "x/* a **/ */" =
      [.make .ident "x" 0 .start] ++ .make .blockComment "/* a **/ */" 1 ⟨0, 1⟩ :: [] := by
    decide +kernel
  have htext : "x/* a **/ */".toList =
      (texts [.make .ident "x" 0 .start]).toList ++ '/' :: '*' :: " a **/ */".toList := by
    decide +kernel
  obtain ⟨hends, -⟩ := scan_comment hscan htext
  exact ⟨hscan, (hends " a **/ ".toList [] (by decide +kernel)).1 ⟨rfl, by decide +kernel⟩⟩

/-- In this text no mark is seen: the star in front of its only mark takes the mark's own star away. -/
theorem scan_comment_missed :
    "/***/".toList = '/' :: '*' :: ("*".toList ++ '*' :: '/' :: []) ∧
      scan "/***/" = [.make .error "/***/" 0 .start] := by
  decide +kernel

end KermlText
