import KermlText.Scanner
import KermlText.Stream
import Mathlib.Algebra.Group.Nat.Defs

/-! Scanning cuts a text into pieces. Each token is the lexeme at the front of what is left, an error as
well as any other, so the texts of the tokens are the text, and each token is where the texts in front of
it end. -/

namespace KermlText

/-- The texts of tokens, one behind the other. -/
def texts (ts : List Token) : String := String.join (ts.map (·.text))

@[simp] theorem texts_nil : texts [] = "" := String.join_nil

@[simp] theorem texts_cons (t : Token) (ts : List Token) : texts (t :: ts) = t.text ++ texts ts :=
  String.join_cons

@[simp] theorem texts_append (ts us : List Token) : texts (ts ++ us) = texts ts ++ texts us := by
  simp [texts]

namespace Scanner

/-! ### Lexemes end inside the text -/

theorem run_le (p : Char → Bool) (cs : List Char) : run p cs ≤ cs.length :=
  (List.takeWhile_sublist p).length_le

theorem quoted_le (q : Char) (cs : List Char) : (quoted q cs).1 ≤ cs.length := by
  fun_induction quoted q cs <;> simp only [List.length_cons] <;> omega

theorem commentBody_le (cs : List Char) : (commentBody cs).1 ≤ cs.length := by
  fun_induction commentBody cs <;> simp only [List.length_cons] <;> omega

theorem exponent_le (cs : List Char) : exponent cs ≤ cs.length := by
  unfold exponent
  split
  · exact Nat.le_refl 0
  · split
    · split
      · exact Nat.zero_le _
      · rename_i s ds
        have hs := run_le Char.isDigit (s :: ds)
        have hds := run_le Char.isDigit ds
        simp only [List.length_cons] at hs ⊢
        split <;> split <;> omega
    · exact Nat.zero_le _

theorem fraction_le (cs : List Char) : fraction cs ≤ cs.length := by
  unfold fraction
  split
  · exact Nat.le_refl 0
  · rename_i p cs
    split
    · have hrun := run_le Char.isDigit cs
      have hexp := exponent_le (cs.drop (run Char.isDigit cs))
      simp only [List.length_drop, List.length_cons] at hexp ⊢
      omega
    · exact Nat.zero_le _

theorem number_le (n : Nat) (cs : List Char) : (number n cs).2 ≤ n + cs.length := by
  have hfraction := fraction_le cs
  have hexponent := exponent_le cs
  unfold number
  split
  · exact Nat.add_le_add_left hfraction n
  · split
    · exact Nat.add_le_add_left hexponent n
    · exact Nat.le_add_right n _

/-- A punctuation mark is spelled by what stands there. -/
theorem mark?_le {cs : List Char} {k : Kind} (h : mark? cs = some k) :
    (k.spelling?.getD "").length ≤ cs.length := by
  obtain ⟨n, -, hn⟩ := List.exists_of_findSome?_eq_some h
  have hk := List.find?_some hn
  rw [beq_iff_eq] at hk
  rw [hk, Option.getD_some, String.length_ofList, List.length_take]
  exact Nat.min_le_right _ _

/-- What belongs to a lexeme is there. -/
theorem lexeme_le (c : Char) (cs : List Char) : (lexeme c cs).2 ≤ cs.length := by
  unfold lexeme
  dsimp only
  split
  · exact run_le _ _
  split
  · exact run_le _ _
  split
  · have hrun := run_le Char.isDigit cs
    have hnumber := number_le (run Char.isDigit cs) (cs.drop (run Char.isDigit cs))
    rw [List.length_drop] at hnumber
    omega
  split
  · exact quoted_le _ _
  split
  · exact quoted_le _ _
  split
  · exact run_le _ _
  split
  · rename_i hopen
    -- the star behind the slash is the first of the characters that belong to it
    have hbody := commentBody_le cs.tail
    have hpos : 0 < cs.length := by
      cases cs
      · simp at hopen
      · exact Nat.succ_pos _
    rw [List.length_tail] at hbody
    simp only [closed]
    omega
  split
  · have hfraction := fraction_le (c :: cs)
    rw [List.length_cons] at hfraction
    exact Nat.sub_le_of_le_add hfraction
  split
  · rename_i k hk
    have hmark := mark?_le hk
    rw [List.length_cons] at hmark
    exact Nat.sub_le_of_le_add hmark
  · exact Nat.zero_le _

/-- No lexeme is the end. -/
theorem lexeme_ne_eof (c : Char) (cs : List Char) : (lexeme c cs).1 ≠ .eof := by
  have hclosed : ∀ (k : Kind) (body : Nat × Bool), k ≠ .eof → (closed k body).1 ≠ .eof := fun k body hk => by
    unfold closed
    split
    · exact hk
    · exact nofun
  unfold lexeme
  dsimp only
  split
  · exact nofun
  split
  · rcases hw : Kind.ofWord? (String.ofList (c :: cs.take (run (fun d => isLetter d || d.isDigit) cs)))
      with _ | k
    · exact nofun
    · rintro rfl
      exact absurd (List.mem_of_find?_eq_some hw) (by decide)
  split
  · unfold number
    split
    · exact nofun
    · split <;> exact nofun
  split
  · exact hclosed _ _ nofun
  split
  · exact hclosed _ _ nofun
  split
  · exact nofun
  split
  · exact hclosed _ _ nofun
  split
  · exact nofun
  split
  · rename_i k hk
    obtain ⟨n, -, hn⟩ := List.exists_of_findSome?_eq_some hk
    rintro rfl
    exact absurd (List.mem_of_find?_eq_some hn) (by decide)
  · exact nofun

/-! ### One lexeme after another -/

/-- More fuel than characters finds nothing more. -/
theorem lexemesWithin_congr {n m : Nat} {cs : List Char} (hn : cs.length ≤ n) (hm : cs.length ≤ m) :
    lexemesWithin n cs = lexemesWithin m cs := by
  induction n generalizing m cs with
  | zero =>
    rw [List.length_eq_zero_iff.1 (Nat.le_zero.1 hn)]
    cases m <;> rfl
  | succ n ih =>
    cases cs with
    | nil => cases m <;> rfl
    | cons c cs =>
      rw [List.length_cons] at hn hm
      cases m with
      | zero => omega
      | succ m =>
        have hdrop := (List.drop_sublist (lexeme c cs).2 cs).length_le
        have hrest := ih (Nat.le_trans hdrop (Nat.le_of_succ_le_succ hn))
          (Nat.le_trans hdrop (Nat.le_of_succ_le_succ hm))
        unfold lexemesWithin
        dsimp only
        rw [hrest]

theorem lexemes_cons (c : Char) (cs : List Char) :
    lexemes (c :: cs) = ((lexeme c cs).1, c :: cs.take (lexeme c cs).2) ::
      lexemes (cs.drop (lexeme c cs).2) := by
  unfold lexemes
  rw [List.length_cons, lexemesWithin]
  dsimp only
  rw [lexemesWithin_congr (List.drop_sublist _ _).length_le (Nat.le_refl _)]

/-- Each lexeme is the one at the front of what the lexemes before it have left. -/
theorem lexemes_split {cs : List Char} {pre post : List (Kind × List Char)} {l : Kind × List Char}
    (h : lexemes cs = pre ++ l :: post) :
    ∃ c rest, cs = pre.flatMap (·.2) ++ c :: rest ∧
      l = ((lexeme c rest).1, c :: rest.take (lexeme c rest).2) := by
  induction pre generalizing cs with
  | nil =>
    cases cs with
    | nil => cases h
    | cons c cs =>
      rw [lexemes_cons, List.nil_append, List.cons.injEq] at h
      exact ⟨c, cs, rfl, h.1.symm⟩
  | cons k pre ih =>
    cases cs with
    | nil => cases h
    | cons c cs =>
      rw [lexemes_cons, List.cons_append, List.cons.injEq] at h
      obtain ⟨d, rest, hrest, hl⟩ := ih h.2
      refine ⟨d, rest, ?_, hl⟩
      rw [← h.1, List.flatMap_cons, List.append_assoc, ← hrest, List.cons_append, List.take_append_drop]

/-! ### Tokens -/

theorem texts_place (offset : Nat) (position : Position) (ls : List (Kind × List Char)) :
    texts (place offset position ls) = String.ofList (ls.flatMap (·.2)) := by
  induction ls generalizing offset position with
  | nil => rfl
  | cons l ls ih => simp [place, ih, Token.make, String.ofList_append]

/-- A token is made of its lexeme, right behind the texts of the tokens in front of it. -/
theorem place_split {offset : Nat} {position : Position} {ls : List (Kind × List Char)}
    {pre post : List Token} {t : Token} (h : place offset position ls = pre ++ t :: post) :
    ∃ ks l ms, ls = ks ++ l :: ms ∧ texts pre = String.ofList (ks.flatMap (·.2)) ∧
      t = .make l.1 (String.ofList l.2) (offset + (texts pre).utf8ByteSize)
        (position.advance (texts pre)) := by
  induction pre generalizing offset position ls with
  | nil =>
    cases ls with
    | nil => cases h
    | cons l ls =>
      rw [place, List.nil_append, List.cons.injEq] at h
      exact ⟨[], l, ls, rfl, rfl, h.1.symm⟩
  | cons u pre ih =>
    cases ls with
    | nil => cases h
    | cons k ls =>
      rw [place, List.cons_append, List.cons.injEq] at h
      obtain ⟨ks, l, ms, rfl, hpre, ht⟩ := ih h.2
      have hu : u.text = String.ofList k.2 := h.1 ▸ rfl
      refine ⟨k :: ks, l, ms, rfl, ?_, ?_⟩
      · rw [texts_cons, hpre, hu, List.flatMap_cons, String.ofList_append]
      · rw [ht, texts_cons, hu, String.utf8ByteSize_append, Position.advance_append, Nat.add_assoc]

end Scanner

open Scanner

/-- The tokens of a text, one behind the other, are the text. -/
theorem texts_scan (text : String) : texts (scan text) = text := by
  rw [scan, texts_place, flatMap_lexemes, String.ofList_toList]

/-- Each token of a text is the lexeme at the front of what the tokens before it have left. -/
theorem scan_split {text : String} {pre post : List Token} {t : Token}
    (h : scan text = pre ++ t :: post) :
    ∃ c cs, text.toList = (texts pre).toList ++ c :: cs ∧
      t = .make (lexeme c cs).1 (String.ofList (c :: cs.take (lexeme c cs).2)) (texts pre).utf8ByteSize
        (Position.start.advance (texts pre)) := by
  obtain ⟨ks, l, ms, hls, hpre, ht⟩ := place_split h
  obtain ⟨c, cs, hcs, rfl⟩ := lexemes_split hls
  refine ⟨c, cs, ?_, ?_⟩
  · rw [hpre, String.toList_ofList, hcs]
  · rw [ht, Nat.zero_add]

/-- A token of a text is not the end, and travels on the channel of its kind. -/
theorem scan_kind {text : String} {t : Token} (h : t ∈ scan text) :
    t.kind ≠ .eof ∧ t.channel = t.kind.channel := by
  obtain ⟨pre, post, hsplit⟩ := List.append_of_mem h
  obtain ⟨c, cs, -, rfl⟩ := scan_split hsplit
  exact ⟨lexeme_ne_eof c cs, rfl⟩

/-- The mark for the end of a text stands behind all of it. -/
theorem eof_scan (text : String) : (Stream.ofTokens (scan text)).eof =
    .make .eof "" text.utf8ByteSize (Position.start.advance text) := by
  have htexts := texts_scan text
  unfold Stream.ofTokens
  dsimp only
  rcases List.eq_nil_or_concat (scan text) with hnil | ⟨pre, t, hsplit⟩
  · rw [hnil] at htexts ⊢
    rw [← htexts]
    rfl
  · rw [List.concat_eq_append] at hsplit
    obtain ⟨c, cs, -, ht⟩ := scan_split hsplit
    rw [hsplit] at htexts ⊢
    rw [texts_append, texts_cons, texts_nil, String.append_empty] at htexts
    rw [List.getLast?_append, List.getLast?_singleton, Option.some_or, ← htexts,
      String.utf8ByteSize_append, Position.advance_append, ht]
    rfl

/-- Scanning cuts a text into pieces, down to its end. No piece is empty, each is a lexeme, whole and where
the pieces in front of it end, and no offset needs more than 32 bits if the text does not. -/
theorem scan_pieces {text : String} (hsize : text.utf8ByteSize < 2 ^ 32) :
    (∀ fuel, text.toList.length ≤ fuel →
      lexemesWithin fuel text.toList = lexemes text.toList) ∧
    texts (scan text) = text ∧
    (∀ pre t post, scan text = pre ++ t :: post →
      t.text ≠ "" ∧ t.offset = (texts pre).utf8ByteSize ∧
      t.position = Position.start.advance (texts pre) ∧ t.stop < 2 ^ 32 ∧
      ∃ c cs, text.toList = (texts pre).toList ++ c :: cs ∧ t.kind = (lexeme c cs).1 ∧
        t.text = String.ofList (c :: cs.take (lexeme c cs).2) ∧
        t.text.length = (lexeme c cs).2 + 1) ∧
    (Stream.ofTokens (scan text)).eof =
      .make .eof "" text.utf8ByteSize (Position.start.advance text) := by
  refine ⟨fun fuel hfuel => lexemesWithin_congr hfuel (Nat.le_refl _), texts_scan text,
    fun pre t post h => ?_, eof_scan text⟩
  obtain ⟨c, cs, htext, ht⟩ := scan_split h
  have hoffset : t.offset = (texts pre).utf8ByteSize := ht ▸ rfl
  have hlexeme : t.text = String.ofList (c :: cs.take (lexeme c cs).2) := ht ▸ rfl
  have hstop : t.stop ≤ text.utf8ByteSize := by
    have hall := texts_scan text
    rw [h, texts_append, texts_cons] at hall
    rw [← hall, String.utf8ByteSize_append, String.utf8ByteSize_append, Token.stop, hoffset]
    omega
  refine ⟨by simp [hlexeme], hoffset, ht ▸ rfl, Nat.lt_of_le_of_lt hstop hsize, c, cs, htext, ht ▸ rfl,
    hlexeme, ?_⟩
  rw [hlexeme, String.length_ofList, List.length_cons, List.length_take,
    Nat.min_eq_left (lexeme_le c cs)]

/-- A character that starts nothing, a blank and a text without its end mark. -/
theorem scan_pieces_unterminated :
    (scan "é \"x").map (fun t => (t.kind, t.text)) = [(.error, "é"), (.whitespace, " "), (.error, "\"x")] ∧
      texts (scan "é \"x") = "é \"x" ∧
      (Stream.ofTokens (scan "é \"x")).eof = .make .eof "" 5 ⟨0, 4⟩ := by
  obtain ⟨-, htexts, -, heof⟩ := scan_pieces (by decide : "é \"x".utf8ByteSize < 2 ^ 32)
  exact ⟨by decide +kernel, htexts, heof.trans (by decide +kernel)⟩

end KermlText
