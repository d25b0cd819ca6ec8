import KermlText.Proofs.Terminators
import KermlText.Proofs.Lossless

/-! The text of a node, scanned again. It spells the node's tokens as the source did, with a blank wherever
the source had something between them, so from any token on the two texts run side by side until one of
them ends or the text of the node has a blank. No lexeme goes over a blank unless it has an end mark of its
own, so a lexeme that ends where the two texts still agree is found in both, and nothing longer is. -/

namespace KermlText

namespace Scanner

/-- At its end, or at a blank. -/
def Parted (cs : List Char) : Prop := ∀ c ∈ cs.head?, c = ' '

theorem parted_nil : Parted [] := nofun

theorem parted_blank (cs : List Char) : Parted (' ' :: cs) := fun _ hc => (Option.mem_some.1 hc).symm

theorem exponent_cons (e s : Char) (cs : List Char) : exponent (e :: s :: cs) =
    if e = 'e' || e = 'E' then
      if s = '+' || s = '-' then
        if run Char.isDigit cs = 0 then 0 else run Char.isDigit cs + 2
      else if run Char.isDigit (s :: cs) = 0 then 0 else run Char.isDigit (s :: cs) + 1
    else 0 := rfl

section

variable {shared rest tail : List Char} (ht : Parted tail)
include ht

/-- A character that does not stand at the front of one text does not stand at the front of the other. -/
theorem head?_shared {x : Char} (hx : x ≠ ' ') (hrest : (shared ++ rest).head? ≠ some x) :
    (shared ++ tail).head? ≠ some x := fun htail => by
  match shared with
  | [] => exact hx (ht x htail)
  | y :: ys => exact hrest htail

/-- What does not take a blank stops there. -/
theorem run_parted {p : Char → Bool} (hp : p ' ' = false) : run p tail = 0 := by
  match tail, ht with
  | [], _ => rfl
  | c :: cs, ht =>
    obtain rfl := ht c rfl
    simp only [run, List.takeWhile_cons, hp, Bool.false_eq_true, if_false, List.length_nil]

theorem run_shared {p : Char → Bool} (hp : p ' ' = false) (h : run p (shared ++ rest) ≤ shared.length) :
    run p (shared ++ tail) = run p (shared ++ rest) := by
  induction shared with
  | nil => exact (run_parted ht hp).trans (Nat.le_zero.1 h).symm
  | cons c cs ih =>
    simp only [run, List.cons_append, List.takeWhile_cons] at h ih ⊢
    split
    · rename_i hc
      rw [if_pos hc, List.length_cons, List.length_cons] at h
      rw [List.length_cons, List.length_cons, ih (Nat.le_of_succ_le_succ h)]
    · rfl

theorem exponent_parted : exponent tail = 0 := by
  match tail, ht with
  | [], _ => rfl
  | _ :: _, ht =>
    obtain rfl := ht _ rfl
    rfl

theorem exponent_shared (h : exponent (shared ++ rest) ≤ shared.length) :
    exponent (shared ++ tail) = exponent (shared ++ rest) := by
  match shared, h with
  | [], h => exact (exponent_parted ht).trans (Nat.le_zero.1 h).symm
  | [e], h =>
    -- the letter of an exponent is nothing by itself
    have htail : exponent (e :: tail) = 0 := by
      match tail, ht with
      | [], _ => simp only [exponent, ite_self]
      | _ :: _, ht =>
        obtain rfl := ht _ rfl
        exact ite_self 0
    have hrest : exponent (e :: rest) = 0 := by
      match rest, h with
      | [], _ => simp only [exponent, ite_self]
      | s :: ds, h =>
        rw [List.singleton_append, exponent_cons, List.length_singleton] at h
        rw [exponent_cons]
        split_ifs at h ⊢ <;> omega
    exact htail.trans hrest.symm
  | e :: s :: ds, h =>
    simp only [List.cons_append, exponent_cons, List.length_cons] at h ⊢
    by_cases he : (e = 'e' || e = 'E') = true
    · rw [if_pos he] at h ⊢
      rw [if_pos he]
      by_cases hs : (s = '+' || s = '-') = true
      · rw [if_pos hs] at h ⊢
        have hrun : run Char.isDigit (ds ++ rest) ≤ ds.length := by split at h <;> omega
        rw [if_pos hs, run_shared ht rfl hrun]
      · rw [if_neg hs] at h ⊢
        have hrun : run Char.isDigit (s :: ds ++ rest) ≤ (s :: ds).length := by
          rw [List.cons_append, List.length_cons]
          split at h <;> omega
        have hsame := run_shared ht rfl hrun
        rw [List.cons_append, List.cons_append] at hsame
        rw [if_neg hs, hsame]
    · rw [if_neg he, if_neg he]

theorem fraction_parted : fraction tail = 0 := by
  match tail, ht with
  | [], _ => rfl
  | _ :: _, ht =>
    obtain rfl := ht _ rfl
    rfl

theorem fraction_shared (h : fraction (shared ++ rest) ≤ shared.length) :
    fraction (shared ++ tail) = fraction (shared ++ rest) := by
  match shared, h with
  | [], h => exact (fraction_parted ht).trans (Nat.le_zero.1 h).symm
  | p :: cs, h =>
    simp only [List.cons_append, fraction, List.length_cons] at h ⊢
    by_cases hp : p = '.'
    · have hrun : run Char.isDigit (cs ++ rest) ≤ cs.length := by
        split at h
        · omega
        · simp_all
      rw [run_shared ht rfl hrun]
      split
      · rename_i hdigits
        rw [if_pos hdigits, List.drop_append_of_le_length hrun] at h
        have hexponent : exponent (cs.drop (run Char.isDigit (cs ++ rest)) ++ rest) ≤
            (cs.drop (run Char.isDigit (cs ++ rest))).length := by
          rw [List.length_drop]
          omega
        rw [List.drop_append_of_le_length hrun, List.drop_append_of_le_length hrun,
          exponent_shared ht hexponent]
      · rfl
    · simp only [hp, decide_false, Bool.false_and, Bool.false_eq_true, if_false]

theorem number_shared {n : Nat} (h : (number n (shared ++ rest)).2 ≤ n + shared.length) :
    number n (shared ++ tail) = number n (shared ++ rest) := by
  have hfraction : fraction (shared ++ rest) ≤ shared.length := by
    unfold number at h
    split at h
    · omega
    · simp_all
  unfold number at h ⊢
  rw [fraction_shared ht hfraction]
  split
  · rfl
  · rename_i hf
    rw [if_neg hf] at h
    have hexponent : exponent (shared ++ rest) ≤ shared.length := by
      split at h
      · omega
      · simp_all
    rw [exponent_shared ht hexponent]

end

/-! ### Marks -/

/-- How a kind is spelled, in characters. -/
def letters (k : Kind) : List Char := (k.spelling?.getD "").toList

theorem length_letters {k : Kind} (hk : k ∈ Kind.marks) : (letters k).length ∈ [3, 2, 1] :=
  (by decide +kernel : ∀ k ∈ Kind.marks, (letters k).length ∈ [3, 2, 1]) k hk

theorem blank_notMem_letters {k : Kind} (hk : k ∈ Kind.marks) : ' ' ∉ letters k :=
  (by decide +kernel : ∀ k ∈ Kind.marks, ' ' ∉ letters k) k hk

/-- The mark that the first `n` characters spell. -/
def markOf? (n : Nat) (cs : List Char) : Option Kind :=
  Kind.marks.find? fun k => k.spelling? == some (String.ofList (cs.take n))

theorem markOf?_some {n : Nat} {cs : List Char} {k : Kind} (h : markOf? n cs = some k) :
    k ∈ Kind.marks ∧ letters k = cs.take n := by
  have hk := List.find?_some h
  rw [beq_iff_eq] at hk
  exact ⟨List.mem_of_find?_eq_some h, by rw [letters, hk, Option.getD_some, String.toList_ofList]⟩

/-- No two marks are spelled alike. -/
theorem markOf?_letters {k : Kind} (hk : k ∈ Kind.marks) {cs : List Char} (h : letters k <+: cs) :
    markOf? (letters k).length cs = some k := by
  unfold markOf?
  rw [← List.prefix_iff_eq_take.1 h]
  exact (by decide +kernel : ∀ k ∈ Kind.marks,
    Kind.marks.find? (fun j => j.spelling? == some (String.ofList (letters k))) = some k) k hk

/-- The mark at the front of a text is the longest that is there. -/
theorem mark?_eq_some {cs : List Char} {k : Kind} : mark? cs = some k ↔
    k ∈ Kind.marks ∧ letters k <+: cs ∧
      ∀ j ∈ Kind.marks, letters j <+: cs → (letters j).length ≤ (letters k).length := by
  have hlongest : ∀ {k : Kind}, mark? cs = some k → k ∈ Kind.marks ∧ letters k <+: cs ∧
      ∀ j ∈ Kind.marks, letters j <+: cs → (letters j).length ≤ (letters k).length := by
    intro k h
    obtain ⟨longer, n, shorter, hsplit, hn, hnone⟩ := List.findSome?_eq_some_iff.1 h
    obtain ⟨hk, htake⟩ := markOf?_some hn
    refine ⟨hk, htake ▸ List.take_prefix n cs, fun j hj hprefix => ?_⟩
    have hle : (letters j).length ≤ n := by
      have hsorted : List.Pairwise (· > ·) (longer ++ n :: shorter) := hsplit ▸ by decide
      have hmem : (letters j).length ∈ longer ++ n :: shorter := hsplit ▸ length_letters hj
      rcases List.mem_append.1 hmem with hlonger | hmem
      · exact nomatch (markOf?_letters hj hprefix).symm.trans (hnone _ hlonger)
      · rcases List.mem_cons.1 hmem with heq | hshorter
        · exact Nat.le_of_eq heq
        · have hgt := (List.pairwise_cons.1 (List.pairwise_append.1 hsorted).2.1).1 _ hshorter
          exact Nat.le_of_lt hgt
    rw [htake, List.length_take]
    exact Nat.le_min.2 ⟨hle, hprefix.length_le⟩
  refine ⟨hlongest, fun ⟨hk, hprefix, hmax⟩ => ?_⟩
  rcases hmark : mark? cs with _ | j
  · have hnone := List.findSome?_eq_none_iff.1 hmark _ (length_letters hk)
    exact nomatch (markOf?_letters hk hprefix).symm.trans hnone
  · obtain ⟨hj, hprefix', hmax'⟩ := hlongest hmark
    have hlength := Nat.le_antisymm (hmax j hj hprefix') (hmax' k hk hprefix)
    have hsame := markOf?_letters hk hprefix
    rw [← hlength, markOf?_letters hj hprefix'] at hsame
    exact hsame

section

variable {shared rest tail : List Char} (ht : Parted tail)
include ht

/-- What has no blank does not reach over the place where the texts part. -/
theorem prefix_shared {w : List Char} (hw : ' ' ∉ w) (h : w <+: shared ++ tail) : w <+: shared := by
  rcases Nat.le_total w.length shared.length with hle | hle
  · exact List.prefix_of_prefix_length_le h (List.prefix_append shared tail) hle
  · obtain ⟨v, rfl⟩ := List.prefix_of_prefix_length_le (List.prefix_append shared tail) h hle
    match v, (List.prefix_append_right_inj shared).1 h with
    | [], _ => exact (List.append_nil shared).symm ▸ List.prefix_rfl
    | c :: v, hv =>
      obtain ⟨us, rfl⟩ := hv
      obtain rfl := ht c rfl
      exact absurd (List.mem_append_right _ List.mem_cons_self) hw

theorem mark?_shared {k : Kind} (h : mark? (shared ++ rest) = some k)
    (hk : (letters k).length ≤ shared.length) : mark? (shared ++ tail) = some k := by
  obtain ⟨hmark, hprefix, hmax⟩ := mark?_eq_some.1 h
  have hshared := List.prefix_of_prefix_length_le hprefix (List.prefix_append shared rest) hk
  refine mark?_eq_some.2 ⟨hmark, hshared.trans (List.prefix_append shared tail), fun j hj hj' => ?_⟩
  have hthere := prefix_shared ht (blank_notMem_letters hj) hj'
  exact hmax j hj (hthere.trans (List.prefix_append shared rest))

end

/-! ### Bodies with an end mark -/

/-- A quoted text that was closed is the same whatever stands behind its end mark. -/
theorem quoted_take {q : Char} {cs : List Char} (h : (quoted q cs).2 = true) (tail : List Char) :
    quoted q (cs.take (quoted q cs).1 ++ tail) = quoted q cs := by
  fun_induction quoted q cs with
  | case1 => cases h
  | case2 cs => rw [List.take_succ_cons, List.take_zero, List.singleton_append, quoted.eq_def]; exact if_pos rfl
  | case3 => cases h
  | case4 => cases h
  | case5 d ds hq hd ih =>
    rw [List.take_succ_cons, List.take_succ_cons, List.cons_append, List.cons_append, quoted, if_neg hq,
      if_pos rfl, if_neg hd, ih h]
  | case6 c cs hq hc ih =>
    rw [List.take_succ_cons, List.cons_append, quoted.eq_def]
    dsimp only
    rw [if_neg hq, if_neg hc, ih h]

/-- So is a block comment. -/
theorem commentBody_take {cs : List Char} (h : (commentBody cs).2 = true) (tail : List Char) :
    commentBody (cs.take (commentBody cs).1 ++ tail) = commentBody cs := by
  obtain ⟨inner, after, rfl, hlength⟩ := commentBody_closed h
  have hends := (commentBody_ends inner after).1 (Prod.ext hlength h)
  have htake := (take_opener (commentBody_le _)).2 hlength
  rw [htake, List.append_assoc, List.cons_append, List.cons_append, List.nil_append,
    (commentBody_ends inner tail).2 hends, (commentBody_ends inner after).2 hends]

/-- What is the same behind its own characters is the same in texts that share them. -/
theorem shared_of_take {f : List Char → Nat × Bool}
    (hf : ∀ {cs : List Char}, (f cs).2 = true → ∀ tail, f (cs.take (f cs).1 ++ tail) = f cs)
    {shared rest : List Char} (h : (f (shared ++ rest)).2 = true) (hn : (f (shared ++ rest)).1 ≤ shared.length)
    (tail : List Char) : f (shared ++ tail) = f (shared ++ rest) := by
  rw [← hf h (shared.drop (f (shared ++ rest)).1 ++ tail), ← List.append_assoc,
    List.take_append_of_le_length hn, List.take_append_drop]

/-! ### Lexemes -/

theorem le_number (n : Nat) (cs : List Char) : n ≤ (number n cs).2 := by
  unfold number
  split
  · exact Nat.le_add_right n _
  · split
    · exact Nat.le_add_right n _
    · exact Nat.le_refl n

theorem of_closed {k : Kind} {body : Nat × Bool} (h : (closed k body).1 ≠ .error) : body.2 = true := by
  unfold closed at h
  by_contra hno
  exact h (if_neg hno)

/-- What begins neither a blank, a word, a number nor a quoted text. -/
def Plain (c : Char) : Prop :=
  isBlank c = false ∧ isLetter c = false ∧ c.isDigit = false ∧ c ≠ '"' ∧ c ≠ '\''

theorem lexeme_plain {c : Char} (h : Plain c) (cs : List Char) : lexeme c cs =
    if c = '/' ∧ cs.head? = some '/' then (.lineComment, run (fun d => d != '\n') cs)
    else if c = '/' ∧ cs.head? = some '*' then
      ((closed .blockComment (commentBody cs.tail)).1, (commentBody cs.tail).1 + 1)
    else if fraction (c :: cs) ≠ 0 then (.decimal, fraction (c :: cs) - 1)
    else ((mark? (c :: cs)).getD .error, (((mark? (c :: cs)).map fun k => (letters k).length).getD 0) - 1) := by
  obtain ⟨hb, hl, hd, hs, hi⟩ := h
  unfold lexeme
  simp only [hb, hl, hd, hs, hi, Bool.false_eq_true, if_false, Bool.and_eq_true, decide_eq_true_eq,
    bne_iff_ne, closed]
  rcases mark? (c :: cs) with _ | k
  · rfl
  · simp only [letters, String.length_toList, Option.getD_some, Option.map_some]

section

variable {c : Char} {shared rest tail : List Char} (ht : Parted tail)
  (hn : (lexeme c (shared ++ rest)).2 ≤ shared.length)
  (herror : (lexeme c (shared ++ rest)).1 ≠ .error)
include ht hn herror

theorem lexeme_shared_plain (hc : Plain c) (hnote : (lexeme c (shared ++ rest)).1 ≠ .lineComment) :
    lexeme c (shared ++ tail) = lexeme c (shared ++ rest) := by
  rw [lexeme_plain hc] at hn herror hnote
  rw [lexeme_plain hc, lexeme_plain hc]
  by_cases hslash : c = '/' ∧ (shared ++ rest).head? = some '/'
  · exact absurd rfl (if_pos hslash ▸ hnote)
  rw [if_neg hslash] at hn herror
  rw [if_neg hslash, if_neg fun h => head?_shared ht (by decide) (not_and.1 hslash h.1) h.2]
  by_cases hstar : c = '/' ∧ (shared ++ rest).head? = some '*'
  · rw [if_pos hstar] at hn herror
    match shared with
    -- the star belongs to the lexeme, so the texts share it
    | [] => exact absurd hn (Nat.not_succ_le_zero _)
    | x :: xs =>
      have hbody := shared_of_take commentBody_take (of_closed herror) (Nat.le_of_succ_le_succ hn) tail
      rw [if_pos hstar, if_pos (show c = '/' ∧ (x :: xs ++ tail).head? = some '*' from hstar)]
      rw [List.cons_append, List.cons_append, List.tail_cons, List.tail_cons, hbody]
  rw [if_neg hstar] at hn herror
  rw [if_neg hstar, if_neg fun h => head?_shared ht (by decide) (not_and.1 hstar h.1) h.2]
  rw [← List.cons_append] at hn herror ⊢
  rw [← List.cons_append]
  by_cases hf : fraction (c :: shared ++ rest) = 0
  · have hle : fraction (c :: shared ++ rest) ≤ (c :: shared).length := hf ▸ Nat.zero_le _
    have hfraction := fraction_shared ht hle
    rw [if_neg (not_not.2 hf)] at hn herror
    rw [if_neg (not_not.2 hf), if_neg (not_not.2 (hfraction.trans hf))]
    rcases hmark : mark? (c :: shared ++ rest) with _ | k
    · rw [hmark] at herror
      exact absurd rfl herror
    · rw [hmark] at hn
      have hk : (letters k).length ≤ (c :: shared).length := Nat.le_add_of_sub_le hn
      rw [mark?_shared ht hmark hk]
  · rw [if_pos hf] at hn
    have hle : fraction (c :: shared ++ rest) ≤ (c :: shared).length := Nat.le_add_of_sub_le hn
    have hfraction := fraction_shared ht hle
    rw [if_pos hf, hfraction, if_pos hf]

/-- A lexeme that ends where two texts still agree is found in both. -/
theorem lexeme_shared (hblank : (lexeme c (shared ++ rest)).1 ≠ .whitespace)
    (hnote : (lexeme c (shared ++ rest)).1 ≠ .lineComment) :
    lexeme c (shared ++ tail) = lexeme c (shared ++ rest) := by
  by_cases hplain : Plain c
  · exact lexeme_shared_plain ht hn herror hplain hnote
  unfold lexeme at hn herror hblank ⊢
  dsimp only at hn herror hblank ⊢
  by_cases hb : isBlank c = true
  · exact absurd rfl (if_pos hb ▸ hblank)
  simp only [if_neg hb] at hn herror ⊢
  by_cases hl : isLetter c = true
  · simp only [if_pos hl] at hn ⊢
    rw [run_shared ht (by decide) hn, List.take_append_of_le_length hn, List.take_append_of_le_length hn]
  simp only [if_neg hl] at hn herror ⊢
  by_cases hd : c.isDigit = true
  · simp only [if_pos hd] at hn ⊢
    have hrun : run Char.isDigit (shared ++ rest) ≤ shared.length := Nat.le_trans (le_number _ _) hn
    rw [List.drop_append_of_le_length hrun] at hn ⊢
    rw [run_shared ht (by decide) hrun, List.drop_append_of_le_length hrun]
    refine number_shared ht (Nat.le_trans hn ?_)
    rw [List.length_drop]
    omega
  simp only [if_neg hd] at hn herror ⊢
  have hquoted : ∀ {q k}, (closed k (quoted q (shared ++ rest))).1 ≠ .error →
      (closed k (quoted q (shared ++ rest))).2 ≤ shared.length →
        closed k (quoted q (shared ++ tail)) = closed k (quoted q (shared ++ rest)) := by
    intro q k herror hn
    rw [shared_of_take quoted_take (of_closed herror) hn]
  by_cases hs : c = '"'
  · simp only [if_pos hs] at hn herror ⊢
    exact hquoted herror hn
  simp only [if_neg hs] at hn herror ⊢
  by_cases hi : c = '\''
  · simp only [if_pos hi] at hn herror ⊢
    exact hquoted herror hn
  · exact absurd ⟨Bool.eq_false_iff.2 hb, Bool.eq_false_iff.2 hl, Bool.eq_false_iff.2 hd, hs, hi⟩ hplain

end

/-- No lexeme but a blank begins with one. -/
theorem isBlank_of_lexeme {c : Char} {cs : List Char} (h : (lexeme c cs).1 ≠ .whitespace) :
    isBlank c = false := by
  by_contra hb
  unfold lexeme at h
  exact h (by rw [if_pos (Bool.not_eq_false _ ▸ hb)])

/-- A blank in front of a lexeme is one by itself. -/
theorem lexemes_blank {cs : List Char} (h : ∀ c ∈ cs.head?, isBlank c = false) :
    lexemes (' ' :: cs) = (.whitespace, [' ']) :: lexemes cs := by
  have hrun : (lexeme ' ' cs).2 = 0 := by
    match cs, h with
    | [], _ => rfl
    | c :: cs, h =>
      have hb := h c rfl
      show run isBlank (c :: cs) = 0
      simp only [run, List.takeWhile_cons, hb, Bool.false_eq_true, if_false, List.length_nil]
  rw [lexemes_cons, hrun]
  rfl

/-- A gap is nothing but a blank. -/
theorem filter_gap {gap : Bool} {cs : List Char} (h : ∀ c ∈ cs.head?, isBlank c = false) :
    (lexemes ((if gap then [' '] else []) ++ cs)).filter (·.1 ≠ .whitespace) =
      (lexemes cs).filter (·.1 ≠ .whitespace) := by
  cases gap
  · rfl
  · rw [if_pos rfl, List.singleton_append, lexemes_blank h, List.filter_cons_of_neg (by decide)]

theorem ne_nil_of_mem_lexemes {cs : List Char} {l : Kind × List Char} (h : l ∈ lexemes cs) : l.2 ≠ [] :=
  ne_nil_of_mem_lexemesWithin h

/-! ### Tokens -/

theorem map_place (offset : Nat) (position : Position) (ls : List (Kind × List Char)) :
    (place offset position ls).map (fun t => (t.kind, t.text)) =
      ls.map fun l => (l.1, String.ofList l.2) := by
  induction ls generalizing offset position with
  | nil => rfl
  | cons l ls ih => simp only [place, List.map_cons, ih, Token.make]

theorem offset_le_of_mem_place {offset : Nat} {position : Position} {ls : List (Kind × List Char)} {t : Token}
    (h : t ∈ place offset position ls) : offset ≤ t.offset := by
  induction ls generalizing offset position with
  | nil => cases h
  | cons l ls ih =>
    rcases List.mem_cons.1 h with rfl | h
    · exact Nat.le_refl _
    · exact Nat.le_trans (Nat.le_add_right _ _) (ih h)

theorem toList_joinFrom (stop : Option Nat) (u : Token) (us : List Token) :
    (Node.joinFrom stop (u :: us)).toList =
      (if stop.any (· != u.offset) then [' '] else []) ++
        (u.text.toList ++ (Node.joinFrom (some u.stop) us).toList) := by
  rw [Node.joinFrom]
  split
  · simp only [String.toList_append, List.append_assoc]
    rfl
  · simp only [String.toList_append, List.append_assoc]
    rfl

theorem toList_joinFrom_make (stop : Option Nat) (kind : Kind) (cs : List Char) (offset : Nat)
    (position : Position) (us : List Token) :
    (Node.joinFrom stop (.make kind (String.ofList cs) offset position :: us)).toList =
      (if stop.any (· != offset) then [' '] else []) ++
        (cs ++ (Node.joinFrom (some (offset + (String.ofList cs).utf8ByteSize)) us).toList) := by
  have h := toList_joinFrom stop (.make kind (String.ofList cs) offset position) us
  dsimp only [Token.make, Token.stop] at h
  rw [String.toList_ofList] at h
  exact h

/-- Some of the tokens from a place on, joined: up to the first that is missing they run as in the text, and
then comes a blank, or nothing. -/
theorem join_parted {offset : Nat} {position : Position} {ls : List (Kind × List Char)} {us : List Token}
    (hls : ∀ l ∈ ls, l.2 ≠ []) (h : us.Sublist (place offset position ls)) :
    ∃ shared rest tail, ls.flatMap (·.2) = shared ++ rest ∧
      (Node.joinFrom (some offset) us).toList = shared ++ tail ∧ Parted tail := by
  induction ls generalizing offset position us with
  | nil =>
    obtain rfl := List.sublist_nil.1 h
    exact ⟨[], [], [], rfl, rfl, parted_nil⟩
  | cons l ls ih =>
    have hls' : ∀ l ∈ ls, l.2 ≠ [] := fun k hk => hls k (List.mem_cons_of_mem _ hk)
    have htext : (String.ofList l.2).utf8ByteSize ≠ 0 := by
      rw [Ne, String.utf8ByteSize_eq_zero_iff, String.ofList_eq_empty_iff]
      exact hls l List.mem_cons_self
    rw [place] at h
    rcases us with _ | ⟨u, us⟩
    · exact ⟨[], _, [], rfl, rfl, parted_nil⟩
    cases h with
    | cons _ h =>
      -- the token is missing, and the next one is further on
      have hoffset := offset_le_of_mem_place (h.subset List.mem_cons_self)
      refine ⟨[], _, (Node.joinFrom (some offset) (u :: us)).toList, rfl, rfl, ?_⟩
      have hgap : (some offset).any (· != u.offset) = true := by
        rw [Option.any_some, bne_iff_ne]
        omega
      rw [toList_joinFrom, if_pos hgap]
      exact parted_blank _
    | cons_cons _ h =>
      obtain ⟨shared, rest, tail, hflat, hjoin, htail⟩ := ih hls' h
      refine ⟨l.2 ++ shared, rest, tail, ?_, ?_, htail⟩
      · rw [List.flatMap_cons, hflat, List.append_assoc]
      · rw [toList_joinFrom_make, hjoin, Option.any_some, bne_self_eq_false, List.append_assoc]
        rfl

/-- A lexeme is read again in front of what is joined behind it. -/
theorem lexemes_rejoined {c : Char} {cs shared rest tail : List Char} (ht : Parted tail)
    (herror : (lexeme c cs).1 ≠ .error) (hblank : (lexeme c cs).1 ≠ .whitespace)
    (hnote : (lexeme c cs).1 ≠ .lineComment) (hdrop : cs.drop (lexeme c cs).2 = shared ++ rest) :
    lexemes (c :: (cs.take (lexeme c cs).2 ++ (shared ++ tail))) =
      ((lexeme c cs).1, c :: cs.take (lexeme c cs).2) :: lexemes (shared ++ tail) := by
  have hlength : (cs.take (lexeme c cs).2).length = (lexeme c cs).2 := by
    rw [List.length_take, Nat.min_eq_left (lexeme_le c cs)]
  have hcs : cs.take (lexeme c cs).2 ++ shared ++ rest = cs := by
    rw [List.append_assoc, ← hdrop, List.take_append_drop]
  have hle : (lexeme c cs).2 ≤ (cs.take (lexeme c cs).2 ++ shared).length := by
    rw [List.length_append, hlength]
    exact Nat.le_add_right _ _
  have hsame : lexeme c (cs.take (lexeme c cs).2 ++ (shared ++ tail)) = lexeme c cs := by
    have hagree : ∀ ds, ds ++ rest = cs → (lexeme c cs).2 ≤ ds.length → lexeme c (ds ++ tail) = lexeme c cs := by
      rintro ds rfl hds
      exact lexeme_shared ht hds herror hblank hnote
    rw [← List.append_assoc]
    exact hagree _ hcs hle
  rw [lexemes_cons, hsame, List.take_left' hlength, List.drop_left' hlength]

/-- A reading again gives the tokens that were joined, whatever was left out between them. -/
theorem lexemes_joined {n : Nat} {cs : List Char} (hn : cs.length ≤ n) {offset : Nat} {position : Position}
    {us : List Token} (h : us.Sublist (place offset position (lexemes cs)))
    (hus : ∀ t ∈ us, t.kind ≠ .error ∧ t.kind ≠ .whitespace ∧ t.kind ≠ .lineComment) (stop : Option Nat) :
    ((lexemes (Node.joinFrom stop us).toList).filter (·.1 ≠ .whitespace)).map
      (fun l => (l.1, String.ofList l.2)) = us.map fun t => (t.kind, t.text) := by
  induction n generalizing cs offset position us stop with
  | zero =>
    rw [List.length_eq_zero_iff.1 (Nat.le_zero.1 hn)] at h
    obtain rfl := List.sublist_nil.1 h
    rfl
  | succ n ih =>
    match cs, hn, h with
    | [], _, h =>
      obtain rfl := List.sublist_nil.1 h
      rfl
    | c :: cs, hn, h =>
      have hdrop : (cs.drop (lexeme c cs).2).length ≤ n :=
        Nat.le_trans (List.drop_sublist _ cs).length_le (Nat.le_of_succ_le_succ hn)
      rw [lexemes_cons, place] at h
      cases h with
      | cons _ h => exact ih hdrop h hus stop
      | cons_cons _ h =>
        obtain ⟨herror, hblank, hnote⟩ : (lexeme c cs).1 ≠ .error ∧ (lexeme c cs).1 ≠ .whitespace ∧
            (lexeme c cs).1 ≠ .lineComment := hus _ List.mem_cons_self
        obtain ⟨shared, rest, tail, hflat, hjoin, htail⟩ := join_parted (fun l => ne_nil_of_mem_lexemes) h
        rw [flatMap_lexemes] at hflat
        have hrest := ih hdrop h fun t ht => hus t (List.mem_cons_of_mem _ ht)
        have hread := lexemes_rejoined htail herror hblank hnote hflat
        rw [← hjoin] at hread
        have hhead : ∀ ds : List Char, ∀ d ∈ (c :: ds).head?, isBlank d = false := fun ds d hd =>
          Option.mem_some.1 hd ▸ isBlank_of_lexeme hblank
        rw [toList_joinFrom_make, List.cons_append, filter_gap (hhead _), hread,
          List.filter_cons, if_pos (decide_eq_true hblank), List.map_cons, List.map_cons, hrest]
        rfl

end Scanner

open Scanner

/-! ### Nodes -/

mutual

theorem Node.tokens_sublist {n : Node} : ∀ m : Node, n ∈ m.descendants → n.tokens.Sublist m.tokens
  | .mk r cs fs e, h => by
    rw [Node.descendants] at h
    rcases List.mem_cons.1 h with rfl | h
    · exact List.Sublist.refl _
    · exact Node.tokensOf_sublist cs h

theorem Node.tokensOf_sublist {n : Node} : ∀ cs : List Child,
    n ∈ Node.descendantsOf cs → n.tokens.Sublist (Node.tokensOf cs)
  | [], h => nomatch h
  | .token t :: cs, h => (Node.tokensOf_sublist cs h).cons t
  | .node m :: cs, h => by
    rw [Node.tokensOf]
    rcases List.mem_append.1 h with h | h
    · exact (Node.tokens_sublist m h).trans (List.sublist_append_left _ _)
    · exact (Node.tokensOf_sublist cs h).trans (List.sublist_append_right _ _)

end

/-- The text of a node scans back to its tokens. -/
theorem parseTokens_rescanned {r : Rule} {text : String} {settings : Settings} {p : Parse}
    (hp : (parseTokens r (scan text) settings).1 = .ok p) (hclean : ∀ t ∈ scan text, t.kind ≠ .error)
    {n : Node} (hn : n ∈ p.root.descendants) :
    ((scan n.text).filter (·.kind ≠ .whitespace)).map (fun t => (t.kind, t.text)) =
      n.tokens.map fun t => (t.kind, t.text) := by
  obtain ⟨x, hr, -⟩ := rooted_of_parseTokens hp
  obtain ⟨hk, -⟩ := hr.kept (regular_ofTokens (scan text) settings) placesComments_kerml
    (Stream.kind_ne_eof_ofTokens fun t ht _ => (scan_kind ht).1)
  have hall : (Stream.ofTokens (scan text)).stretch 0 (Stream.ofTokens (scan text)).size = scan text :=
    (Stream.ofTokens (scan text)).stretch_all
  have hroot : p.root.tokens.Sublist (scan text) := hall ▸ hk.sublist
  have hsub := (Node.tokens_sublist p.root hn).trans hroot
  have hvisible : ∀ t ∈ n.tokens, t.kind ≠ .error ∧ t.kind ≠ .whitespace ∧ t.kind ≠ .lineComment := by
    intro t ht
    have hchannel := hk.visible t ((Node.tokens_sublist p.root hn).subset ht)
    rw [(scan_kind (hsub.subset ht)).2] at hchannel
    exact ⟨hclean t (hsub.subset ht), fun h => hchannel (h ▸ rfl), fun h => hchannel (h ▸ rfl)⟩
  have hread := lexemes_joined (Nat.le_refl _) hsub hvisible none
  have hscan : ((scan n.text).filter (·.kind ≠ .whitespace)).map (fun t => (t.kind, t.text)) =
      ((scan n.text).map fun t => (t.kind, t.text)).filter (·.1 ≠ .whitespace) := by
    rw [List.filter_map]
    rfl
  rw [hscan, scan, map_place, List.filter_map]
  exact hread

/-- The comment leaves a blank, without which `...5` would be read otherwise. -/
theorem parseTokens_rescanned_gap :
    ∃ p, (parseTokens .rootNamespace (scan "x = 1../* c */.5;") .standard).1 = .ok p ∧
      p.root.text = "x = 1.. .5;" ∧
      ∀ n ∈ p.root.descendants,
        ((scan n.text).filter (·.kind ≠ .whitespace)).map (fun t => (t.kind, t.text)) =
          n.tokens.map fun t => (t.kind, t.text) := by
  obtain ⟨p, hp⟩ := parseTokens_answers .rootNamespace (scan "x = 1../* c */.5;")
    (rfl : Settings.standard.cancel = none)
  have htext : ((parseTokens .rootNamespace (scan "x = 1../* c */.5;") .standard).1.toOption.map
      (·.root.text)) = some "x = 1.. .5;" := by
    decide +kernel
  rw [hp] at htext
  exact ⟨p, hp, Option.some.inj htext, fun n hn => parseTokens_rescanned hp (by decide +kernel) hn⟩

end KermlText
