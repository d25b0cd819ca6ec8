import KermlText.Proofs.Annotated
import KermlText.Proofs.Forms
import Mathlib.Logic.Function.Iterate

/-! Moves on a stream. Whoever moves along a stream counts its default-channel tokens: what was moved over is
a number, and what is seen from a place is the list of these tokens without so many. A comment is moved over
without being counted. Both are known of every place that moves lead to as soon as they are known of one
move, and a place that was marked is found again whatever was done since. -/

namespace KermlText

namespace Stream

variable (s : Stream)

/-- How many default-channel tokens stand in front of a place. -/
def passed (pos : Nat) : Nat := ((s.stretch 0 pos).filter fun t => t.channel = .default).length

/-- From the place `pos` the tokens in `ds` are seen, and the mark for the end behind them. -/
structure Faces (pos : Nat) (ds : List Token) : Prop where
  le_size : pos ≤ s.size
  peek : ∀ n, s.peek pos n = ((ds ++ [s.eof])[n]?).elim (.error s.endFailure) .ok
  peekKind : ∀ n, s.peekKind pos n = ((ds ++ [s.eof])[n]?).elim .eof (·.kind)
  atEnd : s.atEnd pos = true ↔ ds = []
  horizon : ∀ n, s.horizon pos n = s.settle (s.skip^[min n ds.length] pos)
  stays : ds = [] → s.advance pos = .error s.endFailure ∧ s.next? pos = none ∧ s.skip pos = pos
  takes : ∀ d w, ds = d :: w →
    s.advance pos = .ok (d, s.skip pos) ∧ s.next? pos = some (s.skip pos) ∧ s.rest (s.skip pos) = w
  comment : ∀ j, s.comment? pos = some j ↔
    (pos ≤ j ∧ j < s.settle pos ∧ (s.token j).channel = .comment) ∧
      ∀ i, pos ≤ i → i < j → (s.token i).channel ≠ .comment
  commented : ∀ j, s.comment? pos = some j → s.rest (j + 1) = ds

variable {s} {pos i j : Nat}

theorem rest_zero (ts : List Token) : (ofTokens ts).rest 0 = ts.filter fun t => t.channel = .default := by
  rw [rest, stretch_all]
  rfl

theorem rest_zero_eq (h : pos ≤ s.size) :
    s.rest 0 = (s.stretch 0 pos).filter (fun t => t.channel = .default) ++ s.rest pos := by
  rw [rest, rest, ← s.stretch_append (Nat.zero_le pos) h, List.filter_append]

theorem rest_eq_drop (h : pos ≤ s.size) : s.rest pos = (s.rest 0).drop (s.passed pos) := by
  rw [rest_zero_eq h]
  exact (List.drop_left ..).symm

theorem passed_add (h : pos ≤ s.size) : s.passed pos + (s.rest pos).length = (s.rest 0).length := by
  rw [rest_zero_eq h, List.length_append, passed]

/-! ### What is seen -/

theorem rest_skip (h : pos ≤ s.size) (he : s.atEnd pos = false) :
    s.rest pos = s.current pos :: s.rest (s.skip pos) := by
  rw [rest_of_not_atEnd h he, skip_of_not_atEnd he]

theorem atEnd_iff_rest (h : pos ≤ s.size) : s.atEnd pos = true ↔ s.rest pos = [] := by
  refine ⟨rest_of_atEnd, fun hr => ?_⟩
  rcases he : s.atEnd pos with _ | _
  · rw [rest_skip h he] at hr
    exact absurd hr (List.cons_ne_nil _ _)
  · rfl

theorem ahead?_succ_of_not_atEnd (he : s.atEnd pos = false) (n : Nat) :
    s.ahead? pos (n + 1) = s.ahead? (s.skip pos) n := by
  rw [ahead?, hop, if_neg (Nat.ne_of_lt (s.settle_lt_of_not_atEnd he)), skip_of_not_atEnd he]
  rfl

theorem ahead?_succ_of_atEnd (he : s.atEnd pos = true) (n : Nat) : s.ahead? pos (n + 1) = none := by
  rw [ahead?, hop, if_pos (s.atEnd_iff.1 he)]

theorem map_token_ahead? (h : pos ≤ s.size) (n : Nat) :
    (s.ahead? pos n).map s.token = (s.rest pos ++ [s.eof])[n]? := by
  induction n generalizing pos with
  | zero =>
    change some (s.current pos) = _
    rcases he : s.atEnd pos with _ | _
    · rw [rest_skip h he]
      rfl
    · rw [rest_of_atEnd he, current_of_atEnd he]
      rfl
  | succ n ih =>
    rcases he : s.atEnd pos with _ | _
    · rw [ahead?_succ_of_not_atEnd he, ih (skip_le_size he), rest_skip h he, List.cons_append,
        List.getElem?_cons_succ]
    · rw [ahead?_succ_of_atEnd he, rest_of_atEnd he]
      rfl

theorem horizon_eq_settle (h : pos ≤ s.size) (n : Nat) :
    s.horizon pos n = s.settle (s.skip^[min n (s.rest pos).length] pos) := by
  induction n generalizing pos with
  | zero => rw [Nat.zero_min]; rfl
  | succ n ih =>
    rw [horizon]
    rcases he : s.atEnd pos with _ | _
    · have hih := ih (skip_le_size he)
      rw [horizon] at hih
      rw [ahead?_succ_of_not_atEnd he, hih, rest_skip h he, List.length_cons, Nat.succ_min_succ,
        Function.iterate_succ_apply]
    · rw [ahead?_succ_of_atEnd he, rest_of_atEnd he, List.length_nil, Nat.min_zero]
      exact (s.atEnd_iff.1 he).symm

theorem comment?_eq_some (h : pos ≤ s.size) : s.comment? pos = some j ↔
    (pos ≤ j ∧ j < s.settle pos ∧ (s.token j).channel = .comment) ∧
      ∀ i, pos ≤ i → i < j → (s.token i).channel ≠ .comment := by
  constructor
  · intro hj
    refine ⟨s.comment?_some hj, fun i hi hij => ?_⟩
    apply s.comment?_first h hi
    rwa [hj]
  · rintro ⟨⟨hle, hlt, hc⟩, hfirst⟩
    rcases hk : s.comment? pos with _ | k
    · -- nothing is seen up to the next token, but the comment at `j` stands in front of it
      apply absurd hc
      apply s.comment?_first h hle
      rwa [hk]
    · obtain ⟨hpk, -, hck⟩ := s.comment?_some hk
      rcases Nat.lt_trichotomy k j with hkj | rfl | hjk
      · exact absurd hck (hfirst k hpk hkj)
      · rfl
      · apply absurd hc
        apply s.comment?_first h hle
        rwa [hk]

theorem rest_comment (hj : s.comment? pos = some j) : s.rest (j + 1) = s.rest pos := by
  have hc := (s.comment?_some hj).2.2
  rw [(Kept.comment hj).rest]
  simp [hc]

theorem faces_rest (h : pos ≤ s.size) : s.Faces pos (s.rest pos) where
  le_size := h
  peek n := by
    rw [← map_token_ahead? h, peek]
    cases s.ahead? pos n <;> rfl
  peekKind n := by
    rw [← map_token_ahead? h, peekKind]
    cases s.ahead? pos n <;> rfl
  atEnd := atEnd_iff_rest h
  horizon := horizon_eq_settle h
  stays hr := by
    have hn := s.next?_of_atEnd ((atEnd_iff_rest h).2 hr)
    refine ⟨?_, hn, ?_⟩
    · rw [advance, hn]
    · rw [skip, hn]
      rfl
  takes d w hr := by
    have he : s.atEnd pos = false := by
      rw [← Bool.not_eq_true, atEnd_iff_rest h, hr]
      exact List.cons_ne_nil _ _
    have hn : s.next? pos = some (s.skip pos) := by rw [s.next?_of_not_atEnd he, skip_of_not_atEnd he]
    obtain ⟨rfl, rfl⟩ := List.cons.inj ((rest_skip h he).symm.trans hr)
    refine ⟨?_, hn, rfl⟩
    rw [advance, hn]
  comment _ := comment?_eq_some h
  commented _ := rest_comment

theorem passed_of_rest (hi : i ≤ s.size) (hj : j ≤ s.size) (h : s.rest j = s.rest i) :
    s.passed j = s.passed i := by
  have hpi := passed_add hi
  have hpj := passed_add hj
  rw [h] at hpj
  omega

theorem passed_skip (h : i ≤ s.size) :
    s.skip i ≤ s.size ∧ s.passed (s.skip i) = min (s.passed i + 1) (s.rest 0).length := by
  have hi := passed_add h
  rcases he : s.atEnd i with _ | _
  · have hle := skip_le_size he
    have hj := passed_add hle
    rw [rest_skip h he, List.length_cons] at hi
    exact ⟨hle, by omega⟩
  · rw [rest_of_atEnd he, List.length_nil] at hi
    rw [((faces_rest h).stays (rest_of_atEnd he)).2.2]
    exact ⟨h, by omega⟩

end Stream

/-! ### Moves -/

/-- What is asked of a cursor. A mark is known by its number among those that were taken. -/
inductive Move where
  | advance
  | bump
  | advanceComment
  | mark
  | rewind (i : Nat)

/-- A place, and the places that were marked on the way to it. -/
structure Cursor where
  pos : Nat
  marks : List Nat

namespace Cursor

def start : Cursor := ⟨0, []⟩

/-- A move along the stream. One that fails changes nothing. -/
def move (s : Stream) (c : Cursor) : Move → Cursor
  | .advance =>
    match s.advance c.pos with
    | .ok (_, i) => { c with pos := i }
    | .error _ => c
  | .bump => { c with pos := s.skip c.pos }
  | .advanceComment =>
    match s.comment? c.pos with
    | some i => { c with pos := i + 1 }
    | none => c
  | .mark => { c with marks := c.marks ++ [c.pos] }
  | .rewind i =>
    match c.marks[i]? with
    | some m => { c with pos := s.rewind m }
    | none => c

/-- The same move where only the default-channel tokens count, of which there are `n`. -/
def count (n : Nat) (c : Cursor) : Move → Cursor
  | .advance | .bump => { c with pos := min (c.pos + 1) n }
  | .advanceComment => c
  | .mark => { c with marks := c.marks ++ [c.pos] }
  | .rewind i =>
    match c.marks[i]? with
    | some m => { c with pos := m }
    | none => c

def run (s : Stream) (ms : List Move) : Cursor := ms.foldl (move s) start

/-- A cursor by the numbers of the tokens that it passed. -/
def counted (s : Stream) (c : Cursor) : Cursor := ⟨s.passed c.pos, c.marks.map s.passed⟩

/-- No place lies behind the end. -/
structure Within (s : Stream) (c : Cursor) : Prop where
  pos : c.pos ≤ s.size
  marks : ∀ m ∈ c.marks, m ≤ s.size

variable {s : Stream} {c : Cursor}

theorem move_advance (s : Stream) (c : Cursor) : c.move s .advance = c.move s .bump := by
  simp only [move, Stream.advance, Stream.skip]
  rcases s.next? c.pos with _ | i <;> rfl

/-- A move stays within the stream, keeps the marks, and counts. -/
theorem Within.move (h : c.Within s) (m : Move) :
    (c.move s m).Within s ∧ c.marks <+: (c.move s m).marks ∧
      (c.move s m).counted s = (c.counted s).count (s.rest 0).length m := by
  have hskip : (c.move s .bump).Within s ∧ c.marks <+: (c.move s .bump).marks ∧
      (c.move s .bump).counted s = (c.counted s).count (s.rest 0).length .bump := by
    obtain ⟨hle, hpassed⟩ := Stream.passed_skip h.pos
    refine ⟨⟨hle, h.marks⟩, List.prefix_refl _, ?_⟩
    simp only [Cursor.move, counted, hpassed, count]
  induction m with
  | advance => rwa [move_advance]
  | bump => exact hskip
  | advanceComment =>
    simp only [Cursor.move]
    rcases hj : s.comment? c.pos with _ | j
    · exact ⟨h, List.prefix_refl _, rfl⟩
    · have hle : j + 1 ≤ s.size := (Stream.Kept.comment hj).le_size
      refine ⟨⟨hle, h.marks⟩, List.prefix_refl _, ?_⟩
      simp only [counted, count, Stream.passed_of_rest h.pos hle (Stream.rest_comment hj)]
  | mark =>
    refine ⟨⟨h.pos, ?_⟩, List.prefix_append _ _, by simp [Cursor.move, counted, count]⟩
    simp only [Cursor.move, List.mem_append, List.mem_singleton]
    rintro m (hm | rfl)
    · exact h.marks m hm
    · exact h.pos
  | rewind i =>
    simp only [Cursor.move, count, counted, List.getElem?_map]
    rcases hm : c.marks[i]? with _ | m
    · exact ⟨h, List.prefix_refl _, rfl⟩
    · have hle := h.marks m (List.mem_of_getElem? hm)
      have hback : s.rewind m = m := Nat.min_eq_left hle
      simp only [hback]
      exact ⟨⟨hle, h.marks⟩, List.prefix_refl _, rfl⟩

theorem Within.foldl (h : c.Within s) (ms : List Move) :
    (ms.foldl (Cursor.move s) c).Within s ∧ c.marks <+: (ms.foldl (Cursor.move s) c).marks ∧
      (ms.foldl (Cursor.move s) c).counted s = ms.foldl (count (s.rest 0).length) (c.counted s) := by
  induction ms generalizing c with
  | nil => exact ⟨h, List.prefix_refl _, rfl⟩
  | cons m ms ih =>
    obtain ⟨hw, hmarks, hcount⟩ := h.move m
    obtain ⟨hw', hmarks', hcount'⟩ := ih hw
    refine ⟨hw', hmarks.trans hmarks', ?_⟩
    rw [List.foldl_cons, hcount', hcount, List.foldl_cons]

theorem within_start : start.Within s := ⟨Nat.zero_le _, nofun⟩

theorem counted_start : start.counted s = start := by
  simp [counted, start, Stream.passed, Stream.stretch_self]

/-- Back at a mark, whatever was done since. -/
theorem Within.back (h : c.Within s) (ms : List Move) :
    (((.mark :: ms).foldl (Cursor.move s) c).move s (.rewind c.marks.length)).pos = c.pos := by
  obtain ⟨hw, -⟩ := h.move .mark
  obtain ⟨-, ⟨more, hmarks⟩, -⟩ := hw.foldl ms
  have hmark : ((.mark :: ms).foldl (Cursor.move s) c).marks[c.marks.length]? = some c.pos := by
    rw [List.foldl_cons, ← hmarks]
    simp [Cursor.move]
  simp only [Cursor.move, hmark]
  exact Nat.min_eq_left h.pos

/-- Along any moves a cursor is the number of default-channel tokens that it passed, and what is seen from it
are the others. Back at a mark the place is the one that was marked. -/
theorem run_counts (ts : List Token) (ms : List Move) :
    let s := Stream.ofTokens ts
    let due := ts.filter fun t => t.channel = .default
    let c := run s ms
    c.counted s = ms.foldl (count due.length) start ∧ s.Faces c.pos (due.drop (s.passed c.pos)) ∧
      ∀ since, (run s (ms ++ .mark :: since ++ [.rewind c.marks.length])).pos = c.pos := by
  intro s due c
  have hdue : s.rest 0 = due := Stream.rest_zero ts
  obtain ⟨hw, -, hcount⟩ := within_start.foldl (s := s) ms
  have hpos : c.pos ≤ s.size := hw.pos
  rw [counted_start, hdue] at hcount
  refine ⟨hcount, ?_, fun since => ?_⟩
  · rw [← hdue, ← Stream.rest_eq_drop hpos]
    exact Stream.faces_rest hpos
  · have hback := hw.back since
    rwa [run, List.foldl_append, List.foldl_append]

end Cursor
end KermlText
