import KermlText.Proofs.Derivation
import KermlText.Proofs.Recall
import KermlText.Proofs.Retraced
import KermlText.Proofs.Starts

/-! Where a trial may stand when there are comments. A comment is taken at the end of an annotation only, and an
annotation begins with a key. So what is in front of a place tells whether lookahead sees comments there: outside
annotations a trial stands behind a token or behind the comment of an annotation, inside behind a token. -/

namespace KermlText

namespace Stream

variable (s : Stream) (keys : KindSet)

/-- A key stands in front of the place, and no comment since. -/
def Annotating (p : Nat) : Prop :=
  ∃ k < p, (s.token k).channel = .default ∧ keys.contains (s.token k).kind = true ∧
    ∀ j, k < j → j < p → (s.token j).channel ≠ .comment

/-- The place is the first, or right behind a default-channel token. -/
def BehindToken (p : Nat) : Prop := p = 0 ∨ ∃ j, p = j + 1 ∧ (s.token j).channel = .default

/-- The place is right behind the comment of an annotation. -/
def BehindRemark (p : Nat) : Prop := ∃ j, p = j + 1 ∧ (s.token j).channel = .comment ∧ s.Annotating keys j

/-- Where a trial may stand, inside annotations or outside. -/
def Lane (inside : Bool) (p : Nat) : Prop :=
  p ≤ s.size ∧ if inside then s.Annotating keys p ∧ s.BehindToken p
    else ¬ s.Annotating keys p ∧ (s.BehindToken p ∨ s.BehindRemark keys p)

variable {s} {keys} {p q : Nat}

theorem commentWithin_first (n i : Nat) {j : Nat} (hi : i ≤ j) (hj : j < (s.commentWithin n i).getD (i + n)) :
    (s.token j).channel ≠ .comment := by
  induction n generalizing i with
  | zero => simp [commentWithin] at hj; omega
  | succ n ih =>
    unfold commentWithin at hj
    split at hj
    · simp at hj; omega
    · rename_i hc
      rcases Nat.eq_or_lt_of_le hi with rfl | hlt
      · exact hc
      · exact ih (i + 1) hlt (by rwa [Nat.add_right_comm])

/-- The comment that is seen is the first. -/
theorem comment?_first (hp : p ≤ s.size) {j : Nat} (hj : p ≤ j) (hlt : j < (s.comment? p).getD (s.settle p)) :
    (s.token j).channel ≠ .comment := by
  have hle := s.le_settle hp
  refine s.commentWithin_first (s.settle p - p) p hj ?_
  rwa [Nat.add_sub_cancel' hle]

theorem comment?_of_lookahead {k : Kind} (h : s.lookahead p true = k) (hk : k ≠ .blockComment) :
    s.comment? p = none := by
  rcases hc : s.comment? p with _ | i
  · rfl
  · simp [lookahead, hc] at h
    exact absurd h.symm hk

theorem annotating_succ {k : Nat} (hc : (s.token k).channel = .default)
    (hk : keys.contains (s.token k).kind = true) : s.Annotating keys (k + 1) :=
  ⟨k, Nat.lt_succ_self k, hc, hk, fun j h1 h2 => by omega⟩

theorem Annotating.on (h : s.Annotating keys p) (hpq : p ≤ q)
    (hc : ∀ j, p ≤ j → j < q → (s.token j).channel ≠ .comment) : s.Annotating keys q := by
  obtain ⟨k, hk, hd, hkey, hno⟩ := h
  refine ⟨k, Nat.lt_of_lt_of_le hk hpq, hd, hkey, fun j h1 h2 => ?_⟩
  rcases Nat.lt_or_ge j p with hj | hj
  · exact hno j h1 hj
  · exact hc j hj h2

/-- Only a key leads into an annotation. -/
theorem Annotating.back (h : s.Annotating keys q) (hpq : p ≤ q)
    (hk : ∀ j, p ≤ j → j < q → (s.token j).channel = .default → keys.contains (s.token j).kind = false) :
    s.Annotating keys p := by
  obtain ⟨k, hkq, hd, hkey, hno⟩ := h
  rcases Nat.lt_or_ge k p with hkp | hkp
  · exact ⟨k, hkp, hd, hkey, fun j h1 h2 => hno j h1 (Nat.lt_of_lt_of_le h2 hpq)⟩
  · rw [hk k hkp hkq hd] at hkey
    cases hkey

/-- A comment ends an annotation. -/
theorem not_annotating_succ {j : Nat} (hj : (s.token j).channel = .comment) : ¬ s.Annotating keys (j + 1) := by
  rintro ⟨k, hk, hd, -, hno⟩
  rcases Nat.eq_or_lt_of_le (Nat.le_of_lt_succ hk) with rfl | hlt
  · rw [hd] at hj
    cases hj
  · exact hno j hlt (Nat.lt_succ_self j) hj

theorem Lane.not_lt {inside : Bool} (hp : s.Lane keys inside p) (hq : s.Lane keys inside q)
    (hs : s.settle p = s.settle q) : ¬ p < q := by
  intro hlt
  have hgap : ∀ j, p ≤ j → j < q → (s.token j).channel ≠ .default := fun j h1 h2 =>
    s.channel_ne_of_lt_settle h1 (hs ▸ Nat.lt_of_lt_of_le h2 (s.le_settle hq.1))
  have htoken : ¬ s.BehindToken q := by
    rintro (rfl | ⟨j, rfl, hj⟩)
    · exact absurd hlt (Nat.not_lt_zero p)
    · exact hgap j (Nat.le_of_lt_succ hlt) (Nat.lt_succ_self j) hj
  cases inside with
  | true => exact htoken hq.2.2
  | false =>
    -- the comment in front of the later place ended an annotation, so the earlier place is inside
    obtain ⟨j, rfl, hj, ha⟩ := hq.2.2.resolve_left htoken
    exact hp.2.1 (ha.back (Nat.le_of_lt_succ hlt) fun i h1 h2 hi =>
      absurd hi (hgap i h1 (Nat.lt_succ_of_lt h2)))

/-- Inside annotations and outside, a place is known by the token ahead. -/
theorem Lane.eq_of_settle {inside : Bool} (hp : s.Lane keys inside p) (hq : s.Lane keys inside q)
    (hs : s.settle p = s.settle q) : p = q :=
  Nat.le_antisymm (Nat.not_lt.1 (hq.not_lt hp hs.symm)) (Nat.not_lt.1 (hp.not_lt hq hs))

theorem Lane.unique {a b : Bool} (ha : s.Lane keys a p) (hb : s.Lane keys b p) : a = b := by
  cases a <;> cases b
  · rfl
  · exact absurd hb.2.1 ha.2.1
  · exact absurd ha.2.1 hb.2.1
  · rfl

theorem lane_zero : s.Lane keys false 0 :=
  ⟨Nat.zero_le _, fun ⟨_, hk, _⟩ => absurd hk (Nat.not_lt_zero _), .inl (.inl rfl)⟩

section

variable (he : s.atEnd p = false)
include he

theorem skip_of_not_atEnd : s.skip p = s.settle p + 1 := by
  rw [skip, s.next?_of_not_atEnd he]
  rfl

theorem behindToken_skip : s.BehindToken (s.skip p) :=
  .inr ⟨s.settle p, skip_of_not_atEnd he, s.channel_settle (s.settle_lt_of_not_atEnd he)⟩

theorem skip_le_size : s.skip p ≤ s.size := by
  rw [skip_of_not_atEnd he]
  exact s.settle_lt_of_not_atEnd he

/-- Behind a key there is an annotation. -/
theorem lane_skip_of_key (hk : keys.contains (s.kind p) = true) : s.Lane keys true (s.skip p) := by
  refine ⟨skip_le_size he, ?_, behindToken_skip he⟩
  rw [skip_of_not_atEnd he]
  exact annotating_succ (s.channel_settle (s.settle_lt_of_not_atEnd he)) hk

/-- What is not a key leads into no annotation. -/
theorem Lane.skip (h : s.Lane keys false p) (hk : keys.contains (s.kind p) = false) :
    s.Lane keys false (s.skip p) := by
  refine ⟨skip_le_size he, fun ha => ?_, .inl (behindToken_skip he)⟩
  have hle := s.le_settle h.1
  rw [skip_of_not_atEnd he] at ha
  refine h.2.1 (ha.back (Nat.le_succ_of_le hle) fun j h1 h2 hj => ?_)
  rcases Nat.eq_or_lt_of_le (Nat.le_of_lt_succ h2) with rfl | hlt
  · exact hk
  · exact absurd hj (s.channel_ne_of_lt_settle h1 hlt)

/-- A token with no comment in front leads out of no annotation. -/
theorem Lane.skip_inside (h : s.Lane keys true p) (hc : s.comment? p = none) : s.Lane keys true (s.skip p) := by
  refine ⟨skip_le_size he, h.2.1.on ?_ fun j h1 h2 => ?_, behindToken_skip he⟩
  · rw [skip_of_not_atEnd he]
    exact Nat.le_succ_of_le (s.le_settle h.1)
  · rw [skip_of_not_atEnd he] at h2
    rcases Nat.eq_or_lt_of_le (Nat.le_of_lt_succ h2) with rfl | hlt
    · rw [s.channel_settle (s.settle_lt_of_not_atEnd he)]
      exact fun hc => by cases hc
    · exact comment?_first h.1 h1 (by rw [hc]; exact hlt)

end

/-- The comment leads out of its annotation. -/
theorem Lane.remark (h : s.Lane keys true p) {i : Nat} (hi : s.comment? p = some i) :
    s.Lane keys false (i + 1) := by
  obtain ⟨hle, hlt, hc⟩ := s.comment?_some hi
  refine ⟨Nat.lt_of_lt_of_le hlt (s.settle_le_size p), not_annotating_succ hc, .inr ⟨i, rfl, hc, ?_⟩⟩
  exact h.2.1.on hle fun j h1 h2 => comment?_first h.1 h1 (by rw [hi]; exact h2)

end Stream

/-! ### Annotations in a grammar -/

section

variable (keys : KindSet) (inner : Rule → Bool)

/-- Whether the element takes no comment, leads into no annotation from outside and to nothing but `inner` rules
from inside, and says nothing of operators. -/
def Element.isQuiet (inside : Bool) : Element → Bool
  | .token k | .relation k _ =>
    k != .blockComment && k != .error && if inside then k != .eof else !keys.contains k
  | .oneOf ks => !ks.contains .error && (inside || !ks.intersects keys)
  | .rule r => !inside || inner r
  | .comment | .ruleAt _ _ => false
  | .optional _ | .repeated _ _ _ | .seq _ | .labeled _ _ _ => true

def Element.isKey : Element → Bool
  | .token k => keys.contains k
  | _ => false

def Element.isRemark : Element → Bool
  | .comment => true
  | .labeled _ _ e => e.isRemark
  | _ => false

/-- Whether the row goes on inside an annotation to its comment. -/
def remarks : List Element → Bool
  | [] => false
  | [e] => e.isRemark
  | e :: es => e.all (Element.isQuiet keys inner true) && remarks es

/-- Whether the row is an annotation. -/
def annotates : List Element → Bool
  | [] => false
  | e :: es => e.isKey keys && remarks keys inner es

/-- What an element does to where a trial stands, inside or outside of annotations. -/
inductive Element.Leads : Bool → Element → Bool → Bool → Prop
  | plain {c e} (h : e.all (Element.isQuiet keys inner c) = true) : Leads c e c c
  | key {e} (h : e.isKey keys = true) : Leads true e false true
  | remark {e} (h : e.isRemark = true) : Leads true e true false

end

namespace Grammar

variable (g : Grammar) (keys : KindSet) (inner : Rule → Bool)

/-- Whether rules that look for comments are annotations, all others are plain, and the `inner` ones are plain
inside annotations too. -/
def isAnnotated : Bool :=
  !keys.contains .eof && !keys.contains .blockComment && !keys.contains .error &&
  Rule.all.all fun r =>
    ((g.alternatives r).all fun a => a.leftRecursive ||
      if g.aware r then annotates keys inner a.elements
      else rowAll (Element.isQuiet keys inner false) a.elements &&
        (!inner r || rowAll (Element.isQuiet keys inner true) a.elements)) &&
    (!(g.aware r || inner r) || (g.table? r).isNone) && !(g.aware r && inner r) &&
    (g.table? r).all fun t => t.tiers.all fun tier => tier.operators.all fun o =>
      !keys.contains o.1 && o.1 != .eof && o.1 != .blockComment && o.1 != .error

structure Annotated (g : Grammar) (keys : KindSet) (inner : Rule → Bool) : Prop where
  key : ∀ k, keys.contains k = true → k ≠ .eof ∧ k ≠ .blockComment ∧ k ≠ .error
  rows : ∀ r, ∀ a ∈ g.alternatives r, a.leftRecursive = false →
    if g.aware r then annotates keys inner a.elements = true
    else rowAll (Element.isQuiet keys inner false) a.elements = true ∧
      (inner r = true → rowAll (Element.isQuiet keys inner true) a.elements = true)
  table : ∀ r, g.aware r = true ∨ inner r = true → g.table? r = none
  inner : ∀ r, inner r = true → g.aware r = false
  operators : ∀ r t k tier node, g.table? r = some t → t.lookup k = some (tier, node) →
    keys.contains k = false ∧ k ≠ .eof ∧ k ≠ .blockComment ∧ k ≠ .error

variable {g} {keys} {inner}

theorem annotated_of_isAnnotated (h : g.isAnnotated keys inner = true) : g.Annotated keys inner := by
  simp only [isAnnotated, Bool.and_eq_true, List.all_eq_true, Bool.or_eq_true, Bool.not_eq_true',
    Option.all_eq_true, bne_iff_ne] at h
  obtain ⟨⟨⟨heof, hcomment⟩, herror⟩, hrules⟩ := h
  refine ⟨fun k hk => ⟨?_, ?_, ?_⟩, fun r a ha hl => ?_, fun r hr => ?_, fun r hr => ?_,
    fun r t k tier node ht hk => ?_⟩
  · rintro rfl
    rw [heof] at hk
    cases hk
  · rintro rfl
    rw [hcomment] at hk
    cases hk
  · rintro rfl
    rw [herror] at hk
    cases hk
  · have := ((hrules r (Rule.mem_all r)).1.1.1 a ha).resolve_left (by simp [hl])
    split at this
    · rename_i haware
      rw [if_pos haware]
      exact this
    · rename_i haware
      rw [if_neg haware]
      simp only [Bool.and_eq_true, Bool.or_eq_true, Bool.not_eq_true'] at this
      exact ⟨this.1, fun hi => this.2.resolve_left (by simp [hi])⟩
  · have := (hrules r (Rule.mem_all r)).1.1.2
    rcases hr with hr | hr <;> simpa [hr] using this
  · have := (hrules r (Rule.mem_all r)).1.2
    simpa [hr] using this
  · obtain ⟨htier, ho⟩ := Table.mem_tiers_of_lookup hk
    obtain ⟨⟨⟨h1, h2⟩, h3⟩, h4⟩ := (hrules r (Rule.mem_all r)).2 t ht tier htier _ ho
    exact ⟨h1, h2, h3, h4⟩

end Grammar

namespace Recognizer

variable {z : Recognizer} {keys : KindSet} {inner : Rule → Bool} {c a b : Bool} {e : Element} {p q : Nat}

theorem of_behindToken? {k : Kind} (h : z.behindToken? c k p = some q) :
    k = .eof ∧ z.stream.atEnd p = true ∧ q = p ∨
      k ≠ .eof ∧ z.stream.lookahead p c = k ∧ q = z.stream.skip p := by
  unfold behindToken? at h
  split at h
  · rename_i hk
    split at h
    · rename_i he
      exact .inl ⟨hk, he, (Option.some.inj h).symm⟩
    · cases h
  · rename_i hk
    split at h
    · rename_i hl
      exact .inr ⟨hk, hl, (Option.some.inj h).symm⟩
    · cases h

theorem of_behind?_oneOf {ks : KindSet} (h : z.behind? c (.oneOf ks) p = some q) :
    z.stream.lookahead p c ≠ .eof ∧ z.stream.lookahead p c ≠ .blockComment ∧
      ks.contains (z.stream.lookahead p c) = true ∧ q = z.stream.skip p := by
  simp only [behind?] at h
  split at h
  · rename_i hl
    simp only [Bool.and_eq_true, bne_iff_ne] at hl
    exact ⟨hl.1.1, hl.1.2, hl.2, (Option.some.inj h).symm⟩
  · cases h

section

variable (heof : z.stream.eof.kind = .eof)
include heof

/-- A token that is no key leads neither into an annotation nor out of one. -/
theorem lane_skip (hp : z.stream.Lane keys c p) (hne : z.stream.lookahead p c ≠ .eof)
    (hnb : z.stream.lookahead p c ≠ .blockComment)
    (hk : c = false → keys.contains (z.stream.lookahead p c) = false) : z.stream.Lane keys c (z.stream.skip p) := by
  have he := Stream.not_atEnd_of_lookahead heof hne hnb
  cases c with
  | false => exact hp.skip he (Stream.lookahead_eq_kind hnb ▸ hk rfl)
  | true => exact hp.skip_inside he (Stream.comment?_of_lookahead rfl hnb)

theorem lane_of_plain (he : e.isSingle = true) (h : e.isQuiet keys inner c = true) (hp : z.stream.Lane keys c p)
    (hq : z.behind? c e p = some q) : z.stream.Lane keys c q := by
  have htoken : ∀ k, (k != .blockComment && k != .error && if c then k != .eof else !keys.contains k) = true →
      z.behindToken? c k p = some q → z.stream.Lane keys c q := fun k hk hq => by
    simp only [Bool.and_eq_true, bne_iff_ne] at hk
    rcases of_behindToken? hq with ⟨-, -, rfl⟩ | ⟨hne, rfl, rfl⟩
    · exact hp
    · refine lane_skip heof hp hne hk.1.1 fun hc => ?_
      subst hc
      simpa using hk.2
  cases e with
  | token k | relation k _ => exact htoken k h hq
  | oneOf ks =>
    obtain ⟨hne, hnb, hc, rfl⟩ := of_behind?_oneOf hq
    simp only [Element.isQuiet, Bool.and_eq_true, Bool.or_eq_true, Bool.not_eq_true'] at h
    refine lane_skip heof hp hne hnb fun hout => ?_
    exact KindSet.not_contains_of_not_intersects (h.2.resolve_left (by simp [hout])) hc
  | comment => cases h
  | rule | ruleAt | optional | repeated | seq | labeled => cases he

end

theorem all_of_isSingle {f : Element → Bool} (he : e.isSingle = true) (h : e.all f = true) : f e = true := by
  cases e <;> first | exact h | cases he

variable (heof : z.stream.eof.kind = .eof) (hg : z.grammar.Annotated keys inner)
include heof hg

/-- A token that matches leads where its element does. -/
theorem lane_of_single (he : e.isSingle = true) (h : e.Leads keys inner c a b) (hp : z.stream.Lane keys a p)
    (hq : z.behind? c e p = some q) : z.stream.Lane keys b q := by
  cases h with
  | plain h => exact lane_of_plain heof he (all_of_isSingle he h) hp hq
  | key h =>
    cases e with
    | token k =>
      obtain ⟨hne, hnb, -⟩ := hg.key k h
      obtain ⟨-, rfl, rfl⟩ := (of_behindToken? hq).resolve_left fun hk => hne hk.1
      refine Stream.lane_skip_of_key (Stream.not_atEnd_of_lookahead heof hne hnb) ?_
      rw [← Stream.lookahead_eq_kind hnb]
      exact h
    | _ => cases h
  | remark h =>
    cases e with
    | comment =>
      obtain ⟨i, hi, rfl⟩ := Option.map_eq_some_iff.1 hq
      exact hp.remark hi
    | labeled => cases he
    | _ => cases h

end Recognizer

namespace Element.Leads

variable {keys : KindSet} {inner : Rule → Bool} {c a b : Bool} {e : Element}

/-- What leads back to where it began sees comments inside annotations only. -/
theorem eq_of_same (h : e.Leads keys inner c a a) : c = a := by
  cases h
  rfl

theorem token {g : Grammar} (hg : g.Annotated keys inner) {k : Kind}
    (h : (Element.token k).Leads keys inner c a b) : k ≠ .blockComment ∧ k ≠ .error ∧ (k = .eof → c = false) := by
  cases h with
  | plain h =>
    simp only [Element.all, Element.isQuiet, Bool.and_eq_true, bne_iff_ne] at h
    refine ⟨h.1.1, h.1.2, fun hk => ?_⟩
    cases c with
    | false => rfl
    | true => simp [hk] at h
  | key h =>
    obtain ⟨hne, hnb, herror⟩ := hg.key k h
    exact ⟨hnb, herror, fun hk => absurd hk hne⟩
  | remark h => cases h

theorem relation {k : Kind} {r : Relation} (h : (Element.relation k r).Leads keys inner c a b) :
    k ≠ .blockComment ∧ k ≠ .error ∧ (k = .eof → c = false) := by
  cases h with
  | plain h =>
    simp only [Element.all, Element.isQuiet, Bool.and_eq_true, bne_iff_ne] at h
    refine ⟨h.1.1, h.1.2, fun hk => ?_⟩
    cases c with
    | false => rfl
    | true => simp [hk] at h
  | key h | remark h => cases h

theorem rule {r : Rule} (h : (Element.rule r).Leads keys inner c a b) : b = a ∧ c = a ∧ (a = true → inner r = true) := by
  cases h with
  | plain h =>
    simp only [Element.all, Element.isQuiet, Bool.or_eq_true, Bool.not_eq_true'] at h
    exact ⟨rfl, rfl, fun ha => h.resolve_left (by simp [ha])⟩
  | key h | remark h => cases h

theorem not_ruleAt {r : Rule} {level : Nat} : ¬ (Element.ruleAt r level).Leads keys inner c a b := by
  intro h
  cases h with
  | plain h | key h | remark h => cases h

theorem optional (h : (Element.optional e).Leads keys inner c a b) : b = a ∧ e.Leads keys inner c a a := by
  cases h with
  | plain h => exact ⟨rfl, .plain (Bool.and_eq_true_iff.1 h).2⟩
  | key h | remark h => cases h

theorem repeated {least : Nat} {resync : Bool} (h : (Element.repeated e least resync).Leads keys inner c a b) :
    b = a ∧ e.Leads keys inner c a a := by
  cases h with
  | plain h => exact ⟨rfl, .plain (Bool.and_eq_true_iff.1 h).2⟩
  | key h | remark h => cases h

theorem labeled {name : String} {many : Bool} (h : (Element.labeled name many e).Leads keys inner c a b) :
    e.Leads keys inner c a b := by
  cases h with
  | plain h => exact .plain (Bool.and_eq_true_iff.1 h).2
  | key h => cases h
  | remark h => exact .remark h

theorem row_of_all {es : List Element} (h : rowAll (Element.isQuiet keys inner c) es = true) :
    Recognizer.inRow (Element.Leads keys inner c) es c c := by
  induction es with
  | nil => rfl
  | cons e es ih =>
    obtain ⟨h1, h2⟩ := Bool.and_eq_true_iff.1 h
    exact ⟨c, .plain h1, ih h2⟩

theorem seq {es : List Element} (h : (Element.seq es).Leads keys inner c a b) :
    Recognizer.inRow (Element.Leads keys inner c) es a b := by
  cases h with
  | plain h => exact row_of_all (Bool.and_eq_true_iff.1 h).2
  | key h | remark h => cases h

theorem row_of_remarks {es : List Element} (h : remarks keys inner es = true) :
    Recognizer.inRow (Element.Leads keys inner true) es true false := by
  induction es with
  | nil => cases h
  | cons e es ih =>
    cases es with
    | nil => exact ⟨false, .remark h, rfl⟩
    | cons e' es =>
      obtain ⟨h1, h2⟩ := Bool.and_eq_true_iff.1 h
      exact ⟨true, .plain h1, ih h2⟩

/-- An annotation leads back to where it began. -/
theorem row_of_annotates {es : List Element} (h : annotates keys inner es = true) :
    Recognizer.inRow (Element.Leads keys inner true) es false false := by
  cases es with
  | nil => cases h
  | cons e es =>
    obtain ⟨h1, h2⟩ := Bool.and_eq_true_iff.1 h
    exact ⟨true, .key h1, row_of_remarks h2⟩

end Element.Leads

/-- The lanes inside annotations and outside. Inside, lookahead sees comments, and only inner rules are called. -/
def Recognizer.annotationLanes (z : Recognizer) {keys : KindSet} {inner : Rule → Bool}
    (heof : z.stream.eof.kind = .eof) (hg : z.grammar.Annotated keys inner) : z.Lanes Bool where
  lane := z.stream.Lane keys
  calls c r a := c = a ∧ (a = true → inner r = true)
  runs := Element.Leads keys inner
  apart ha hb hp hq hs := by
    obtain ⟨rfl, -⟩ := ha
    obtain ⟨rfl, -⟩ := hb
    exact hp.eq_of_settle hq hs
  single := lane_of_single heof hg
  rule := Element.Leads.rule
  ruleAt h := absurd h Element.Leads.not_ruleAt
  optional := Element.Leads.optional
  repeated := Element.Leads.repeated
  seq := Element.Leads.seq
  labeled := Element.Leads.labeled
  rows {c r a} hr alt halt hl := by
    obtain ⟨rfl, hi⟩ := hr
    have hrow := hg.rows r alt halt hl
    split at hrow
    · rename_i haware
      have hout : c = false := by
        cases c with
        | false => rfl
        | true => rw [hg.inner r (hi rfl)] at haware; cases haware
      subst hout
      rw [show (z.grammar.definition r).comments = true from haware]
      exact Element.Leads.row_of_annotates hrow
    · rename_i haware
      rw [Bool.not_eq_true] at haware
      rw [show (z.grammar.definition r).comments = false from haware, Bool.or_false]
      cases c with
      | false => exact Element.Leads.row_of_all hrow.1
      | true => exact Element.Leads.row_of_all (hrow.2 (hi rfl))
  operators {c r a table k tier node} hr ht hl := by
    obtain ⟨rfl, hi⟩ := hr
    obtain ⟨hk, hne, hnb, -⟩ := hg.operators r table k tier node ht hl
    have hout : c = false := by
      cases c with
      | false => rfl
      | true => rw [hg.table r (.inr (hi rfl))] at ht; cases ht
    have haware : (z.grammar.definition r).comments = false := by
      rcases haware : (z.grammar.definition r).comments with _ | _
      · rfl
      · rw [hg.table r (.inl haware)] at ht
        cases ht
    subst hout
    rw [haware]
    refine ⟨fun p hp hlook => ?_, fun _ => ⟨rfl, fun h => by cases h⟩⟩
    rw [← hlook] at hk hne hnb
    exact lane_skip heof hp hne hnb fun _ => hk

/-- The rules that annotations mention. -/
def innerRule (r : Rule) : Bool := seers.contains r && !kerml.aware r

theorem annotated_kerml : kerml.Annotated annotationKeys innerRule :=
  Grammar.annotated_of_isAnnotated (by decide +kernel)

end KermlText
