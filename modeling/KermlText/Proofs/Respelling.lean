import KermlText.Proofs.Forms
import KermlText.Rules.Phrases

/-! Respellings. Two texts differ in the spelling of one relation, and what stands in front of it and behind
it has the same kinds and the same words. So each place in the one text has its place in the other, except
for the places inside the spelling. -/

namespace KermlText

/-- What a token is to someone who does not ask where it stands. -/
def Token.face (t : Token) : Kind × String := (t.kind, t.text)

/-- The tokens are one of the spellings of the relation. -/
def Relation.Spells (r : Relation) (ts : List Token) : Prop :=
  ∃ s ∈ r.spellings, kinds ts = s.1 :: s.2

theorem Relation.Spells.ne_nil {r : Relation} {ts : List Token} (h : r.Spells ts) : ts ≠ [] := by
  rintro rfl
  obtain ⟨s, -, h⟩ := h
  cases h

structure Respelling where
  relation : Relation
  /-- What stands in front of the spelling, in the one text and in the other. -/
  front : List (Token × Token)
  old : List Token
  new : List Token
  back : List (Token × Token)
  same : ∀ z ∈ front ++ back, z.2.face = z.1.face
  spelled : relation.Spells old
  respelled : relation.Spells new

namespace Respelling

variable (ρ : Respelling)

def source : List Token := ρ.front.map Prod.fst ++ (ρ.old ++ ρ.back.map Prod.fst)

def target : List Token := ρ.front.map Prod.snd ++ (ρ.new ++ ρ.back.map Prod.snd)

/-- The place in front of the spelling. -/
def mark : List Token := ρ.old ++ ρ.back.map Prod.fst

/-- What is left of the one text, and what is left of the other at the same place. A place inside the old
spelling has none in the other text; there the old spelling is kept. -/
inductive Place : List Token → List Token → Prop
  | back {zs} (h : zs <:+ ρ.back) : Place (zs.map Prod.fst) (zs.map Prod.snd)
  | inside {ts} (h : ts <:+ ρ.old) (hn : ts ≠ ρ.old) :
      Place (ts ++ ρ.back.map Prod.fst) (ts ++ ρ.back.map Prod.snd)
  | front {zs} (h : zs <:+ ρ.front) :
      Place (zs.map Prod.fst ++ ρ.mark) (zs.map Prod.snd ++ (ρ.new ++ ρ.back.map Prod.snd))

end Respelling

/-! ### Ends of a text -/

theorem exists_cons_suffix {α : Type} {xs ys : List α} (h : xs <:+ ys) (hn : xs ≠ ys) :
    ∃ a, a :: xs <:+ ys := by
  obtain ⟨zs, rfl⟩ := h
  rcases List.eq_nil_or_concat zs with rfl | ⟨zs, a, rfl⟩
  · exact absurd rfl hn
  · exact ⟨a, zs, by simp⟩

theorem eq_of_cons_suffix {α : Type} {a b : α} {xs ys : List α} (h : a :: xs <:+ ys) (h' : b :: xs <:+ ys) :
    a = b := by
  have hs := List.suffix_of_suffix_length_le h h' (Nat.le_refl _)
  exact (List.cons.inj (hs.eq_of_length rfl)).1

namespace Respelling

variable {ρ : Respelling} {w w' v v' : List Token} {t : Token}

theorem mark_suffix : ρ.mark <:+ ρ.source := List.suffix_append _ _

theorem back_suffix : ρ.back.map Prod.fst <:+ ρ.source := (List.suffix_append _ _).trans mark_suffix

theorem face_of_mem {z : Token × Token} (hz : z ∈ ρ.front ∨ z ∈ ρ.back) : z.2.face = z.1.face :=
  ρ.same z (List.mem_append.2 hz)

theorem length_mark : ρ.back.length < ρ.mark.length := by
  have h := List.length_pos_iff.2 ρ.spelled.ne_nil
  simp only [mark, List.length_append, List.length_map]
  omega

namespace Place

/-- A place one token further to the front, unless that is the place of the spelling. -/
theorem step (h : ρ.Place v v') (hw : t :: v <:+ ρ.source) :
    t :: v = ρ.mark ∨ ∃ t', t'.face = t.face ∧ ρ.Place (t :: v) (t' :: v') := by
  have hinside : ∀ ts, ts <:+ ρ.old → ts ≠ ρ.old → t :: (ts ++ ρ.back.map Prod.fst) <:+ ρ.source →
      t :: (ts ++ ρ.back.map Prod.fst) = ρ.mark ∨
        ρ.Place (t :: (ts ++ ρ.back.map Prod.fst)) (t :: (ts ++ ρ.back.map Prod.snd)) := by
    intro ts hts hne hw
    obtain ⟨o, ho⟩ := exists_cons_suffix hts hne
    have hmark : o :: (ts ++ ρ.back.map Prod.fst) <:+ ρ.mark := by
      obtain ⟨us, hus⟩ := ho
      exact ⟨us, by simp [mark, ← hus]⟩
    obtain rfl := eq_of_cons_suffix hw (hmark.trans mark_suffix)
    by_cases hold : t :: ts = ρ.old
    · exact .inl (by rw [mark, ← hold, List.cons_append])
    · exact .inr (.inside ho hold)
  cases h with
  | @back zs h =>
    by_cases hz : zs = ρ.back
    · subst hz
      have hne : [] ≠ ρ.old := ρ.spelled.ne_nil.symm
      exact (hinside [] List.nil_suffix hne hw).imp_right fun h => ⟨t, rfl, h⟩
    · obtain ⟨z, hz⟩ := exists_cons_suffix h hz
      obtain rfl := eq_of_cons_suffix hw ((hz.map Prod.fst).trans back_suffix)
      exact .inr ⟨z.2, face_of_mem (.inr (hz.subset (List.mem_cons_self ..))), .back hz⟩
  | inside h hn => exact (hinside _ h hn hw).imp_right fun h => ⟨t, rfl, h⟩
  | @front zs h =>
    by_cases hz : zs = ρ.front
    · subst hz
      have := hw.length_le
      simp only [List.length_cons, source, mark] at this
      omega
    · obtain ⟨z, hz⟩ := exists_cons_suffix h hz
      have hzs : z.1 :: (zs.map Prod.fst ++ ρ.mark) <:+ ρ.source := by
        obtain ⟨us, hus⟩ := hz
        exact ⟨us.map Prod.fst, by simp [source, mark, ← hus]⟩
      obtain rfl := eq_of_cons_suffix hw hzs
      exact .inr ⟨z.2, face_of_mem (.inl (hz.subset (List.mem_cons_self ..))), .front hz⟩

/-- The same kind stands next, except where the spelling is. -/
theorem nextKind (h : ρ.Place w w') : w = ρ.mark ∨ KermlText.nextKind (kinds w') = KermlText.nextKind (kinds w) := by
  have hface : ∀ {zs : List (Token × Token)} (us us' : List Token), (∀ z ∈ zs, z.2.face = z.1.face) → zs ≠ [] →
      KermlText.nextKind (kinds (zs.map Prod.snd ++ us')) = KermlText.nextKind (kinds (zs.map Prod.fst ++ us)) := by
    intro zs us us' hz hne
    cases zs with
    | nil => exact absurd rfl hne
    | cons z zs => exact congrArg Prod.fst (hz z (List.mem_cons_self ..))
  cases h with
  | @back zs h =>
    rcases zs with _ | ⟨z, zs⟩
    · exact .inr rfl
    · exact .inr (by simpa using hface [] [] (fun z hz => face_of_mem (.inr (h.subset hz))) (by simp))
  | @inside ts h hn =>
    rcases ts with _ | ⟨t, ts⟩
    · rcases hb : ρ.back with _ | ⟨z, zs⟩
      · exact .inr rfl
      · refine .inr ?_
        exact congrArg Prod.fst (face_of_mem (ρ := ρ) (.inr (hb ▸ List.mem_cons_self ..)))
    · exact .inr rfl
  | @front zs h =>
    rcases zs with _ | ⟨z, zs⟩
    · exact .inl rfl
    · exact .inr (hface _ _ (fun z hz => face_of_mem (.inl (h.subset hz))) (by simp))

theorem of_mark (h : ρ.Place ρ.mark w') : w' = ρ.new ++ ρ.back.map Prod.snd := by
  have hlen := ρ.length_mark
  generalize hw : ρ.mark = w at h
  cases h with
  | back h =>
    have := h.length_le
    have := congrArg List.length hw
    simp at this
    omega
  | inside h hn =>
    exact absurd (List.append_cancel_right hw).symm hn
  | @front zs h =>
    have := congrArg List.length hw
    simp only [List.length_append, List.length_map] at this
    obtain rfl := List.length_eq_zero_iff.1 (show zs.length = 0 by omega)
    rfl

/-- Behind the old spelling stands what stands behind the new one. -/
theorem of_back (h : ρ.Place (ρ.back.map Prod.fst) w') : w' = ρ.back.map Prod.snd := by
  have hlen := ρ.length_mark
  generalize hw : ρ.back.map Prod.fst = w at h
  cases h with
  | @back zs h =>
    have := congrArg List.length hw
    simp only [List.length_map] at this
    rw [h.eq_of_length this.symm]
  | @inside ts h hn =>
    obtain rfl : ts = [] := by simpa using hw
    rfl
  | front h =>
    have := congrArg List.length hw
    simp only [List.length_map, List.length_append] at this
    omega

theorem of_nil (h : ρ.Place [] w') : w' = [] := by
  have hlen := ρ.length_mark
  generalize hw : ([] : List Token) = w at h
  cases h with
  | back h =>
    obtain rfl := List.map_eq_nil_iff.1 hw.symm
    rfl
  | inside h hn =>
    obtain ⟨rfl, hb⟩ := List.append_eq_nil_iff.1 hw.symm
    rw [List.map_eq_nil_iff.1 hb]
    rfl
  | front h =>
    rw [(List.append_eq_nil_iff.1 hw.symm).2] at hlen
    cases hlen

theorem of_source (h : ρ.Place ρ.source w') : w' = ρ.target := by
  have hlen := ρ.length_mark
  generalize hw : ρ.source = w at h
  have hlength := congrArg List.length hw
  cases h with
  | back h =>
    have := h.length_le
    simp only [source, mark, List.length_append, List.length_map] at hlength hlen
    omega
  | inside h hn =>
    have hs := h.length_le
    have hne : ¬ _ = ρ.old.length := fun he => hn (h.eq_of_length he)
    simp only [source, List.length_append, List.length_map] at hlength
    omega
  | @front zs h =>
    simp only [source, mark, List.length_append, List.length_map] at hlength
    rw [h.eq_of_length (by omega)]
    rfl

end Place

end Respelling

end KermlText
