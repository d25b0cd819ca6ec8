import KermlText.Proofs.Comments
import KermlText.Proofs.Locations
import KermlText.Proofs.Truncation

/-! Hidden tokens. Nobody asks for them, so a parse gives the same tree without them. Only the mark for the
end knows of them: it stands behind the last token, whatever its channel. -/

namespace KermlText

/-- The tokens that somebody may see. -/
def visible (ts : List Token) : List Token := ts.filter (·.channel ≠ .hidden)

/-- The same error, moved to another token. -/
def SyntaxError.movedTo (e : SyntaxError) (t : Token) : SyntaxError :=
  { e with position := t.position, start := t.offset, stop := t.stop }

/-- The mark for the end of a token list, wherever it stands. -/
theorem Stream.eof_ofTokens (ts : List Token) :
    ∃ offset position, (ofTokens ts).eof = .make .eof "" offset position := by
  unfold ofTokens
  dsimp only
  split <;> exact ⟨_, _, rfl⟩

/-- Where it stands depends on the last token only. -/
theorem Stream.eof_ofTokens_congr {ts ts' : List Token} (h : ts'.getLast? = ts.getLast?) :
    (ofTokens ts').eof = (ofTokens ts).eof := by
  unfold ofTokens
  dsimp only
  rw [h]

/-- If the errors of two token lists differ, both are at the end, and differ in its place only. -/
theorem SyntaxError.Twins.moved {ts ts' : List Token} {e e' : SyntaxError}
    (h : e.Twins (Stream.ofTokens ts).eof (Stream.ofTokens ts').eof e') :
    e' = e ∨ e.At (Stream.ofTokens ts).eof ∧ e' = e.movedTo (Stream.ofTokens ts').eof := by
  refine h.imp_right ?_
  rintro ⟨code, rule, expected, rfl, rfl⟩
  refine ⟨at_make _ _ _ _, ?_⟩
  obtain ⟨offset, position, h⟩ := Stream.eof_ofTokens ts
  obtain ⟨offset', position', h'⟩ := Stream.eof_ofTokens ts'
  rw [h, h']
  rfl

theorem SyntaxError.Twins.eq {eof : Token} {e e' : SyntaxError} (h : e.Twins eof eof e') : e' = e := by
  rcases h with rfl | ⟨_, _, _, rfl, rfl⟩ <;> rfl

theorem getLast?_visible {ts : List Token} (h : ∀ t, ts.getLast? = some t → t.channel ≠ .hidden) :
    (visible ts).getLast? = ts.getLast? := by
  rcases List.eq_nil_or_concat ts with rfl | ⟨us, t, rfl⟩
  · rfl
  · have ht := h t (by simp)
    simp [visible, ht]

/-- Without hidden tokens a parse gives the same tree and the same errors. Only errors at the end may move,
and none of them does if the last token is not hidden. -/
theorem parseTokens_visible (r : Rule) (ts : List Token) {settings : Settings}
    (hcancel : settings.cancel = none) :
    ∃ p p', parseTokens r ts settings = (.ok p, p.errors) ∧
      parseTokens r (visible ts) settings = (.ok p', p'.errors) ∧
      p'.root = p.root ∧
      p.errors.Forall₂ (fun e e' => e' = e ∨
        e.At (Stream.ofTokens ts).eof ∧ e' = e.movedTo (Stream.ofTokens (visible ts)).eof) p'.errors ∧
      ((∀ t, ts.getLast? = some t → t.channel ≠ .hidden) → p'.errors = p.errors) := by
  have hkept : ∀ c : Channel, c ≠ .hidden → ∀ t ∈ ts, t.channel = c →
      decide (t.channel ≠ .hidden) = true := fun c hc t _ ht => by simpa [ht] using hc
  obtain ⟨p, p', hp, hp', hroot, herrors⟩ := parseTokens_filter (r := r) hcancel
    (hkept .default nofun) (.inl (hkept .comment nofun))
  refine ⟨p, p', parseTokens_sent hp, parseTokens_sent hp', hroot, herrors.imp fun _ _ h => h.moved,
    fun hlast => ?_⟩
  have heof := Stream.eof_ofTokens_congr (getLast?_visible hlast)
  rw [visible] at heof
  rw [heof] at herrors
  exact (List.forall₂_eq_eq_eq ▸ herrors.imp fun _ _ h => h.eq.symm : p.errors = p'.errors).symm

theorem checked_hidden :
    (parseTokens .rootNamespace (scan "class A \n") .standard).1.toOption.any (fun p =>
        p.errors.any fun e => e.found == .eof && e.start == 9) = true ∧
      (parseTokens .rootNamespace (visible (scan "class A \n")) .standard).1.toOption.any (fun p =>
        p.errors.any fun e => e.found == .eof && e.start == 7) = true := by
  decide +kernel

/-- What is missing at the end is missing two bytes earlier. -/
theorem parseTokens_visible_end :
    ∃ p p', parseTokens .rootNamespace (scan "class A \n") .standard = (.ok p, p.errors) ∧
      parseTokens .rootNamespace (visible (scan "class A \n")) .standard = (.ok p', p'.errors) ∧
      p'.root = p.root ∧
      p.errors.Forall₂ (fun e e' => e' = e ∨ e.At (Stream.ofTokens (scan "class A \n")).eof ∧
        e' = e.movedTo (Stream.ofTokens (visible (scan "class A \n"))).eof) p'.errors ∧
      (∃ e ∈ p.errors, e.found = .eof ∧ e.start = 9) ∧ ∃ e ∈ p'.errors, e.found = .eof ∧ e.start = 7 := by
  obtain ⟨p, p', hp, hp', hroot, herrors, -⟩ := parseTokens_visible .rootNamespace (scan "class A \n")
    (rfl : Settings.standard.cancel = none)
  have h := checked_hidden
  rw [hp, hp'] at h
  simp only [Except.toOption, Option.any_some, List.any_eq_true, Bool.and_eq_true, beq_iff_eq] at h
  exact ⟨p, p', hp, hp', hroot, herrors, h⟩

end KermlText
