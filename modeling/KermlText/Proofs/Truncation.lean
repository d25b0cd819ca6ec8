import KermlText.Proofs.Cancellation
import KermlText.Proofs.Cascades
import KermlText.Proofs.Mirrors

/-! A bound on the number of errors. Up to the bound a parse does what it does without one. From then on the
two parses no longer agree on whether they recover, but only a report asks for that, and behind the bound
nothing is reported. So the tree is the same, and the errors are the first ones. -/

namespace KermlText

/-- The errors of a parse are those that it has sent. -/
theorem parseTokens_sent {r : Rule} {ts : List Token} {settings : Settings} {p : Parse}
    (h : (parseTokens r ts settings).1 = .ok p) : parseTokens r ts settings = (.ok p, p.errors) := by
  have hsent := (Setup.keeps_sent (Setup.ofTokens ts settings)).last (regular_ofTokens ts settings) rfl r
  rw [← sent_parseTokens] at hsent
  exact Prod.ext h (hsent.trans (rooted_last h).2.symm)

namespace Resolver

/-- The question whether to enter an element fails only if a trial does not end. -/
theorem enter_error {g : Grammar} {s : Stream} {z : Resolver} {pos : Nat} {e : Element} {follow : KindSet}
    {c : Bool} {f : Failure} (h : (z.enter g s pos e follow c).1 = .error f) : f = .endless := by
  unfold enter at h
  dsimp only at h
  split at h
  · cases h
  · split at h
    · cases h
    · split at h <;> cases h
      rfl

end Resolver

/-- The same settings, with no bound on the errors. -/
def Settings.unlimited (s : Settings) : Settings := { s with maxErrors := none }

/-- The parse of `v` is the one of `u` with at most `k` errors. -/
structure Setup.Truncates (u v : Setup) (k : Nat) : Prop where
  grammar : v.grammar = u.grammar
  stream : v.stream = u.stream
  depth : v.settings.maxDepth = u.settings.maxDepth
  cancel : u.settings.cancel = none
  cancel' : v.settings.cancel = none
  unlimited : u.settings.maxErrors = none
  limit : v.settings.maxErrors = some k

/-- The sessions stand at the same place and know the same. The second one has the first `k` errors, and
while there are fewer of them both recover or neither does. -/
structure Session.Truncates (u : Setup) (k : Nat) (x y : Session) : Prop where
  fit : u.Fit x
  pos : y.pos = x.pos
  resolver : y.resolver = x.resolver
  errors : y.errors = x.errors.take k
  recovering : x.errors.length < k → y.recovering = x.recovering

namespace Setup

open Session

variable {u v : Setup} {k : Nat}

namespace Truncates

variable (h : u.Truncates v k) {x y : Session} (hs : x.Truncates u k y)
include h hs

/-- Behind the bound nothing is reported. -/
theorem reported_of_full (hk : k ≤ x.errors.length) (code : Code) (r : Rule) (expected : KindSet) :
    (v.reported code r expected y).errors = y.errors := by
  have hlen : y.errors.length = k := by rw [hs.errors, List.length_take, Nat.min_eq_left hk]
  unfold reported
  split
  · rfl
  · rw [if_pos (by simp [h.limit, hlen])]

theorem reported (code : Code) (r : Rule) (expected : KindSet) :
    (u.reported code r expected x).Truncates u k (v.reported code r expected y) := by
  have hfit := ((Advances.refl hs.fit).reported code r expected).fit
  by_cases hk : x.errors.length < k
  · -- both have the same errors, so both report this one or neither does
    have hsame : y.errors = x.errors := by rw [hs.errors, List.take_of_length_le (Nat.le_of_lt hk)]
    have hnot : ¬ k ≤ y.errors.length := by rw [hsame]; omega
    revert hfit
    unfold Setup.reported
    rw [hs.recovering hk, h.unlimited, h.limit, h.stream, hs.pos, hsame]
    split
    · exact fun hfit => ⟨hfit, hs.pos, hs.resolver, hs.errors, hs.recovering⟩
    · rw [if_neg (by simp), if_neg (by simpa [hsame] using hnot)]
      refine fun hfit => ⟨hfit, rfl, hs.resolver, (List.take_of_length_le ?_).symm, fun _ => rfl⟩
      rw [List.length_append]
      exact hk
  · have hk : k ≤ x.errors.length := by omega
    have hgrows := u.errors_prefix_reported code r expected x
    have hle := hgrows.length_le
    refine ⟨hfit, by simpa using hs.pos, by simpa using hs.resolver, ?_, fun hlt => by omega⟩
    obtain ⟨es, he⟩ := hgrows
    rw [reported_of_full h hs hk, hs.errors, ← he, List.take_append_of_le_length hk]

omit h in
theorem skippedOver (context sync : KindSet) (n : Nat) :
    (x.skippedOver context (u.stream.placesUpTo sync n x.pos)).Truncates u k
      (y.skippedOver context (u.stream.placesUpTo sync n x.pos)) := by
  have hfit := ((Advances.refl hs.fit).skippedOver context sync n).fit
  refine ⟨hfit, ?_, by simpa using hs.resolver, by simpa using hs.errors, by simpa using hs.recovering⟩
  unfold Session.skippedOver
  split
  · exact hs.pos
  · rfl

end Truncates

/-- A parse with a bound on its errors stays in step with the one without. -/
theorem Truncates.mirrors (h : u.Truncates v k) (hu : u.Regular) :
    u.Mirrors v (Session.Truncates u k) True where
  grammar := h.grammar
  depth := h.depth
  cancel := h.cancel
  cancel' := h.cancel'
  operators _ _ _ _ _ _ := .inl trivial
  noted e e' hs := ⟨((Advances.refl hs.fit).noted e).fit, hs.pos, hs.resolver, hs.errors, hs.recovering⟩
  checked hs := ⟨(Advances.refl hs.fit).checked.fit, hs.pos, hs.resolver, hs.errors, hs.recovering⟩
  recovers hs := ⟨⟨hs.fit.inside, hs.fit.valid⟩, hs.pos, hs.resolver, hs.errors, fun _ => rfl⟩
  place hs hs' := by rw [hs.pos, hs'.pos]
  kind hs := by rw [h.stream, hs.pos]
  lookahead _ hs := by rw [h.stream, hs.pos]
  atEnd hs := by rw [h.stream, hs.pos]
  current hs _ := by rw [h.stream, hs.pos]
  matched hs he := by
    rw [h.stream, hs.pos]
    exact ⟨((Advances.refl hs.fit).matchedAt he).fit, rfl, hs.resolver, hs.errors, fun _ => rfl⟩
  operated hs he := by
    rw [h.stream, hs.pos]
    exact ⟨((Advances.refl hs.fit).operatedAt he).fit, rfl, hs.resolver, hs.errors, hs.recovering⟩
  noComment _ hs hn := by rwa [h.stream, hs.pos]
  comment {x y i} _ hs hi := by
    rw [h.stream, hs.pos]
    have hfit := ((Advances.refl hs.fit).kept (.comment hi) rfl rfl nofun : u.Advances x (x.matchedAt i)).fit
    exact ⟨i, hi, rfl, hfit, rfl, hs.resolver, hs.errors, fun _ => rfl⟩
  reported code r expected hs := h.reported hs code r expected
  strays sync hs := by
    unfold passed Setup.strays
    rw [h.stream, hs.pos]
  skipped context sync hs := by
    rw [passed, passed, h.stream, hs.pos]
    exact Truncates.skippedOver hs context sync _
  stray hs := by
    unfold Setup.strays
    rw [h.stream, hs.pos]
  skippedOne context hs := by
    rw [h.stream, hs.pos]
    exact Truncates.skippedOver hs context ∅ 1
  decided {x y r c} follow _ _ hs := by
    obtain ⟨hd, hvalid⟩ := Resolver.decide_answers hu.eof hu.founded hs.fit.valid hs.fit.inside r follow c
    dsimp only
    rw [h.stream, hs.pos, hs.resolver]
    refine ⟨?_, ⟨⟨hs.fit.inside, hvalid⟩, hs.pos, rfl, hs.errors, hs.recovering⟩, fun _ _ => .inl trivial⟩
    generalize (x.resolver.decide u.grammar u.stream x.pos r (u.grammar.choices r) follow c).1 = d at hd
    rcases d with f | i
    · obtain ⟨q, p, offset, expected, k, rfl⟩ := hd
      exact .none
    · exact .ok i
  entered {x y e c} follow _ _ hs := by
    have hvalid : (x.resolver.enter u.grammar u.stream x.pos e follow c).2.Valid u.grammar :=
      Resolver.enter_valid hs.fit.valid x.pos e follow c
    dsimp only
    rw [h.stream, hs.pos, hs.resolver]
    rcases hd : (x.resolver.enter u.grammar u.stream x.pos e follow c).1 with f | b
    · exact .inl (congrArg Except.error (Resolver.enter_error hd))
    · exact .inr (.inr ⟨b, rfl, rfl, ⟨hs.fit.inside, hvalid⟩, hs.pos, rfl, hs.errors, hs.recovering⟩)

end Setup

/-- A parse with a bound on its errors gives the tree that it gives without one. Its errors, and those it
sends, are the first ones. -/
theorem parseTokens_truncated (r : Rule) (ts : List Token) {settings : Settings}
    (hcancel : settings.cancel = none) (k : Nat) :
    ∃ n es, parseTokens r ts settings.unlimited = (.ok ⟨n, es⟩, es) ∧
      parseTokens r ts (settings.withMaxErrors k) = (.ok ⟨n, es.take k⟩, es.take k) := by
  have hu := regular_ofTokens ts settings.unlimited
  have hv := regular_ofTokens ts (settings.withMaxErrors k)
  have htruncates : (Setup.ofTokens ts settings.unlimited).Truncates
      (Setup.ofTokens ts (settings.withMaxErrors k)) k :=
    ⟨rfl, rfl, rfl, hcancel, hcancel, rfl, rfl⟩
  have hmeet := (htruncates.mirrors hu).root hu hv (r := r)
    (x := .start settings.unlimited) (y := .start (settings.withMaxErrors k))
    ⟨Setup.fit_start _, rfl, rfl, List.take_nil.symm, fun _ => rfl⟩ (.inl trivial)
  obtain ⟨n, x, y, hs, h, h'⟩ := parseTokens_meet (show settings.unlimited.cancel = none from hcancel)
    (show (settings.withMaxErrors k).cancel = none from hcancel) hmeet
  have hsent := parseTokens_sent (congrArg Prod.fst h)
  have hsent' := parseTokens_sent (congrArg Prod.fst h')
  dsimp only at hsent hsent'
  rw [hs.errors] at hsent'
  exact ⟨n, x.errors, hsent, hsent'⟩

/-- Of the two errors behind a missing semicolon the first one is left. -/
theorem parseTokens_truncated_cascade :
    ∃ n es, parseTokens .rootNamespace ((scan "class A; disjoint B from C;").eraseIdx 3)
        Settings.standard.unlimited = (.ok ⟨n, es⟩, es) ∧ es.length = 2 ∧
      parseTokens .rootNamespace ((scan "class A; disjoint B from C;").eraseIdx 3)
        (Settings.standard.withMaxErrors 1) = (.ok ⟨n, es.take 1⟩, es.take 1) := by
  obtain ⟨n, es, h, h'⟩ := parseTokens_truncated .rootNamespace
    ((scan "class A; disjoint B from C;").eraseIdx 3) (rfl : Settings.standard.cancel = none) 1
  have hlen := checked_cascade.2
  have h0 : parseTokens .rootNamespace ((scan "class A; disjoint B from C;").eraseIdx 3)
    Settings.standard = (.ok ⟨n, es⟩, es) := h
  rw [h0] at hlen
  exact ⟨n, es, h, by simpa [Except.toOption] using hlen, h'⟩

end KermlText
