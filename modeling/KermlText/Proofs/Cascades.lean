import KermlText.Proofs.Invariants

/-! One error after another. Behind a report nothing more is reported until a token is matched again, so
there is at most one error more than there are matched tokens. A missing token can still be reported
twice: what stands behind it may be taken for something else, and that may go wrong too. -/

namespace KermlText

namespace Event

/-- No token was matched since the last report. The latest event comes first. -/
def tense : List Event → Bool
  | [] | .matched _ :: _ => false
  | .reported :: _ => true
  | _ :: es => tense es

/-- Between any two reports a token was matched. -/
def spaced : List Event → Bool
  | [] => true
  | .reported :: es => !tense es && spaced es
  | _ :: es => spaced es

def isMatch : Event → Bool
  | .matched _ => true
  | _ => false

def isReport : Event → Bool
  | .reported => true
  | _ => false

theorem tense_cons {e : Event} (he : e.isReport = false) {es : List Event} (h : tense es = false) :
    tense (e :: es) = false := by
  cases e with
  | reported => cases he
  | _ => first | rfl | exact h

theorem spaced_cons {e : Event} (he : e.isReport = false) (es : List Event) :
    spaced (e :: es) = spaced es := by
  cases e with
  | reported => cases he
  | _ => rfl

/-- As many reports as matched tokens, and one more while nothing was matched behind the last one. -/
theorem countP_isReport_le {es : List Event} (h : spaced es = true) :
    es.countP isReport ≤ es.countP isMatch + (tense es).toNat := by
  induction es with
  | nil => exact Nat.le_refl 0
  | cons e es ih =>
    cases e with
    | reported =>
      obtain ⟨hcalm, hs⟩ := Bool.and_eq_true_iff.1 h
      have hle := ih hs
      rw [Bool.not_eq_true'] at hcalm
      rw [hcalm] at hle
      rw [List.countP_cons_of_pos rfl, List.countP_cons_of_neg Bool.false_ne_true]
      exact Nat.succ_le_succ hle
    | matched place =>
      have hle := ih h
      have := (tense es).toNat_le
      rw [List.countP_cons_of_neg Bool.false_ne_true, List.countP_cons_of_pos rfl]
      omega
    | _ =>
      rw [List.countP_cons_of_neg Bool.false_ne_true, List.countP_cons_of_neg Bool.false_ne_true]
      exact ih h

end Event

/-- Reports stand apart, each of them is an error, and the parser recovers while none is far enough
behind. -/
structure Session.Spaced (x : Session) : Prop where
  apart : Event.spaced x.journal = true
  calm : x.recovering = false → Event.tense x.journal = false
  errors : x.errors.length = x.journal.countP Event.isReport

namespace Session.Spaced

variable {x : Session}

theorem noted (h : x.Spaced) {e : Event} (he : e.isReport = false) : (x.noted e).Spaced where
  apart := (Event.spaced_cons he _).trans h.apart
  calm hr := Event.tense_cons he (h.calm hr)
  errors := by simp [Session.noted, he, h.errors]

theorem matchedAt (h : x.Spaced) (place : Nat) : (x.matchedAt place).Spaced where
  apart := h.apart
  calm _ := rfl
  errors := h.errors.trans (List.countP_cons_of_neg (by simp [Event.isReport])).symm

theorem skippedOver (h : x.Spaced) (context : KindSet) (places : List Nat) :
    (x.skippedOver context places).Spaced := by
  suffices hj : ∀ es : List Event, (∀ e ∈ es, e.isReport = false) →
      ∀ pos, Spaced { x with pos, journal := es ++ x.journal } by
    unfold Session.skippedOver
    split
    · exact h
    · refine hj _ (fun e he => ?_) _
      obtain ⟨i, -, rfl⟩ := List.mem_map.1 (List.mem_reverse.1 he)
      rfl
  intro es hes pos
  induction es with
  | nil => exact ⟨h.apart, h.calm, h.errors⟩
  | cons e es ih =>
    exact (ih fun e' he' => hes e' (List.mem_cons_of_mem _ he')).noted (hes e List.mem_cons_self)

theorem reported (h : x.Spaced) (u : Setup) (code : Code) (r : Rule) (expected : KindSet) :
    (u.reported code r expected x).Spaced := by
  unfold Setup.reported
  split
  · exact h.noted rfl
  · rename_i hr
    rw [Bool.not_eq_true] at hr
    split
    · exact h
    · refine ⟨?_, fun hr => (nomatch hr), ?_⟩
      · simp [Event.spaced, h.calm hr, h.apart]
      · rw [List.countP_cons_of_pos rfl, ← h.errors]
        exact List.length_append

end Session.Spaced

theorem Setup.keeps_spaced (u : Setup) : u.Keeps Session.Spaced where
  called h := h.noted rfl
  opened h := h.noted rfl
  asked h := h.noted rfl
  again _ h := h.noted rfl
  checked h := ⟨h.apart, h.calm, h.errors⟩
  decided _ h := ⟨h.apart, h.calm, h.errors⟩
  matched {_ place} _ _ h := h.matchedAt place
  operated {_ place} _ _ h := by
    have h' := h.noted (e := .matched place) rfl
    exact ⟨h'.apart, h'.calm, h'.errors⟩
  skipped context _ _ h := h.skippedOver context _
  reported code r expected h := h.reported u code r expected
  recovers h := ⟨h.apart, fun hr => (nomatch hr), h.errors⟩

theorem Setup.spaced_last {u : Setup} (hu : u.Regular) (r : Rule) : (u.last r).Spaced :=
  u.keeps_spaced.last hu ⟨rfl, fun _ => rfl, rfl⟩ r

theorem checked_cascade :
    (parseTokens .rootNamespace (scan "class A; disjoint B from C;") .standard).1.toOption.any (fun p =>
          p.ok && p.root.descendants.any fun n => n.rule == .classDecl &&
            n.tokens.getLast? == (scan "class A; disjoint B from C;")[3]?) = true ∧
      (parseTokens .rootNamespace ((scan "class A; disjoint B from C;").eraseIdx 3)
        .standard).1.toOption.any (·.errors.length == 2) = true := by
  decide +kernel

end KermlText
