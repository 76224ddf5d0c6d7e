import TemporalMonitor.Formula

/-! The meaning of a formula on an infinite word of events. Until and release unfold over one event and
are dual to each other. The normal form keeps the meaning and moves negations only: a formula in normal
form is its own normal form, and the propositions, the triggers and the steps on which they can fire
are those of the formula as written, under a negation as well. -/

namespace TemporalMonitor

abbrev Word := Nat → Event

/-- Whether a formula is true of a word from position `i` on. -/
def Formula.HoldsAt (G : Guards) (w : Word) : Formula → Nat → Prop
  | .prop p, i => p.holds G (w i) = true
  | .not a, i => ¬ a.HoldsAt G w i
  | .next a, i => a.HoldsAt G w (i + 1)
  | .and a b, i => a.HoldsAt G w i ∧ b.HoldsAt G w i
  | .or a b, i => a.HoldsAt G w i ∨ b.HoldsAt G w i
  | .until a b, i => ∃ j, i ≤ j ∧ b.HoldsAt G w j ∧ ∀ k, i ≤ k → k < j → a.HoldsAt G w k
  | .release a b, i => ∀ j, i ≤ j → b.HoldsAt G w j ∨ ∃ k, i ≤ k ∧ k < j ∧ a.HoldsAt G w k

theorem exists_until_iff {P Q : Nat → Prop} {i : Nat} :
    (∃ j, i ≤ j ∧ Q j ∧ ∀ k, i ≤ k → k < j → P k) ↔
      Q i ∨ P i ∧ ∃ j, i + 1 ≤ j ∧ Q j ∧ ∀ k, i + 1 ≤ k → k < j → P k := by
  constructor
  · intro hh
    obtain ⟨j, hj, hb, ha⟩ := hh
    by_cases he : j = i
    · exact .inl (he ▸ hb)
    · have hlt : i < j := Nat.lt_of_le_of_ne hj (Ne.symm he)
      refine .inr ⟨ha i (Nat.le_refl i) hlt, j, hlt, hb, ?_⟩
      intro k hk hkj
      exact ha k (by omega) hkj
  · intro hh
    rcases hh with hb | ⟨ha, j, hj, hb, hk⟩
    · exact ⟨i, Nat.le_refl i, hb, fun k h1 h2 => absurd h1 (by omega)⟩
    · refine ⟨j, by omega, hb, ?_⟩
      intro k h1 h2
      by_cases he : k = i
      · exact he ▸ ha
      · exact hk k (by omega) h2

theorem Formula.holdsAt_until_iff {G : Guards} {w : Word} {a b : Formula} {i : Nat} :
    (Formula.until a b).HoldsAt G w i ↔
      b.HoldsAt G w i ∨ a.HoldsAt G w i ∧ (Formula.until a b).HoldsAt G w (i + 1) :=
  exists_until_iff (P := a.HoldsAt G w) (Q := b.HoldsAt G w)

theorem Formula.holdsAt_release_iff {G : Guards} {w : Word} {a b : Formula} {i : Nat} :
    (Formula.release a b).HoldsAt G w i ↔
      b.HoldsAt G w i ∧ (a.HoldsAt G w i ∨ (Formula.release a b).HoldsAt G w (i + 1)) := by
  constructor
  · intro h
    have hb : b.HoldsAt G w i := by
      rcases h i (Nat.le_refl i) with hb | ⟨k, h1, h2, _⟩
      · exact hb
      · omega
    refine ⟨hb, ?_⟩
    by_cases ha : a.HoldsAt G w i
    · exact .inl ha
    · right
      intro j hj
      rcases h j (by omega) with hb | ⟨k, h1, h2, hk⟩
      · exact .inl hb
      · have he : k ≠ i := fun he => ha (he ▸ hk)
        exact .inr ⟨k, by omega, h2, hk⟩
  · intro hh j hj
    obtain ⟨hb, h⟩ := hh
    by_cases he : j = i
    · exact .inl (he ▸ hb)
    · rcases h with ha | hr
      · exact .inr ⟨i, Nat.le_refl i, by omega, ha⟩
      · rcases hr j (by omega) with hb | ⟨k, h1, h2, hk⟩
        · exact .inl hb
        · exact .inr ⟨k, by omega, h2, hk⟩

theorem Formula.not_holdsAt_until {G : Guards} {w : Word} {a b : Formula} {i : Nat} :
    ¬ (Formula.until a b).HoldsAt G w i ↔ (Formula.release (.not a) (.not b)).HoldsAt G w i := by
  simp only [HoldsAt]
  constructor
  · intro h j hj
    by_cases hb : b.HoldsAt G w j
    · by_cases hk : ∃ k, i ≤ k ∧ k < j ∧ ¬ a.HoldsAt G w k
      · exact .inr hk
      · refine absurd ⟨j, hj, hb, ?_⟩ h
        intro k h1 h2
        exact Classical.byContradiction fun ha => hk ⟨k, h1, h2, ha⟩
    · exact .inl hb
  · intro h hh
    obtain ⟨j, hj, hb, ha⟩ := hh
    rcases h j hj with hn | ⟨k, h1, h2, hn⟩
    · exact hn hb
    · exact hn (ha k h1 h2)

theorem Formula.not_holdsAt_release {G : Guards} {w : Word} {a b : Formula} {i : Nat} :
    ¬ (Formula.release a b).HoldsAt G w i ↔ (Formula.until (.not a) (.not b)).HoldsAt G w i := by
  simp only [HoldsAt]
  constructor
  · intro h
    obtain ⟨j, hj⟩ := Classical.not_forall.1 h
    obtain ⟨hij, hn⟩ := Classical.not_imp.1 hj
    obtain ⟨hb, hk⟩ := not_or.1 hn
    exact ⟨j, hij, hb, fun k h1 h2 ha => hk ⟨k, h1, h2, ha⟩⟩
  · intro hh h
    obtain ⟨j, hj, hb, ha⟩ := hh
    rcases h j hj with hn | ⟨k, h1, h2, hn⟩
    · exact hb hn
    · exact ha k h1 h2 hn

/-- Both polarities at once: the two normal forms call each other at a negation. -/
theorem Formula.holdsAt_nnf_negNnf (G : Guards) (w : Word) (f : Formula) (i : Nat) :
    (f.nnf.HoldsAt G w i ↔ f.HoldsAt G w i) ∧ (f.negNnf.HoldsAt G w i ↔ ¬ f.HoldsAt G w i) := by
  induction f generalizing i with
  | prop p => simp [nnf, negNnf, HoldsAt]
  | not a ih =>
    simp only [nnf, negNnf, HoldsAt, (ih i).1, (ih i).2, true_and]
    exact Classical.not_not.symm
  | next a ih => simp [nnf, negNnf, HoldsAt, ih (i + 1)]
  | and a b iha ihb =>
    simp only [nnf, negNnf, HoldsAt, iha i, ihb i, true_and]
    exact Classical.not_and_iff_not_or_not.symm
  | or a b iha ihb => simp [nnf, negNnf, HoldsAt, iha i, ihb i]
  | «until» a b iha ihb =>
    rw [not_holdsAt_until]
    simp only [nnf, negNnf, HoldsAt, iha, ihb, and_self]
  | release a b iha ihb =>
    rw [not_holdsAt_release]
    simp only [nnf, negNnf, HoldsAt, iha, ihb, and_self]

theorem Formula.holdsAt_nnf {G : Guards} {w : Word} {f : Formula} {i : Nat} :
    f.nnf.HoldsAt G w i ↔ f.HoldsAt G w i :=
  (holdsAt_nnf_negNnf G w f i).1

theorem Formula.isNnf_nnf_negNnf (f : Formula) : f.nnf.isNnf = true ∧ f.negNnf.isNnf = true := by
  induction f with
  | prop p => simp [nnf, negNnf, isNnf, isProp]
  | not a ih => simp [nnf, negNnf, ih]
  | next a ih => simp [nnf, negNnf, isNnf, ih]
  | and a b iha ihb | or a b iha ihb | «until» a b iha ihb | release a b iha ihb =>
    simp [nnf, negNnf, isNnf, iha, ihb]

theorem Formula.isNnf_nnf (f : Formula) : f.nnf.isNnf = true :=
  f.isNnf_nnf_negNnf.1

theorem Formula.propositions_nnf_negNnf (f : Formula) :
    f.nnf.propositions = f.propositions ∧ f.negNnf.propositions = f.propositions := by
  induction f with
  | prop p => simp [nnf, negNnf, propositions]
  | not a ih => simp [nnf, negNnf, propositions, ih]
  | next a ih => simp [nnf, negNnf, propositions, ih]
  | and a b iha ihb | or a b iha ihb | «until» a b iha ihb | release a b iha ihb =>
    simp [nnf, negNnf, propositions, iha, ihb]

theorem Formula.nnf_of_isNnf {f : Formula} (h : f.isNnf = true) : f.nnf = f := by
  induction f with
  | prop p => rfl
  | not a _ =>
    cases a with
    | prop p => rfl
    | _ => simp [isNnf, isProp] at h
  | next a ih => rw [nnf, ih h]
  | and a b iha ihb | or a b iha ihb | «until» a b iha ihb | release a b iha ihb =>
    obtain ⟨ha, hb⟩ := Bool.and_eq_true_iff.1 h
    rw [nnf, iha ha, ihb hb]

theorem Formula.nnf_eq_self_iff {f : Formula} : f.nnf = f ↔ f.isNnf = true := by
  constructor
  · intro h
    exact h ▸ f.isNnf_nnf
  · exact nnf_of_isNnf

theorem Formula.hasTrigger_eq_any (f : Formula) :
    f.hasTrigger = f.propositions.any Proposition.hasTrigger := by
  induction f with
  | prop p => simp [hasTrigger, propositions]
  | not a ih | next a ih => exact ih
  | and a b iha ihb | or a b iha ihb | «until» a b iha ihb | release a b iha ihb =>
    rw [hasTrigger, propositions, List.any_append, iha, ihb]

theorem Formula.triggerSteps_nnf_negNnf (f : Formula) :
    f.nnf.triggerSteps = f.triggerSteps ∧ f.negNnf.triggerSteps = f.triggerSteps := by
  induction f with
  | prop p => exact ⟨rfl, rfl⟩
  | not a ih => exact ⟨ih.2, ih.1⟩
  | next a ih => simp [nnf, negNnf, triggerSteps, ih]
  | and a b iha ihb | or a b iha ihb | «until» a b iha ihb | release a b iha ihb =>
    simp [nnf, negNnf, triggerSteps, iha, ihb]

theorem nnf_normal_and_faithful (f : Formula) :
    f.nnf.isNnf = true ∧
    (∀ (G : Guards) (w : Word) (i : Nat), (f.nnf.HoldsAt G w i ↔ f.HoldsAt G w i) ∧
      (f.not.nnf.HoldsAt G w i ↔ ¬ f.HoldsAt G w i)) ∧
    (f.nnf = f ↔ f.isNnf = true) ∧ f.nnf.nnf = f.nnf ∧
    f.nnf.propositions = f.propositions ∧ f.nnf.hasTrigger = f.hasTrigger ∧
    f.nnf.triggerSteps = f.triggerSteps := by
  have hprops := f.propositions_nnf_negNnf.1
  refine ⟨f.isNnf_nnf, fun G w i => f.holdsAt_nnf_negNnf G w i, Formula.nnf_eq_self_iff,
    Formula.nnf_of_isNnf f.isNnf_nnf, hprops, ?_, f.triggerSteps_nnf_negNnf.1⟩
  rw [Formula.hasTrigger_eq_any, Formula.hasTrigger_eq_any, hprops]

end TemporalMonitor
