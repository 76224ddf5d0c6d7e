import Mathlib.Data.Set.Insert
import TemporalMonitor.Proofs.Interning
import TemporalMonitor.Proofs.Semantics
import TemporalMonitor.Proofs.TriggerSteps

/-! The rule that the placement of triggers is checked against. The steps of a formula are a set of
numbers, and each connective has a condition on its operands; the check accepts a formula exactly when
every subformula keeps its condition. Of the two sides of an until or a release the check looks into
one only: the other has no trigger, and then there is nothing to look for. -/

namespace TemporalMonitor

/-- The steps, counted from the event that starts the formula, on which a trigger may be due. -/
def Formula.steps : Formula → Set Nat
  | .prop p => if p.hasTrigger then {0} else ∅
  | .not a => a.steps
  | .next a => {k | ∃ j ∈ a.steps, k = j + 1}
  | .and a b | .or a b => a.steps ∪ b.steps
  | .until a b | .release a b => {k | ∃ j ∈ a.steps ∪ b.steps, j ≤ k}

def Formula.Triggered (f : Formula) : Prop :=
  ∃ p ∈ f.propositions, p.hasTrigger = true

/-- What the outermost connective asks of its operands. -/
def Formula.KeepsApart : Formula → Prop
  | .not (.prop p) => p.hasTrigger = false
  | .and a b => a.steps ∩ b.steps = ∅
  | .until a b | .release a b => ¬ (a.Triggered ∧ b.Triggered)
  | .prop _ | .not _ | .next _ | .or _ _ => True

theorem Formula.covers_iff_mem_steps {f : Formula} {k : Nat} :
    f.triggerSteps.covers k = true ↔ k ∈ f.steps := by
  induction f generalizing k with
  | prop p =>
    rw [triggerSteps, steps]
    cases p.hasTrigger with
    | false => exact iff_of_false Bool.false_ne_true (Set.notMem_empty k)
    | true => exact TriggerSteps.covers_atOnce
  | not a ih => exact ih
  | next a ih => simp [triggerSteps, steps, ih, and_comm]
  | and a b iha ihb | or a b iha ihb => simp [triggerSteps, steps, iha, ihb]
  | «until» a b iha ihb | release a b iha ihb =>
    simp [triggerSteps, steps, iha, ihb, and_comm]

theorem Formula.overlaps_eq_false_iff {a b : Formula} :
    a.triggerSteps.overlaps b.triggerSteps = false ↔ a.steps ∩ b.steps = ∅ := by
  rw [Bool.eq_false_iff, ne_eq, TriggerSteps.overlaps_iff, Set.eq_empty_iff_forall_notMem]
  simp only [covers_iff_mem_steps, not_exists, Set.mem_inter_iff]

theorem Formula.hasTrigger_iff {f : Formula} : f.hasTrigger = true ↔ f.Triggered := by
  rw [hasTrigger_eq_any, List.any_eq_true, Triggered]

theorem Formula.exists_hasTrigger_append {a b : Formula} :
    (∃ p ∈ a.propositions ++ b.propositions, p.hasTrigger = true) ↔ a.Triggered ∨ b.Triggered := by
  simp only [List.mem_append, or_and_right, exists_or, Triggered]

theorem Formula.triggered_of_mem_steps {f : Formula} {k : Nat} (h : k ∈ f.steps) : f.Triggered := by
  induction f generalizing k with
  | prop p =>
    rw [steps] at h
    split at h
    · exact ⟨p, List.mem_singleton.2 rfl, ‹_›⟩
    · exact h.elim
  | not a ih => exact ih h
  | next a ih =>
    obtain ⟨j, hj, _⟩ := h
    exact ih hj
  | and a b iha ihb | or a b iha ihb => exact exists_hasTrigger_append.2 (h.imp iha ihb)
  | «until» a b iha ihb | release a b iha ihb =>
    obtain ⟨j, hj, _⟩ := h
    exact exists_hasTrigger_append.2 (hj.imp iha ihb)

theorem Formula.Triggered.of_mem_subformulas {f g : Formula} (h : g.Triggered)
    (hg : g ∈ f.subformulas) : f.Triggered := by
  induction f with
  | prop p => exact List.mem_singleton.1 hg ▸ h
  | not a ih | next a ih =>
    rcases List.mem_cons.1 hg with rfl | hg
    · exact h
    · exact ih hg
  | and a b iha ihb | or a b iha ihb | «until» a b iha ihb | release a b iha ihb =>
    rcases List.mem_cons.1 hg with rfl | hg
    · exact h
    · exact exists_hasTrigger_append.2 ((List.mem_append.1 hg).imp iha ihb)

theorem Formula.keepsApart_of_not_triggered {f : Formula} (h : ¬ f.Triggered) : f.KeepsApart := by
  cases f with
  | not a =>
    cases a with
    | prop p => exact Bool.eq_false_iff.2 fun hp => h ⟨p, List.mem_singleton.2 rfl, hp⟩
    | _ => exact trivial
  | and a b =>
    refine Set.eq_empty_iff_forall_notMem.2 fun k hk => h ?_
    exact exists_hasTrigger_append.2 (.inl (triggered_of_mem_steps hk.1))
  | «until» a b | release a b => exact fun hh => h (exists_hasTrigger_append.2 (.inl hh.1))
  | _ => exact trivial

theorem Formula.forall_keepsApart_of_not_triggered {f : Formula} (h : ¬ f.Triggered) :
    ∀ g ∈ f.subformulas, g.KeepsApart :=
  fun _ hg => keepsApart_of_not_triggered fun ht => h (ht.of_mem_subformulas hg)

theorem Formula.one_side_iff {a b : Formula}
    (iha : a.wellPlaced = true ↔ ∀ g ∈ a.subformulas, g.KeepsApart)
    (ihb : b.wellPlaced = true ↔ ∀ g ∈ b.subformulas, g.KeepsApart) :
    ((!b.hasTrigger && a.wellPlaced) || (!a.hasTrigger && b.wellPlaced)) = true ↔
      ¬ (a.Triggered ∧ b.Triggered) ∧ (∀ g ∈ a.subformulas, g.KeepsApart) ∧
        ∀ g ∈ b.subformulas, g.KeepsApart := by
  simp only [Bool.or_eq_true, Bool.and_eq_true, Bool.not_eq_true', ← Bool.not_eq_true,
    hasTrigger_iff, iha, ihb]
  constructor
  · -- The side that is not looked into has no trigger, so no condition can fail in it.
    intro hh
    rcases hh with ⟨hb, ha⟩ | ⟨ha, hb⟩
    · exact ⟨fun ht => hb ht.2, ha, forall_keepsApart_of_not_triggered hb⟩
    · exact ⟨fun ht => ha ht.1, forall_keepsApart_of_not_triggered ha, hb⟩
  · intro hh
    obtain ⟨hn, ha, hb⟩ := hh
    by_cases ht : a.Triggered
    · exact .inl ⟨fun hb => hn ⟨ht, hb⟩, ha⟩
    · exact .inr ⟨ht, hb⟩

theorem Formula.wellPlaced_iff {f : Formula} :
    f.wellPlaced = true ↔ ∀ g ∈ f.subformulas, g.KeepsApart := by
  induction f with
  | prop p => simp [wellPlaced, subformulas, KeepsApart]
  | not a ih =>
    cases a with
    | prop p => simp [wellPlaced, subformulas, KeepsApart]
    | _ => exact ih.trans (List.forall_mem_cons.trans (and_iff_right trivial)).symm
  | next a ih => exact ih.trans (List.forall_mem_cons.trans (and_iff_right trivial)).symm
  | and a b iha ihb =>
    rw [wellPlaced, Bool.and_eq_true, Bool.and_eq_true, Bool.not_eq_true', overlaps_eq_false_iff,
      iha, ihb, and_assoc, subformulas, List.forall_mem_cons, List.forall_mem_append, KeepsApart]
  | or a b iha ihb =>
    rw [wellPlaced, Bool.and_eq_true, iha, ihb, subformulas, List.forall_mem_cons,
      List.forall_mem_append]
    exact (and_iff_right trivial).symm
  | «until» a b iha ihb | release a b iha ihb =>
    rw [wellPlaced, one_side_iff iha ihb, subformulas, List.forall_mem_cons,
      List.forall_mem_append, KeepsApart]

theorem Formula.forall_keepsApart_iff {f : Formula} :
    (∀ g ∈ f.subformulas, g.KeepsApart) ↔
      (∀ p, .not (.prop p) ∈ f.subformulas → p.hasTrigger = false) ∧
      (∀ a b, .and a b ∈ f.subformulas → a.steps ∩ b.steps = ∅) ∧
      ∀ a b, .until a b ∈ f.subformulas ∨ .release a b ∈ f.subformulas →
        ¬ (a.Triggered ∧ b.Triggered) := by
  constructor
  · intro h
    exact ⟨fun p hp => h _ hp, fun a b hab => h _ hab,
      fun a b hab => hab.elim (fun hu => h _ hu) (fun hr => h _ hr)⟩
  · intro hh g hg
    obtain ⟨hnot, hand, hboth⟩ := hh
    cases g with
    | not a =>
      cases a with
      | prop p => exact hnot p hg
      | _ => exact trivial
    | and a b => exact hand a b hg
    | «until» a b => exact hboth a b (.inl hg)
    | release a b => exact hboth a b (.inr hg)
    | _ => exact trivial

theorem placement_check_decides_rule (f : Formula) :
    (∀ k, f.triggerSteps.covers k = true ↔ k ∈ f.steps) ∧
    (f.wellPlaced = true ↔
      (∀ p, .not (.prop p) ∈ f.subformulas → p.hasTrigger = false) ∧
      (∀ a b, .and a b ∈ f.subformulas → a.steps ∩ b.steps = ∅) ∧
      ∀ a b, .until a b ∈ f.subformulas ∨ .release a b ∈ f.subformulas →
        ¬ (a.Triggered ∧ b.Triggered)) :=
  ⟨fun _ => Formula.covers_iff_mem_steps,
    Formula.wellPlaced_iff.trans Formula.forall_keepsApart_iff⟩

end TemporalMonitor
