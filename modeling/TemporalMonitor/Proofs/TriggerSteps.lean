import TemporalMonitor.Formula

/-! Trigger steps as sets of numbers. The operations on them are union, shift by one and closure
upwards, and two of them overlap when they share a number. A trigger below an odd number of negations
never fires; the steps of the others are those of the normal form. -/

namespace TemporalMonitor

theorem any_le_earliest {a b : Option Nat} {k : Nat} :
    (earliest a b).any (· ≤ k) = true ↔ a.any (· ≤ k) = true ∨ b.any (· ≤ k) = true := by
  cases a with
  | none => simp [earliest]
  | some m =>
    cases b with
    | none => simp [earliest]
    | some n =>
      simp only [earliest, Option.any_some, decide_eq_true_eq]
      omega

theorem any_le_min? {l : List Nat} {k : Nat} :
    l.min?.any (· ≤ k) = true ↔ ∃ j ∈ l, j ≤ k := by
  cases hm : l.min? with
  | none => simp [List.min?_eq_none_iff.1 hm]
  | some m =>
    obtain ⟨hmem, hle⟩ := List.min?_eq_some_iff.1 hm
    simp only [Option.any_some, decide_eq_true_eq]
    constructor
    · intro h
      exact ⟨m, hmem, h⟩
    · intro hh
      obtain ⟨j, hj, hjk⟩ := hh
      exact Nat.le_trans (hle j hj) hjk

section

variable {s t : TriggerSteps} {k : Nat}

theorem TriggerSteps.covers_iff :
    s.covers k = true ↔ k ∈ s.exact ∨ s.onward.any (· ≤ k) = true := by
  simp [covers]

@[simp] theorem TriggerSteps.covers_atOnce : TriggerSteps.atOnce.covers k = true ↔ k = 0 := by
  simp [covers_iff, atOnce]

@[simp] theorem TriggerSteps.covers_shifted :
    s.shifted.covers k = true ↔ ∃ j, k = j + 1 ∧ s.covers j = true := by
  have hlast : (s.onward.map (· + 1)).any (· ≤ k) = true ↔
      ∃ j, k = j + 1 ∧ s.onward.any (· ≤ j) = true := by
    cases s.onward with
    | none => simp
    | some n =>
      simp only [Option.map_some, Option.any_some, decide_eq_true_eq]
      constructor
      · intro h
        exact ⟨k - 1, by omega, by omega⟩
      · intro hh
        obtain ⟨j, hj, hn⟩ := hh
        omega
  simp only [covers_iff, shifted, List.mem_map, hlast]
  constructor
  · intro hh
    rcases hh with ⟨j, hj, rfl⟩ | ⟨j, rfl, hj⟩
    · exact ⟨j, rfl, .inl hj⟩
    · exact ⟨j, rfl, .inr hj⟩
  · intro hh
    obtain ⟨j, rfl, hj | hj⟩ := hh
    · exact .inl ⟨j, hj, rfl⟩
    · exact .inr ⟨j, rfl, hj⟩

@[simp] theorem TriggerSteps.covers_union :
    (s.union t).covers k = true ↔ s.covers k = true ∨ t.covers k = true := by
  simp only [covers_iff, union, List.mem_append, any_le_earliest]
  grind

@[simp] theorem TriggerSteps.covers_unbounded :
    s.unbounded.covers k = true ↔ ∃ j, j ≤ k ∧ s.covers j = true := by
  simp only [covers_iff, unbounded, List.not_mem_nil, false_or, any_le_earliest, any_le_min?]
  constructor
  · intro hh
    rcases hh with ⟨j, hj, hjk⟩ | h
    · exact ⟨j, hjk, .inl hj⟩
    · exact ⟨k, Nat.le_refl k, .inr h⟩
  · intro hh
    obtain ⟨j, hjk, hj | hj⟩ := hh
    · exact .inl ⟨j, hj, hjk⟩
    · right
      cases hn : s.onward with
      | none => simp [hn] at hj
      | some n =>
        have hnj : n ≤ j := by simpa [hn] using hj
        simpa using Nat.le_trans hnj hjk

theorem TriggerSteps.overlaps_iff :
    s.overlaps t = true ↔ ∃ k, s.covers k = true ∧ t.covers k = true := by
  simp only [overlaps, Bool.or_eq_true, Bool.and_eq_true, List.any_eq_true]
  constructor
  · intro hh
    rcases hh with (⟨hs, ht⟩ | ⟨k, hs, ht⟩) | ⟨k, ht, hs⟩
    · -- Both sets are unbounded: they meet where the later one begins.
      obtain ⟨a, ha⟩ := Option.isSome_iff_exists.1 hs
      obtain ⟨b, hb⟩ := Option.isSome_iff_exists.1 ht
      refine ⟨max a b, covers_iff.2 (.inr ?_), covers_iff.2 (.inr ?_)⟩
      · rw [ha]
        exact decide_eq_true (Nat.le_max_left a b)
      · rw [hb]
        exact decide_eq_true (Nat.le_max_right a b)
    · exact ⟨k, covers_iff.2 (.inl hs), ht⟩
    · exact ⟨k, hs, covers_iff.2 (.inl ht)⟩
  · intro hh
    obtain ⟨k, hs, ht⟩ := hh
    rcases covers_iff.1 hs with hk | hk
    · exact .inl (.inr ⟨k, hk, ht⟩)
    · rcases covers_iff.1 ht with hl | hl
      · exact .inr ⟨k, hl, hs⟩
      · exact .inl (.inl ⟨Option.isSome_of_any hk, Option.isSome_of_any hl⟩)

end

/-- The steps on which a trigger can fire that is not under a negation in the normal form; `negated`
says whether the formula itself stands under an odd number of negations. -/
def Formula.firingSteps (negated : Bool) : Formula → TriggerSteps
  | .prop p => if p.hasTrigger && !negated then .atOnce else .never
  | .not a => a.firingSteps (!negated)
  | .next a => (a.firingSteps negated).shifted
  | .and a b | .or a b => (a.firingSteps negated).union (b.firingSteps negated)
  | .until a b | .release a b => ((a.firingSteps negated).union (b.firingSteps negated)).unbounded

theorem Formula.covers_triggerSteps {f : Formula} {negated : Bool} {k : Nat}
    (h : (f.firingSteps negated).covers k = true) : f.triggerSteps.covers k = true := by
  induction f generalizing negated k with
  | prop p =>
    by_cases ht : p.hasTrigger = true ∧ negated = false
    · simpa [firingSteps, triggerSteps, ht] using h
    · have hnever : (prop p).firingSteps negated = .never := if_neg (by simpa using ht)
      rw [hnever] at h
      exact absurd h Bool.false_ne_true
  | not a ih => exact ih h
  | next a ih =>
    obtain ⟨j, rfl, hj⟩ := TriggerSteps.covers_shifted.1 h
    exact TriggerSteps.covers_shifted.2 ⟨j, rfl, ih hj⟩
  | and a b iha ihb | or a b iha ihb =>
    exact TriggerSteps.covers_union.2 ((TriggerSteps.covers_union.1 h).imp iha ihb)
  | «until» a b iha ihb | release a b iha ihb =>
    obtain ⟨j, hjk, hj⟩ := TriggerSteps.covers_unbounded.1 h
    have hj := (TriggerSteps.covers_union.1 hj).imp iha ihb
    exact TriggerSteps.covers_unbounded.2 ⟨j, hjk, TriggerSteps.covers_union.2 hj⟩

theorem Formula.firingSteps_nnf_negNnf (f : Formula) :
    f.nnf.firingSteps false = f.firingSteps false ∧
      f.negNnf.firingSteps false = f.firingSteps true := by
  induction f with
  | prop p => simp [nnf, negNnf, firingSteps]
  | not a ih => simp [nnf, negNnf, firingSteps, ih]
  | next a ih => simp [nnf, negNnf, firingSteps, ih]
  | and a b iha ihb | or a b iha ihb | «until» a b iha ihb | release a b iha ihb =>
    simp [nnf, negNnf, firingSteps, iha, ihb]

end TemporalMonitor
