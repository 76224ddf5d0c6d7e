import TemporalMonitor.Proofs.Renaming
import TemporalMonitor.Proofs.TriggerSteps

/-! The operand order of conjunctions and disjunctions. Mirroring a formula swaps the operands of
both all the way down. The subformulas of the mirrored formula are the mirrored subformulas, and each
obligation is met in the same ways as its mirror image; so the two automata are isomorphic, although
nodes are found in another order and numbered differently. -/

namespace TemporalMonitor

def Formula.mirror : Formula → Formula
  | .prop p => .prop p
  | .not a => .not a.mirror
  | .next a => .next a.mirror
  | .and a b => .and b.mirror a.mirror
  | .or a b => .or b.mirror a.mirror
  | .until a b => .until a.mirror b.mirror
  | .release a b => .release a.mirror b.mirror

@[simp] theorem Formula.mirror_mirror (f : Formula) : f.mirror.mirror = f := by
  induction f <;> simp_all [mirror]

theorem Formula.mirror_injective : Function.Injective Formula.mirror :=
  Function.LeftInverse.injective mirror_mirror

theorem Formula.nnf_negNnf_mirror (f : Formula) :
    f.mirror.nnf = f.nnf.mirror ∧ f.mirror.negNnf = f.negNnf.mirror := by
  induction f <;> simp_all [mirror, nnf, negNnf]

theorem Formula.mirror_mem_subformulas {f g : Formula} (h : g ∈ f.subformulas) :
    g.mirror ∈ f.mirror.subformulas := by
  induction f with
  | prop p =>
    rw [List.mem_singleton.1 h]
    exact mem_subformulas_self _
  | not a ih | next a ih =>
    rcases List.mem_cons.1 h with rfl | h
    · exact mem_subformulas_self _
    · exact List.mem_cons_of_mem _ (ih h)
  | and a b iha ihb | or a b iha ihb =>
    rcases List.mem_cons.1 h with rfl | h
    · exact mem_subformulas_self _
    · have hh := (List.mem_append.1 h).imp iha ihb
      exact List.mem_cons_of_mem _ (List.mem_append.2 hh.symm)
  | «until» a b iha ihb | release a b iha ihb =>
    rcases List.mem_cons.1 h with rfl | h
    · exact mem_subformulas_self _
    · have hh := (List.mem_append.1 h).imp iha ihb
      exact List.mem_cons_of_mem _ (List.mem_append.2 hh)

theorem Formula.mem_subformulas_mirror {f g : Formula} :
    g ∈ f.mirror.subformulas ↔ g.mirror ∈ f.subformulas := by
  constructor
  · intro h
    have hh := mirror_mem_subformulas h
    rwa [mirror_mirror] at hh
  · intro h
    have hh := mirror_mem_subformulas h
    rwa [mirror_mirror] at hh

theorem Formula.hasTrigger_mirror (f : Formula) : f.mirror.hasTrigger = f.hasTrigger := by
  induction f <;> simp_all [mirror, hasTrigger, Bool.or_comm]

theorem Formula.covers_triggerSteps_mirror {f : Formula} {k : Nat} :
    f.mirror.triggerSteps.covers k = true ↔ f.triggerSteps.covers k = true := by
  induction f generalizing k with
  | prop p => rfl
  | not a ih => exact ih
  | next a ih => simp [mirror, triggerSteps, ih]
  | and a b iha ihb | or a b iha ihb => simp [mirror, triggerSteps, iha, ihb, or_comm]
  | «until» a b iha ihb | release a b iha ihb => simp [mirror, triggerSteps, iha, ihb]

theorem Formula.overlaps_mirror (a b : Formula) :
    b.mirror.triggerSteps.overlaps a.mirror.triggerSteps =
      a.triggerSteps.overlaps b.triggerSteps := by
  rw [Bool.eq_iff_iff, TriggerSteps.overlaps_iff, TriggerSteps.overlaps_iff]
  simp only [covers_triggerSteps_mirror, and_comm]

theorem Formula.wellPlaced_mirror (f : Formula) : f.mirror.wellPlaced = f.wellPlaced := by
  induction f with
  | prop p => rfl
  | not a ih =>
    cases a with
    | prop p => rfl
    | _ => simpa [mirror, wellPlaced] using ih
  | next a ih => exact ih
  | and a b iha ihb =>
    rw [mirror, wellPlaced, wellPlaced, overlaps_mirror, iha, ihb, Bool.and_right_comm]
  | or a b iha ihb => rw [mirror, wellPlaced, wellPlaced, iha, ihb, Bool.and_comm]
  | «until» a b iha ihb | release a b iha ihb =>
    rw [mirror, wellPlaced, wellPlaced, hasTrigger_mirror, hasTrigger_mirror, iha, ihb]

def Expr.mirror {ι κ : Type} (ρ : ι → κ) : Expr ι → Expr κ
  | .prop p => .prop p
  | .not a => .not (ρ a)
  | .next a => .next (ρ a)
  | .and a b => .and (ρ b) (ρ a)
  | .or a b => .or (ρ b) (ρ a)
  | .until a b => .until (ρ a) (ρ b)
  | .release a b => .release (ρ a) (ρ b)

theorem Expr.toFormula_mirror {ι κ : Type} {ρ : ι → κ} {g : ι → Formula} {g' : κ → Formula}
    (h : ∀ i, g' (ρ i) = (g i).mirror) (e : Expr ι) :
    (e.mirror ρ).toFormula g' = (e.toFormula g).mirror := by
  cases e <;> simp [mirror, toFormula, Formula.mirror, h]

section

variable {m n : Nat} (ρ : Fin m ≃ Fin n)

theorem Expr.mirror_mirror_symm (e : Expr (Fin m)) : (e.mirror ρ).mirror ρ.symm = e := by
  cases e <;> simp [mirror]

theorem Expr.exists_branch_mirror {u : Fin m} {e : Expr (Fin m)} {b : Branch (Fin m)}
    (hb : b ∈ (e.rule u).branches) :
    ∃ b' ∈ ((e.mirror ρ).rule (ρ u)).branches, b.Renames ρ b' := by
  cases e with
  | prop p =>
    rw [rule] at hb
    rw [mirror, rule]
    split at hb
    · exact absurd hb List.not_mem_nil
    · rw [List.mem_singleton.1 hb]
      exact ⟨⟨[], []⟩, by simp_all [Rule.branches], by simp, by simp⟩
  | not a | next a =>
    rw [List.mem_singleton.1 hb]
    exact ⟨_, List.mem_singleton.2 rfl, by simp, by simp⟩
  | and a c =>
    rw [List.mem_singleton.1 hb]
    exact ⟨_, List.mem_singleton.2 rfl, by simp [or_comm], by simp⟩
  | or a c =>
    -- The first way to meet a disjunction is the second way to meet its mirror image.
    rcases List.mem_pair.1 hb with rfl | rfl
    · exact ⟨_, List.mem_pair.2 (.inr rfl), by simp, by simp⟩
    · exact ⟨_, List.mem_pair.2 (.inl rfl), by simp, by simp⟩
  | «until» a c | release a c =>
    rcases List.mem_pair.1 hb with rfl | rfl
    · exact ⟨_, List.mem_pair.2 (.inl rfl), by simp, by simp⟩
    · exact ⟨_, List.mem_pair.2 (.inr rfl), by simp, by simp⟩

theorem Expr.exists_branch_of_mirror {u : Fin m} {e : Expr (Fin m)} {b' : Branch (Fin n)}
    (hb : b' ∈ ((e.mirror ρ).rule (ρ u)).branches) :
    ∃ b ∈ (e.rule u).branches, b.Renames ρ b' := by
  obtain ⟨b, hb, hr⟩ := exists_branch_mirror ρ.symm hb
  rw [mirror_mirror_symm, ρ.symm_apply_apply] at hb
  exact ⟨b, hb, hr.symm⟩

end

section

variable {A B : Arena} {ρ : Fin A.size ≃ Fin B.size}

theorem Arena.expr_mirror (hB : B.entries.toList.Nodup)
    (h : ∀ u, B.formula (ρ u) = (A.formula u).mirror) (u : Fin A.size) :
    B.expr (ρ u) = (A.expr u).mirror ρ := by
  have heq : (B.expr (ρ u)).toFormula B.formula = ((A.expr u).mirror ρ).toFormula B.formula := by
    rw [← B.formula_eq, h, A.formula_eq, Expr.toFormula_mirror h]
  exact Expr.eq_of_toFormula_eq (fun _ _ _ => formula_injective hB) heq

theorem Arena.proposition?_of_expr_mirror (h : ∀ u, B.expr (ρ u) = (A.expr u).mirror ρ)
    (u : Fin A.size) : B.proposition? (ρ u) = A.proposition? u := by
  rw [proposition?, proposition?, h]
  cases A.expr u <;> rfl

theorem Arena.negated?_of_expr_mirror (h : ∀ u, B.expr (ρ u) = (A.expr u).mirror ρ)
    (u : Fin A.size) : B.negated? (ρ u) = A.negated? u := by
  rw [negated?, negated?, h]
  cases A.expr u with
  | not a => exact proposition?_of_expr_mirror h a
  | _ => rfl

def Arena.Renaming.ofMirror (h : ∀ u, B.expr (ρ u) = (A.expr u).mirror ρ) : A.Renaming B where
  rename := ρ
  branch u b hb := by
    rw [rule, h]
    exact Expr.exists_branch_mirror ρ hb
  branch_back u b' hb' := by
    rw [rule, h] at hb'
    exact Expr.exists_branch_of_mirror ρ hb'
  proposition? := proposition?_of_expr_mirror h
  negated? := negated?_of_expr_mirror h

end

theorem Tableau.exists_equiv_mirror (f : Formula) :
    ∃ ρ : Fin (Tableau.build f).arena.size ≃ Fin (Tableau.build f.mirror).arena.size,
      ∀ u, (Tableau.build f.mirror).arena.formula (ρ u) =
        ((Tableau.build f).arena.formula u).mirror := by
  apply exists_equiv_of_labels
  · exact Formula.mirror_injective.comp
      fun _ _ h => Arena.formula_injective (nodup_entries_build f) h
  · exact fun _ _ h => Arena.formula_injective (nodup_entries_build f.mirror) h
  · intro g
    have hf : (∃ u, (Tableau.build f).arena.formula u = g.mirror) ↔ g.mirror ∈ f.nnf.subformulas :=
      Arena.exists_formula_iff
    have hm : (∃ u, (Tableau.build f.mirror).arena.formula u = g) ↔ g ∈ f.mirror.nnf.subformulas :=
      Arena.exists_formula_iff
    rw [hm, f.nnf_negNnf_mirror.1, Formula.mem_subformulas_mirror, ← hf]
    refine exists_congr fun u => ?_
    rw [← Formula.mirror_injective.eq_iff, Formula.mirror_mirror]

theorem Tableau.exists_iso_mirror (f : Formula) :
    Nonempty ((Tableau.build f).Iso (.build f.mirror)) := by
  obtain ⟨ρ, hρ⟩ := exists_equiv_mirror f
  let r := Arena.Renaming.ofMirror (Arena.expr_mirror (nodup_entries_build f.mirror) hρ)
  have ht : (Tableau.build f).Unfolds f := buildWith_unfolds _ f
  have hu : (Tableau.build f.mirror).Unfolds f.mirror := buildWith_unfolds _ f.mirror
  have hroot : r.rename (Tableau.build f).root = (Tableau.build f.mirror).root := by
    apply Arena.formula_injective (nodup_entries_build f.mirror)
    show (Tableau.build f.mirror).arena.formula (ρ _) = _
    rw [hρ, ht.formula_root, hu.formula_root, f.nnf_negNnf_mirror.1]
  exact exists_iso_of_renaming hroot

/-- The operand order of conjunctions and disjunctions has no say in where triggers may stand, in
the verdict on an event, in how many triggers it fires, or in what has been counted. -/
theorem mirror_keeps_verdicts {σ τ : Type} [Sink σ] [Sink τ] (G : Guards) (f : Formula) (sink : σ)
    (sink' : τ) (es : List Event) (e : Event) :
    let m := (Monitor.start (.ofTableau f (.build f)) sink).feed G es
    let m' := (Monitor.start (.ofTableau f.mirror (.build f.mirror)) sink').feed G es
    f.mirror.wellPlaced = f.wellPlaced ∧
    (m'.accept G e).verdict = (m.accept G e).verdict ∧
    (m'.accept G e).firings.length = (m.accept G e).firings.length ∧
    (m'.accept G e).monitor.stats = (m.accept G e).monitor.stats := by
  intro m m'
  obtain ⟨φ⟩ := Tableau.exists_iso_mirror f
  have h : (φ.automaton f f.mirror).InStep m m' :=
    ((φ.automaton f f.mirror).inStep_start sink sink').feed es
  exact ⟨f.wellPlaced_mirror, h.verdict_advance e, h.length_firings e, (h.accept e).stats⟩

end TemporalMonitor
