import TemporalMonitor.Proofs.FairRuns

/-! One edge of a tableau is one event of a word. What a node asks is true of a word exactly when some
edge leads to a node whose literals are true of the first event, and what that node defers is true of
the rest. The initial node is apart: it defers nothing and asks for the whole formula. -/

namespace TemporalMonitor

section

variable {A : Arena} {G : Guards} {w : Word} {i : Nat}

theorem Arena.Meets.holdsAt {now later : IndexSet A.size} {u : Fin A.size} (h : A.Meets now later u)
    (hn : (A.formula u).isNnf = true)
    (hprop : ∀ p, A.expr u = .prop p → p.holds G (w i) = true)
    (hneg : ∀ a p, A.expr u = .not a → A.expr a = .prop p → ¬ p.holds G (w i) = true)
    (hnow : ∀ c ∈ (A.expr u).children, c ∈ now → (A.formula c).HoldsAt G w i)
    (hlater : ∀ c ∈ later, (A.formula c).HoldsAt G w (i + 1)) : (A.formula u).HoldsAt G w i := by
  have hself := A.formula_eq u
  cases he : A.expr u with
  | prop p =>
    rw [hself, he]
    exact hprop p he
  | not a =>
    obtain ⟨p, hp⟩ := A.expr_prop_of_not hn he
    have hnp := hneg a p he hp
    rw [hself, he]
    simpa only [Expr.toFormula, formula_eq, hp, Formula.HoldsAt] using hnp
  | next a =>
    rw [hself, he]
    exact hlater a (h.next he)
  | and a b =>
    simp only [he, Expr.children, List.forall_mem_cons] at hnow
    rw [hself, he]
    exact ⟨hnow.1 (h.and he).1, hnow.2.1 (h.and he).2⟩
  | or a b =>
    simp only [he, Expr.children, List.forall_mem_cons] at hnow
    rw [hself, he]
    exact (h.or he).imp hnow.1 hnow.2.1
  | «until» a b =>
    -- Put off, the until is itself among what is true from the next event on.
    simp only [he, Expr.children, List.forall_mem_cons] at hnow
    rw [he, Expr.toFormula] at hself
    rw [hself, Formula.holdsAt_until_iff, ← hself]
    exact (h.until he).imp hnow.2.1 (.imp hnow.1 (hlater u))
  | release a b =>
    simp only [he, Expr.children, List.forall_mem_cons] at hnow
    rw [he, Expr.toFormula] at hself
    rw [hself, Formula.holdsAt_release_iff, ← hself]
    exact (h.release he).imp hnow.2.1 (.imp hnow.1 (hlater u))

/-- With true literals, and with what is deferred true from the next event on, all that an expansion
meets is true. The induction is on the index, since operands stand before what is built from them. -/
theorem Arena.Expands.holdsAt {due : IndexSet A.size} {key : Key A.size} (h : A.Expands due key)
    (hn : ∀ u, (A.formula u).isNnf = true)
    (hprop : ∀ u ∈ key.1, ∀ p, A.expr u = .prop p → p.holds G (w i) = true)
    (hneg : ∀ u ∈ key.1, ∀ a p, A.expr u = .not a → A.expr a = .prop p → ¬ p.holds G (w i) = true)
    (hlater : ∀ c ∈ key.2, (A.formula c).HoldsAt G w (i + 1)) (u : Fin A.size) (hu : u ∈ key.1) :
    (A.formula u).HoldsAt G w i :=
  (h.meets hu).holdsAt (hn u) (hprop u hu) (hneg u hu)
    (fun c _ hc => holdsAt h hn hprop hneg hlater c hc) hlater
termination_by u.val
decreasing_by exact A.child_lt ‹_›

end

/-- The first event of the word enters a successor of the node, and the word after it satisfies all
that the successor defers. -/
def Tableau.GoesOn (t : Tableau) (f : Formula) (G : Guards) (w : Word) (n : Fin t.size) : Prop :=
  ∃ m, n.val ∈ (t.node m).incoming ∧
    ((Automaton.ofTableau f t).state m).satisfiedBy G (w 0) = true ∧
    ∀ u ∈ (t.node m).deferred, (t.arena.formula u).HoldsAt G w 1

section

variable {t : Tableau} {f : Formula} {G : Guards} {w : Word} {n : Fin t.size}

theorem Tableau.Unfolds.goesOn_iff (ht : t.Unfolds f) :
    t.GoesOn f G w n ↔ ∀ u ∈ t.due n, (t.arena.formula u).HoldsAt G w 0 := by
  constructor
  · intro hh u hu
    obtain ⟨m, hm, hs, hlater⟩ := hh
    have hex := ht.expands (mem_out.2 hm)
    obtain ⟨hprop, hneg⟩ := satisfiedBy_iff.1 hs
    exact hex.holdsAt ht.isNnf hprop hneg hlater u (hex.mem_of_due hu)
  · intro h
    obtain ⟨m, ⟨hm, hs, _⟩, hlater⟩ := ht.exists_true_step (Formula.holdsAt_unwinds G w) h
    rw [due_of_mem_out hm] at hlater
    exact ⟨m, mem_out.1 hm, hs, hlater⟩

theorem Tableau.due_of_ne_init (hn : n ≠ t.init) : t.due n = (t.node n).deferred := by
  revert hn
  refine Fin.cases ?_ (fun k _ => rfl) n
  intro hn
  exact absurd rfl hn

theorem Tableau.Unfolds.goesOn_init_iff (ht : t.Unfolds f) :
    t.GoesOn f G w t.init ↔ f.HoldsAt G w 0 := by
  rw [ht.goesOn_iff, ← Formula.holdsAt_nnf, ← ht.formula_root]
  have hdue : t.due t.init = {t.root} := rfl
  simp [hdue]

end

/-- Every node but the initial one asks for what it defers. -/
theorem one_step_expansion (G : Guards) (f : Formula) (w : Word) :
    let t := Tableau.build f
    (∀ n, n ≠ t.init →
      ((∀ u ∈ (t.node n).deferred, (t.arena.formula u).HoldsAt G w 0) ↔ t.GoesOn f G w n)) ∧
    (f.HoldsAt G w 0 ↔ t.GoesOn f G w t.init) := by
  intro t
  have ht : t.Unfolds f := Tableau.buildWith_unfolds _ f
  refine ⟨?_, ht.goesOn_init_iff.symm⟩
  intro n hn
  rw [ht.goesOn_iff, Tableau.due_of_ne_init hn]

theorem one_step_expansion_until :
    let p := Formula.prop ⟨.event "p", none, none, none⟩
    let f := p.until (.prop ⟨.event "q", none, none, none⟩)
    let t := Tableau.build f
    let w : Word := fun _ => ⟨"q", none, []⟩
    ∃ n, n ≠ t.init ∧ (t.node n).deferred.toList.map t.arena.formula = [f] ∧
      (∀ u ∈ (t.node n).deferred, (t.arena.formula u).HoldsAt (fun _ _ => true) w 0) ∧
      t.GoesOn f (fun _ _ => true) w n := by
  intro p f t w
  let n : Fin t.size := ⟨1, by decide +kernel⟩
  have hn : n ≠ t.init := by decide
  have hlist : (t.node n).deferred.toList.map t.arena.formula = [f] := by decide +kernel
  have hdue : ∀ u ∈ (t.node n).deferred, (t.arena.formula u).HoldsAt (fun _ _ => true) w 0 := by
    intro u hu
    have hf : t.arena.formula u ∈ [f] := hlist ▸ List.mem_map_of_mem (IndexSet.mem_toList.2 hu)
    rw [List.mem_singleton.1 hf]
    exact Formula.holdsAt_until_iff.2 (.inl rfl)
  exact ⟨n, hn, hlist, hdue, ((one_step_expansion (fun _ _ => true) f w).1 n hn).1 hdue⟩

/-- The initial node defers nothing, which is true of every word, but its successors ask for `p`. -/
theorem one_step_law_fails_at_init :
    ¬ ∀ (G : Guards) (f : Formula) (w : Word) (n : Fin (Tableau.build f).size),
      (∀ u ∈ ((Tableau.build f).node n).deferred,
        ((Tableau.build f).arena.formula u).HoldsAt G w 0) ↔ (Tableau.build f).GoesOn f G w n := by
  intro h
  let f := Formula.prop ⟨.event "p", none, none, none⟩
  let w : Word := fun _ => ⟨"q", none, []⟩
  have ht : (Tableau.build f).Unfolds f := Tableau.buildWith_unfolds _ f
  have hgoes := (h (fun _ _ => true) f w (Tableau.build f).init).1
    fun u hu => absurd hu (IndexSet.mem_empty u)
  have hp : f.HoldsAt (fun _ _ => true) w 0 := ht.goesOn_init_iff.1 hgoes
  exact Bool.false_ne_true hp

end TemporalMonitor
