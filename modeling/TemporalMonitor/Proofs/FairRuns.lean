import TemporalMonitor.Proofs.Obligations
import TemporalMonitor.Proofs.TableauEdges

/-! Infinite runs of an automaton along a word. A word satisfies a formula exactly when the automaton
of the formula has a run along it on which no until waits for ever: the obligations met on such a run
are true, and a true formula guides a run through true obligations. -/

namespace TemporalMonitor

/-- A path along the edges out of `start` that enters its states on the events of `w` in turn. -/
structure Automaton.IsRunFrom (A : Automaton) (G : Guards) (start : Fin A.size) (w : Word)
    (run : Nat → Fin A.size) : Prop where
  first : run 0 ∈ (A.state start).out
  next : ∀ i, run (i + 1) ∈ (A.state (run i)).out
  satisfied : ∀ i, (A.state (run i)).satisfiedBy G (w i) = true

/-- Each until met on the way has its right side met there or later. -/
def Tableau.Fair (t : Tableau) (run : Nat → Fin t.size) : Prop :=
  ∀ i u a b, t.arena.expr u = .until a b → u ∈ (t.node (run i)).satisfied →
    ∃ j, i ≤ j ∧ b ∈ (t.node (run j)).satisfied

section

variable {f : Formula} {t : Tableau}

theorem Automaton.state_ofTableau (i : Fin t.size) : (Automaton.ofTableau f t).state i =
    ⟨(t.node i).name, t.out i, t.propositions i, t.negated i,
      (t.out i).toList.any t.seeds.contains⟩ :=
  Vector.getElem_ofFn i.isLt

@[simp] theorem Automaton.out_ofTableau (i : Fin t.size) :
    ((Automaton.ofTableau f t).state i).out = t.out i := by
  rw [state_ofTableau]

@[simp] theorem Automaton.propositions_ofTableau (i : Fin t.size) :
    ((Automaton.ofTableau f t).state i).propositions = t.propositions i := by
  rw [state_ofTableau]

@[simp] theorem Automaton.negated_ofTableau (i : Fin t.size) :
    ((Automaton.ofTableau f t).state i).negated = t.negated i := by
  rw [state_ofTableau]

theorem Arena.proposition?_eq_some_iff {A : Arena} {u : Fin A.size} {p : Proposition} :
    A.proposition? u = some p ↔ A.expr u = .prop p := by
  cases he : A.expr u <;> simp [proposition?, he]

theorem Arena.negated?_eq_some_iff {A : Arena} {u : Fin A.size} {p : Proposition} :
    A.negated? u = some p ↔ ∃ a, A.expr u = .not a ∧ A.expr a = .prop p := by
  cases he : A.expr u <;> simp [negated?, he, proposition?_eq_some_iff]

theorem Tableau.mem_propositions_iff {i : Fin t.size} {p : Proposition} :
    p ∈ t.propositions i ↔
      p.isTrue = false ∧ ∃ u ∈ (t.node i).satisfied, t.arena.expr u = .prop p := by
  simp only [propositions, List.mem_filter, List.mem_filterMap, IndexSet.mem_toList,
    Arena.proposition?_eq_some_iff, Bool.not_eq_true', and_comm]

theorem Tableau.mem_negated_iff {i : Fin t.size} {p : Proposition} :
    p ∈ t.negated i ↔ ∃ u ∈ (t.node i).satisfied, ∃ a, t.arena.expr u = .not a ∧
      t.arena.expr a = .prop p := by
  simp only [negated, List.mem_filterMap, IndexSet.mem_toList, Arena.negated?_eq_some_iff]

theorem Proposition.holds_of_isTrue {p : Proposition} (h : p.isTrue = true) (G : Guards)
    (e : Event) : p.holds G e = true := by
  have hs : p.subject = .truth := by simpa [isTrue] using h
  simp [holds, hs]

/-- An event may enter a state when the literals met at its node are true of it. Leaving out the
true constant changes nothing. -/
theorem Tableau.satisfiedBy_iff {G : Guards} {i : Fin t.size} {e : Event} :
    ((Automaton.ofTableau f t).state i).satisfiedBy G e = true ↔
      (∀ u ∈ (t.node i).satisfied, ∀ p, t.arena.expr u = .prop p → p.holds G e = true) ∧
      ∀ u ∈ (t.node i).satisfied, ∀ a p, t.arena.expr u = .not a → t.arena.expr a = .prop p →
        ¬ p.holds G e = true := by
  have hpos : ((t.propositions i).all (·.holds G e)) = true ↔
      ∀ u ∈ (t.node i).satisfied, ∀ p, t.arena.expr u = .prop p → p.holds G e = true := by
    simp only [List.all_eq_true, mem_propositions_iff]
    constructor
    · intro h u hu p hp
      by_cases ht : p.isTrue = true
      · exact p.holds_of_isTrue ht G e
      · exact h p ⟨Bool.eq_false_iff.2 ht, u, hu, hp⟩
    · intro h p hp
      obtain ⟨_, u, hu, hp⟩ := hp
      exact h u hu p hp
  have hneg : (!(t.negated i).any (·.holds G e)) = true ↔
      ∀ u ∈ (t.node i).satisfied, ∀ a p, t.arena.expr u = .not a → t.arena.expr a = .prop p →
        ¬ p.holds G e = true := by
    simp only [Bool.not_eq_true', List.any_eq_false, mem_negated_iff]
    constructor
    · intro h u hu a p ha hp
      exact h p ⟨u, hu, a, ha, hp⟩
    · intro h p hp
      obtain ⟨u, hu, a, ha, hp⟩ := hp
      exact h u hu a p ha hp
  rw [State.satisfiedBy, Automaton.negated_ofTableau, Automaton.propositions_ofTableau,
    Bool.and_eq_true, hneg, hpos, and_comm]

theorem Tableau.mem_due_of_mem_deferred {i : Fin t.size} {u : Fin t.arena.size}
    (h : u ∈ (t.node i).deferred) : u ∈ t.due i := by
  revert h
  refine Fin.cases ?_ (fun k h => h) i
  intro h
  exact absurd h (IndexSet.mem_empty u)

theorem Tableau.Unfolds.satisfied_of_deferred (ht : t.Unfolds f) {i j : Fin t.size}
    {u : Fin t.arena.size} (hj : j ∈ t.out i) (hu : u ∈ (t.node i).deferred) :
    u ∈ (t.node j).satisfied :=
  (ht.expands hj).mem_of_due (mem_due_of_mem_deferred hu)

theorem Tableau.Unfolds.consistent (ht : t.Unfolds f) {G : Guards} {start : Fin t.size} {w : Word}
    {run : Nat → Fin t.size} (hr : (Automaton.ofTableau f t).IsRunFrom G start w run) :
    t.arena.Consistent G w fun i => (t.node (run i)).satisfied := by
  have hout : ∀ i, run (i + 1) ∈ t.out (run i) := fun i => by
    have hn := hr.next i
    rwa [Automaton.out_ofTableau] at hn
  have hpre : ∀ i, ∃ j, run i ∈ t.out j := by
    intro i
    cases i with
    | zero =>
      have hf := hr.first
      rw [Automaton.out_ofTableau] at hf
      exact ⟨start, hf⟩
    | succ i => exact ⟨run i, hout i⟩
  have hlit := fun i => satisfiedBy_iff.1 (hr.satisfied i)
  refine ⟨?_, ?_, ?_⟩
  · intro i u hu
    obtain ⟨j, hj⟩ := hpre i
    exact ((ht.expands hj).meets hu).mono fun c hc => ht.satisfied_of_deferred (hout i) hc
  · intro i u p hu hp
    exact (hlit i).1 u hu p hp
  · intro i u a p hu ha hp
    exact (hlit i).2 u hu a p ha hp

theorem Tableau.Unfolds.holdsAt_of_run (ht : t.Unfolds f) {G : Guards} {w : Word}
    {run : Nat → Fin t.size} (hr : (Automaton.ofTableau f t).IsRunFrom G t.init w run)
    (hf : t.Fair run) : f.HoldsAt G w 0 := by
  have hout : run 0 ∈ t.out t.init := by
    have hf := hr.first
    rwa [Automaton.out_ofTableau] at hf
  have hroot : t.root ∈ (t.node (run 0)).satisfied :=
    (ht.expands hout).mem_of_due (IndexSet.mem_singleton.2 rfl)
  have hh := (ht.consistent hr).holdsAt hf ht.isNnf hroot
  rwa [ht.formula_root, Formula.holdsAt_nnf] at hh

variable {G : Guards} {w : Word} {T : Formula → Nat → Prop}

/-- One event of a true word: from a node whose demands are true there is an edge to a node where
true obligations are met and true ones deferred. -/
theorem Tableau.Unfolds.exists_true_step (ht : t.Unfolds f) (hT : Unwinds G w T) {n : Nat}
    {i : Fin t.size} (h : ∀ d ∈ t.due i, T (t.arena.formula d) n) :
    ∃ j, (j ∈ t.out i ∧ ((Automaton.ofTableau f t).state j).satisfiedBy G (w n) = true ∧
      ∀ u ∈ (t.node j).satisfied, T (t.arena.formula u) n ∧
        ∀ a b, t.arena.expr u = .until a b → T (t.arena.formula b) n →
          b ∈ (t.node j).satisfied) ∧
      ∀ d ∈ t.due j, T (t.arena.formula d) (n + 1) := by
  obtain ⟨key, hk, hnow, hlater, huntil⟩ := t.arena.exists_expansion hT h
  obtain ⟨j, hj, rfl⟩ := ht.exists_out hk
  refine ⟨j, ⟨hj, satisfiedBy_iff.2 ⟨?_, ?_⟩, ?_⟩, ?_⟩
  · intro u hu p hp
    have hh := hnow u hu
    rw [Arena.formula_eq, hp] at hh
    exact hT.prop hh
  · intro u hu a p ha hp
    have hh := hnow u hu
    rw [Arena.formula_eq, ha, Expr.toFormula, Arena.formula_eq, hp] at hh
    exact hT.not hh
  · intro u hu
    exact ⟨hnow u hu, fun a b he hb => huntil u a b he hu hb⟩
  · rw [due_of_mem_out hj]
    exact hlater

end

/-- A sequence in which each element is picked by the one before it. -/
theorem exists_sequence {α : Type} {P : Nat → α → Prop} {R : Nat → α → α → Prop} {x : α}
    (h0 : P 0 x) (hs : ∀ n x, P n x → ∃ y, R n x y ∧ P (n + 1) y) :
    ∃ g : Nat → α, g 0 = x ∧ ∀ n, R n (g n) (g (n + 1)) := by
  have hs' : ∀ n, ∀ s : { x // P n x }, ∃ s' : { y // P (n + 1) y }, R n s.1 s'.1 := by
    intro n s
    obtain ⟨y, hr, hp⟩ := hs n s.1 s.2
    exact ⟨⟨y, hp⟩, hr⟩
  obtain ⟨pick, hp⟩ := Classical.axiomOfChoice fun n => Classical.axiomOfChoice (hs' n)
  let g : (n : Nat) → { x // P n x } := fun n => Nat.rec ⟨x, h0⟩ pick n
  exact ⟨fun n => (g n).1, rfl, fun n => hp n (g n)⟩

section

variable {f : Formula} {t : Tableau}

theorem Tableau.Unfolds.exists_fair_run (ht : t.Unfolds f) {G : Guards} {w : Word}
    (h : f.HoldsAt G w 0) :
    ∃ run, (Automaton.ofTableau f t).IsRunFrom G t.init w run ∧ t.Fair run := by
  have hroot : ∀ d ∈ t.due t.init, (t.arena.formula d).HoldsAt G w 0 := by
    intro d hd
    have hd : d = t.root := IndexSet.mem_singleton.1 hd
    rwa [hd, ht.formula_root, Formula.holdsAt_nnf]
  obtain ⟨g, hg0, hg⟩ := exists_sequence
    (P := fun n i => ∀ d ∈ t.due i, (t.arena.formula d).HoldsAt G w n) hroot
    fun n i hi => ht.exists_true_step (Formula.holdsAt_unwinds G w) hi
  have hrun : (Automaton.ofTableau f t).IsRunFrom G t.init w fun n => g (n + 1) := by
    refine ⟨?_, ?_, fun n => (hg n).2.1⟩
    · have hout := (hg 0).1
      rwa [hg0, ← Automaton.out_ofTableau (f := f)] at hout
    · intro n
      have hout := (hg (n + 1)).1
      rwa [← Automaton.out_ofTableau (f := f)] at hout
  refine ⟨fun n => g (n + 1), hrun, ?_⟩
  intro i u a b he hu
  have hh := ((hg i).2.2 u hu).1
  rw [Arena.formula_eq, he] at hh
  obtain ⟨j, hj, hb, _⟩ := hh
  obtain ⟨d, rfl⟩ := Nat.exists_eq_add_of_le hj
  -- If the until is still met when its right side is true, the right side is met with it.
  rcases (ht.consistent hrun).fulfilled_or_persists he hu d with hm | hm
  · exact hm
  · exact ⟨i + d, hj, ((hg (i + d)).2.2 u hm).2 a b he hb⟩

end

/-- The automaton of a formula recognises the words that satisfy it. -/
theorem holdsAt_iff_exists_fair_run (G : Guards) (f : Formula) (w : Word) :
    f.HoldsAt G w 0 ↔ ∃ run,
      (Automaton.ofTableau f (.build f)).IsRunFrom G (Automaton.ofTableau f (.build f)).initial w run ∧
      (Tableau.build f).Fair run := by
  have ht : (Tableau.build f).Unfolds f := Tableau.buildWith_unfolds _ f
  constructor
  · exact ht.exists_fair_run
  · intro hh
    obtain ⟨run, hr, hf⟩ := hh
    exact ht.holdsAt_of_run hr hf

end TemporalMonitor
