import Mathlib.Data.List.Perm.Basic
import Mathlib.Logic.Equiv.Defs
import TemporalMonitor.Proofs.Firings

/-! Isomorphic automata. States may be renamed, and a state may list its propositions in another
order. Two monitors of isomorphic automata that are fed with the same events stay in step: their
current states are the same up to renaming, so they give the same verdicts, fire the same triggers up
to order, and count the same. -/

namespace TemporalMonitor

section

variable {m n : Nat}

def IndexSet.map (ρ : Fin m ≃ Fin n) (s : IndexSet m) : IndexSet n :=
  .select fun j => s.contains (ρ.symm j)

@[simp] theorem IndexSet.mem_map {ρ : Fin m ≃ Fin n} {s : IndexSet m} {j : Fin n} :
    j ∈ s.map ρ ↔ ρ.symm j ∈ s := by
  simp [map, contains_iff]

theorem IndexSet.apply_mem_map {ρ : Fin m ≃ Fin n} {s : IndexSet m} {i : Fin m} :
    ρ i ∈ s.map ρ ↔ i ∈ s := by
  simp

@[simp] theorem IndexSet.map_map_symm (ρ : Fin m ≃ Fin n) (s : IndexSet m) :
    (s.map ρ).map ρ.symm = s :=
  ext fun i => by simp

theorem IndexSet.map_injective (ρ : Fin m ≃ Fin n) : Function.Injective (IndexSet.map ρ) := by
  intro s t h
  rw [← map_map_symm ρ s, h, map_map_symm]

@[simp] theorem IndexSet.map_empty (ρ : Fin m ≃ Fin n) : (∅ : IndexSet m).map ρ = ∅ :=
  ext fun i => by simp

@[simp] theorem IndexSet.map_singleton (ρ : Fin m ≃ Fin n) (i : Fin m) :
    ({i} : IndexSet m).map ρ = {ρ i} :=
  ext fun j => by simp [Equiv.symm_apply_eq]

theorem IndexSet.perm_toList_map (ρ : Fin m ≃ Fin n) (s : IndexSet m) :
    (s.map ρ).toList.Perm (s.toList.map ρ) := by
  refine (List.perm_ext_iff_of_nodup (nodup_toList _) (s.nodup_toList.map ρ.injective)).2 ?_
  intro j
  rw [mem_toList, mem_map, List.mem_map]
  constructor
  · intro hj
    exact ⟨ρ.symm j, mem_toList.2 hj, ρ.apply_symm_apply j⟩
  · intro hh
    obtain ⟨i, hi, rfl⟩ := hh
    rwa [ρ.symm_apply_apply, ← mem_toList]

theorem IndexSet.any_toList_map {ρ : Fin m ≃ Fin n} {p : Fin m → Bool} {q : Fin n → Bool}
    (h : ∀ i, q (ρ i) = p i) (s : IndexSet m) : (s.map ρ).toList.any q = s.toList.any p := by
  rw [(s.perm_toList_map ρ).any_eq, List.any_map]
  exact congrArg s.toList.any (funext h)

end

/-- A renaming of states that keeps edges, finality and what each state asks for. -/
structure Automaton.Iso (A B : Automaton) where
  rename : Fin A.size ≃ Fin B.size
  initial : rename A.initial = B.initial
  out : ∀ i, (B.state (rename i)).out = (A.state i).out.map rename
  propositions : ∀ i, (B.state (rename i)).propositions.Perm (A.state i).propositions
  negated : ∀ i, (B.state (rename i)).negated.Perm (A.state i).negated
  isFinal : ∀ i, (B.state (rename i)).isFinal = (A.state i).isFinal

section

variable {A B : Automaton} {G : Guards} (φ : A.Iso B)

theorem Automaton.Iso.satisfiedBy_rename (i : Fin A.size) (e : Event) :
    (B.state (φ.rename i)).satisfiedBy G e = (A.state i).satisfiedBy G e := by
  rw [State.satisfiedBy, State.satisfiedBy, (φ.negated i).any_eq, (φ.propositions i).all_eq]

theorem Automaton.Iso.hasObligations_rename (i : Fin A.size) :
    (B.state (φ.rename i)).hasObligations = (A.state i).hasObligations := by
  rw [State.hasObligations, State.hasObligations, (φ.propositions i).isEmpty_eq]

theorem Automaton.Iso.matching_map (s : IndexSet A.size) (e : Event) :
    B.matching G e (B.candidates (s.map φ.rename)) =
      (A.matching G e (A.candidates s)).map φ.rename := by
  apply IndexSet.ext
  intro j
  obtain ⟨j, rfl⟩ := φ.rename.surjective j
  rw [IndexSet.apply_mem_map, mem_matching_candidates, mem_matching_candidates,
    φ.satisfiedBy_rename]
  constructor
  · intro hh
    obtain ⟨i, hi, hj, he⟩ := hh
    obtain ⟨i, rfl⟩ := φ.rename.surjective i
    rw [φ.out, IndexSet.apply_mem_map] at hj
    exact ⟨i, IndexSet.apply_mem_map.1 hi, hj, he⟩
  · intro hh
    obtain ⟨i, hi, hj, he⟩ := hh
    refine ⟨φ.rename i, IndexSet.apply_mem_map.2 hi, ?_, he⟩
    rwa [φ.out, IndexSet.apply_mem_map]

theorem Automaton.Iso.narrow_map (s : IndexSet A.size) :
    B.narrow (s.map φ.rename) = (A.narrow s).map φ.rename := by
  rw [narrow, narrow, IndexSet.any_toList_map φ.hasObligations_rename]
  split
  · apply IndexSet.ext
    intro j
    obtain ⟨j, rfl⟩ := φ.rename.surjective j
    simp only [IndexSet.mem_filter, IndexSet.apply_mem_map, φ.hasObligations_rename]
  · rfl

theorem Automaton.Iso.verdict_map (s : IndexSet A.size) :
    B.verdict (s.map φ.rename) = A.verdict s := by
  have hempty : (s.map φ.rename).isEmpty = s.isEmpty := by
    rw [Bool.eq_iff_iff, IndexSet.isEmpty_iff, IndexSet.isEmpty_iff]
    refine φ.rename.symm.forall_congr fun j => ?_
    rw [IndexSet.mem_map]
  rw [verdict, verdict, IndexSet.any_toList_map φ.isFinal, hempty]

theorem Automaton.map_proposition_firings (i : Fin A.size) :
    (A.firings i).map Firing.proposition =
      (A.state i).propositions.filter Proposition.hasTrigger := by
  rw [firings, List.map_filterMap, ← List.filterMap_eq_filter]
  congr 1
  funext p
  cases ht : p.trigger <;> simp [Proposition.hasTrigger, ht, Option.guard]

theorem Automaton.Iso.perm_firings_map (s : IndexSet A.size) :
    (((s.map φ.rename).toList.flatMap B.firings).map Firing.proposition).Perm
      ((s.toList.flatMap A.firings).map Firing.proposition) := by
  rw [List.map_flatMap, List.map_flatMap]
  refine ((s.perm_toList_map φ.rename).flatMap_right _).trans ?_
  rw [List.flatMap_map]
  apply List.Perm.flatMap_left
  intro i _
  rw [map_proposition_firings, map_proposition_firings]
  exact (φ.propositions i).filter _

end

structure Tableau.Iso (t u : Tableau) where
  rename : Fin t.size ≃ Fin u.size
  init : rename t.init = u.init
  out : ∀ i, u.out (rename i) = (t.out i).map rename
  propositions : ∀ i, (u.propositions (rename i)).Perm (t.propositions i)
  negated : ∀ i, (u.negated (rename i)).Perm (t.negated i)

section

variable {t u : Tableau}

theorem Tableau.Iso.isSeed_rename (φ : t.Iso u) (i : Fin t.size) :
    u.isSeed (φ.rename i) = t.isSeed i := by
  rw [isSeed, isSeed, (φ.propositions i).isEmpty_eq, (φ.negated i).isEmpty_eq, φ.out,
    ← IndexSet.map_singleton φ.rename i]
  simp only [(IndexSet.map_injective φ.rename).eq_iff]

theorem Tableau.Iso.any_seeds_rename (φ : t.Iso u) (i : Fin t.size) :
    (u.out (φ.rename i)).toList.any u.seeds.contains = (t.out i).toList.any t.seeds.contains := by
  have hseeds : ∀ j, u.seeds.contains (φ.rename j) = t.seeds.contains j := by
    intro j
    rw [Bool.eq_iff_iff, IndexSet.contains_iff, IndexSet.contains_iff, seeds, seeds,
      IndexSet.mem_select, IndexSet.mem_select, φ.isSeed_rename]
  rw [φ.out]
  exact IndexSet.any_toList_map hseeds _

def Tableau.Iso.automaton (φ : t.Iso u) (f g : Formula) :
    (Automaton.ofTableau f t).Iso (.ofTableau g u) where
  rename := φ.rename
  initial := φ.init
  out i := by
    have hi : ((Automaton.ofTableau f t).state i).out = t.out i := Automaton.out_ofTableau i
    exact (Automaton.out_ofTableau _).trans ((φ.out i).trans (congrArg _ hi.symm))
  propositions i := by
    have hi : ((Automaton.ofTableau f t).state i).propositions = t.propositions i :=
      Automaton.propositions_ofTableau i
    rw [hi]
    exact (List.Perm.of_eq (Automaton.propositions_ofTableau _)).trans (φ.propositions i)
  negated i := by
    have hi : ((Automaton.ofTableau f t).state i).negated = t.negated i :=
      Automaton.negated_ofTableau i
    rw [hi]
    exact (List.Perm.of_eq (Automaton.negated_ofTableau _)).trans (φ.negated i)
  isFinal i := by
    -- Finality is read off the edges and literals, so it is kept when they are.
    have hfinal : ∀ (h : Formula) (v : Tableau) (j : Fin v.size),
        ((Automaton.ofTableau h v).state j).isFinal = (v.out j).toList.any v.seeds.contains := by
      intro h v j
      rw [Automaton.state_ofTableau]
    exact (hfinal g u _).trans ((φ.any_seeds_rename i).trans (hfinal f t i).symm)

end

section

variable {A B : Automaton} {σ τ : Type} {G : Guards}

/-- The monitors are in the same states up to renaming, and have counted the same. -/
structure Automaton.Iso.InStep (φ : A.Iso B) (m : Monitor A σ) (m' : Monitor B τ) : Prop where
  current : m'.current = m.current.map φ.rename
  stats : m'.stats = m.stats

variable {φ : A.Iso B} {m : Monitor A σ} {m' : Monitor B τ}

theorem Automaton.Iso.inStep_start (φ : A.Iso B) (sink : σ) (sink' : τ) :
    φ.InStep (Monitor.start A sink) (Monitor.start B sink') := by
  refine ⟨?_, rfl⟩
  show {B.initial} = IndexSet.map φ.rename {A.initial}
  rw [IndexSet.map_singleton, φ.initial]

theorem Automaton.Iso.InStep.advance (h : φ.InStep m m') (e : Event) :
    m'.advance G e = (m.advance G e).map φ.rename := by
  rw [Monitor.advance, Monitor.advance, h.current, φ.matching_map, φ.narrow_map]

theorem Automaton.Iso.InStep.verdict_advance (h : φ.InStep m m') (e : Event) :
    B.verdict (m'.advance G e) = A.verdict (m.advance G e) := by
  rw [h.advance, φ.verdict_map]

variable [Sink σ] [Sink τ]

theorem Automaton.Iso.InStep.perm_firings (h : φ.InStep m m') (e : Event) :
    ((m'.accept G e).firings.map Firing.proposition).Perm
      ((m.accept G e).firings.map Firing.proposition) := by
  rw [Monitor.firings_accept, Monitor.firings_accept, Monitor.entered, Monitor.entered, h.current,
    φ.matching_map]
  exact φ.perm_firings_map _

theorem Automaton.Iso.InStep.length_firings (h : φ.InStep m m') (e : Event) :
    (m'.accept G e).firings.length = (m.accept G e).firings.length := by
  simpa using (h.perm_firings (G := G) e).length_eq

theorem Automaton.Iso.InStep.accept (h : φ.InStep m m') (e : Event) :
    φ.InStep (m.accept G e).monitor (m'.accept G e).monitor := by
  refine ⟨?_, ?_⟩
  · rw [Monitor.current_accept, Monitor.current_accept, h.verdict_advance]
    split
    · exact h.advance e
    · rw [IndexSet.map_singleton, φ.initial]
  · rw [Monitor.stats_accept, Monitor.stats_accept, h.verdict_advance, h.length_firings, h.stats]

theorem Automaton.Iso.InStep.feed (h : φ.InStep m m') (es : List Event) :
    φ.InStep (m.feed G es) (m'.feed G es) := by
  induction es generalizing m m' with
  | nil => exact h
  | cons e es ih => exact ih (h.accept e)

end

end TemporalMonitor
