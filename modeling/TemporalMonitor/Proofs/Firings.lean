import Mathlib.Data.List.Nodup
import TemporalMonitor.Proofs.FirstVerdict
import TemporalMonitor.Proofs.PickOrder

/-! Which triggers an event fires. The triggers of each state that the event enters fire once, before
narrowing, so a proposition fires as often as the event enters a state that lists it. That is at most
once for a formula without forks, whose monitor has at most one state to enter. -/

namespace TemporalMonitor

theorem length_le_one_of_nodup {α : Type} {l : List α} (hn : l.Nodup)
    (h : ∀ x ∈ l, ∀ y ∈ l, x = y) : l.length ≤ 1 := by
  match l with
  | [] | [_] => simp
  | x :: y :: l =>
    have hxy : x = y := h x (by simp) y (by simp)
    simp [hxy] at hn

theorem IndexSet.nodup_toList {n : Nat} (s : IndexSet n) : s.toList.Nodup :=
  (List.nodup_finRange n).filter _

theorem IndexSet.toList_filter {n : Nat} (p : Fin n → Bool) (s : IndexSet n) :
    (s.filter p).toList = s.toList.filter p := by
  rw [toList, toList, List.filter_filter]
  apply List.filter_congr
  intro i _
  rw [Bool.eq_iff_iff, contains_iff, mem_filter, Bool.and_eq_true, and_comm]
  rfl

def IndexSet.AtMostOne {n : Nat} (s : IndexSet n) : Prop :=
  ∀ i ∈ s, ∀ j ∈ s, i = j

theorem IndexSet.atMostOne_singleton {n : Nat} (i : Fin n) : ({i} : IndexSet n).AtMostOne :=
  fun _ hj _ hk => (mem_singleton.1 hj).trans (mem_singleton.1 hk).symm

theorem IndexSet.AtMostOne.mono {n : Nat} {s t : IndexSet n} (h : t.AtMostOne)
    (hst : ∀ i ∈ s, i ∈ t) : s.AtMostOne :=
  fun i hi j hj => h i (hst i hi) j (hst j hj)

theorem IndexSet.AtMostOne.size_le {n : Nat} {s : IndexSet n} (h : s.AtMostOne) : s.size ≤ 1 :=
  length_le_one_of_nodup s.nodup_toList fun i hi j hj => h i (mem_toList.1 hi) j (mem_toList.1 hj)

section

variable {A : Automaton} {σ : Type} {G : Guards}

/-- The states that an event enters, before narrowing. -/
def Monitor.entered (G : Guards) (m : Monitor A σ) (e : Event) : IndexSet A.size :=
  A.matching G e (A.candidates m.current)

theorem Monitor.firings_accept [Sink σ] (m : Monitor A σ) (e : Event) :
    (m.accept G e).firings = (m.entered G e).toList.flatMap A.firings := by
  have hvisits : ∀ l : List (Fin A.size), (l.flatMap fun i =>
      if (A.state i).satisfiedBy G e then (A.firings i).map Visit.firing else [.mismatch i]).filterMap
        Visit.firing? = (l.filter fun i => (A.state i).satisfiedBy G e).flatMap A.firings := by
    intro l
    induction l with
    | nil => rfl
    | cons i l ih =>
      rw [List.flatMap_cons, List.filterMap_append, ih, List.filter_cons]
      split
      · have hid : (A.firings i).filterMap (Visit.firing? ∘ Visit.firing) = A.firings i :=
          List.filterMap_some
        rw [List.filterMap_map, hid, List.flatMap_cons]
      · rfl
  rw [entered, Automaton.matching, IndexSet.toList_filter]
  exact hvisits _

theorem Automaton.mem_firings {i : Fin A.size} {x : Firing A.size} :
    x ∈ A.firings i ↔ x.state = i ∧ x.proposition ∈ (A.state i).propositions ∧
      x.proposition.trigger = some x.trigger := by
  obtain ⟨j, p, t⟩ := x
  simp only [firings, List.mem_filterMap, Option.map_eq_some_iff, Firing.mk.injEq]
  constructor
  · intro hh
    obtain ⟨q, hq, u, hu, rfl, rfl, rfl⟩ := hh
    exact ⟨rfl, hq, hu⟩
  · intro hh
    obtain ⟨rfl, hp, ht⟩ := hh
    exact ⟨p, hp, t, ht, rfl, rfl, rfl⟩

theorem Automaton.nodup_firings {i : Fin A.size} (hn : (A.state i).propositions.Nodup) :
    (A.firings i).Nodup := by
  apply hn.filterMap
  intro p q x hp hq
  obtain ⟨_, _, rfl⟩ := Option.map_eq_some_iff.1 hp
  obtain ⟨_, _, hx⟩ := Option.map_eq_some_iff.1 hq
  exact (congrArg Firing.proposition hx).symm

theorem Automaton.length_firings_le_one {i : Fin A.size} (hn : (A.state i).propositions.Nodup)
    (h : ∀ p ∈ (A.state i).propositions, ∀ q ∈ (A.state i).propositions,
      p.hasTrigger = true → q.hasTrigger = true → p = q) : (A.firings i).length ≤ 1 := by
  apply length_le_one_of_nodup (nodup_firings hn)
  rintro ⟨j, p, t⟩ hx ⟨k, q, u⟩ hy
  obtain ⟨rfl, hp, ht⟩ := mem_firings.1 hx
  obtain ⟨rfl, hq, hu⟩ := mem_firings.1 hy
  obtain rfl : p = q := h p hp q hq (Option.isSome_of_eq_some ht) (Option.isSome_of_eq_some hu)
  obtain rfl : t = u := Option.some.inj (ht.symm.trans hu)
  rfl

theorem Monitor.mem_firings_accept [Sink σ] {m : Monitor A σ} {e : Event} {x : Firing A.size} :
    x ∈ (m.accept G e).firings ↔ x.state ∈ m.entered G e ∧
      x.proposition ∈ (A.state x.state).propositions ∧ x.proposition.trigger = some x.trigger := by
  simp only [firings_accept, List.mem_flatMap, IndexSet.mem_toList, Automaton.mem_firings]
  constructor
  · intro hh
    obtain ⟨i, hi, rfl, h⟩ := hh
    exact ⟨hi, h⟩
  · intro hh
    exact ⟨x.state, hh.1, rfl, hh.2⟩

variable {p : Proposition}

theorem Automaton.countP_firings {i : Fin A.size} (hn : (A.state i).propositions.Nodup)
    (hp : p.hasTrigger = true) :
    (A.firings i).countP (fun x => x.proposition = p) =
      if p ∈ (A.state i).propositions then 1 else 0 := by
  obtain ⟨t, ht⟩ := Option.isSome_iff_exists.1 hp
  have heq : ∀ q : Proposition, ((q.trigger.map fun t => (⟨i, q, t⟩ : Firing A.size)).map
      fun x => decide (x.proposition = p)).getD false = (q == p) := by
    intro q
    by_cases hq : q = p
    · simp [hq, ht]
    · cases q.trigger <;> simp [hq]
  rw [firings, List.countP_filterMap, List.countP_congr fun q _ => by rw [heq q]]
  exact hn.count

/-- Counted over states `l` of a given kind: one firing for each that lists the proposition. -/
theorem Automaton.countP_flatMap_firings (hn : ∀ i, (A.state i).propositions.Nodup)
    (hp : p.hasTrigger = true) (kind : Fin A.size → Bool) (l : List (Fin A.size)) :
    (l.flatMap A.firings).countP (fun x => kind x.state && x.proposition = p) =
      l.countP fun i => kind i && (A.state i).propositions.contains p := by
  induction l with
  | nil => rfl
  | cons i l ih =>
    have hstate : (A.firings i).countP (fun x => kind x.state && x.proposition = p) =
        (A.firings i).countP fun x => kind i && x.proposition = p :=
      List.countP_congr fun x hx => by rw [(mem_firings.1 hx).1]
    rw [List.flatMap_cons, List.countP_append, ih, List.countP_cons, Nat.add_comm, hstate]
    congr 1
    by_cases hk : kind i = true
    · simp [hk, countP_firings (hn i) hp]
    · simp [hk]

theorem Monitor.countP_firings_accept [Sink σ] (hn : ∀ i, (A.state i).propositions.Nodup)
    (hp : p.hasTrigger = true) (m : Monitor A σ) (e : Event) :
    (m.accept G e).firings.countP (fun x => x.proposition = p) =
      ((m.entered G e).filter fun i => (A.state i).propositions.contains p).size := by
  have hcount := Automaton.countP_flatMap_firings hn hp (fun _ => true) (m.entered G e).toList
  simp only [Bool.true_and] at hcount
  rw [firings_accept, hcount, IndexSet.size, IndexSet.toList_filter, List.countP_eq_length_filter]

theorem Monitor.countP_firings_accept_at [Sink σ] (hn : ∀ i, (A.state i).propositions.Nodup)
    (hp : p.hasTrigger = true) (m : Monitor A σ) (e : Event) (i : Fin A.size) :
    (m.accept G e).firings.countP (fun x => x.state = i && x.proposition = p) =
      if i ∈ m.entered G e ∧ p ∈ (A.state i).propositions then 1 else 0 := by
  have heq : ∀ j, (decide (j = i) && (A.state j).propositions.contains p) =
      (j == i && (A.state i).propositions.contains p) := by
    intro j
    by_cases hj : j = i <;> simp [hj]
  have hcount := (m.entered G e).nodup_toList.count (a := i)
  rw [firings_accept, Automaton.countP_flatMap_firings hn hp (fun j => j = i),
    List.countP_congr fun j _ => by rw [heq j]]
  by_cases hi : p ∈ (A.state i).propositions
  · simpa [hi, List.count] using hcount
  · simp [hi]

end

section

variable {t : Tableau}

theorem Tableau.nodup_propositions (hn : t.arena.entries.toList.Nodup) (i : Fin t.size) :
    (t.propositions i).Nodup := by
  refine List.Nodup.filter _ ((t.node i).satisfied.nodup_toList.filterMap ?_)
  intro u v p hu hv
  have hu : t.arena.expr u = .prop p := Arena.proposition?_eq_some_iff.1 hu
  have hv : t.arena.expr v = .prop p := Arena.proposition?_eq_some_iff.1 hv
  exact Arena.expr_injective hn (hu.trans hv.symm)

theorem Tableau.nodup_entries_build (f : Formula) : (Tableau.build f).arena.entries.toList.Nodup :=
  Arena.nodup_intern (A := .empty) (by simp [Arena.empty]) _

theorem Automaton.nodup_propositions_build (f : Formula) (i : Fin (Tableau.build f).size) :
    ((Automaton.ofTableau f (.build f)).state i).propositions.Nodup := by
  rw [propositions_ofTableau]
  exact Tableau.nodup_propositions (Tableau.nodup_entries_build f) i

end

/-- No obligation of the formula can be met in two ways. -/
def Formula.ForkFree (f : Formula) : Prop :=
  ∀ a b, .or a b ∉ f.subformulas ∧ .until a b ∉ f.subformulas ∧ .release a b ∉ f.subformulas

section

variable {A : Arena}

theorem Arena.branch_unique_of_forkFree {f : Formula} (hf : f.ForkFree) {u : Fin A.size}
    (hu : A.formula u ∈ f.subformulas) {b c : Branch (Fin A.size)} (hb : b ∈ (A.rule u).branches)
    (hc : c ∈ (A.rule u).branches) : b = c := by
  rw [formula_eq] at hu
  cases he : A.expr u with
  | prop p =>
    rw [branches_eq he, Expr.rule] at hb hc
    split at hb <;> simp_all [Rule.branches]
  | not a | next a | and a a' =>
    rw [branches_eq he, Expr.rule, Rule.branches, List.mem_singleton] at hb hc
    exact hb.trans hc.symm
  | or a a' => exact absurd (he ▸ hu) (hf _ _).1
  | «until» a a' => exact absurd (he ▸ hu) (hf _ _).2.1
  | release a a' => exact absurd (he ▸ hu) (hf _ _).2.2

/-- With one branch for each obligation all choices agree on what comes up. -/
theorem Arena.Expands.unique (hone : ∀ (u : Fin A.size) (b c : Branch (Fin A.size)),
      b ∈ (A.rule u).branches → c ∈ (A.rule u).branches → b = c)
    {due : IndexSet A.size} {key key' : Key A.size} (h : A.Expands due key)
    (h' : A.Expands due key') : key = key' := by
  obtain ⟨choice, hc⟩ := h
  obtain ⟨choice', hc'⟩ := h'
  have hder : ∀ u, Derives choice due ∅ u → Derives choice' due ∅ u := by
    intro u hu
    induction hu with
    | pending hp => exact .pending hp
    | now hi hn h ih =>
      have he := hone _ _ _ (hc.choice_mem _ hi) (hc'.choice_mem _ ih)
      exact .now ih (he ▸ hn) h
  have hk := hc.congr fun u hu => hone u _ _ (hc.choice_mem u hu) (hc'.choice_mem u (hder u hu))
  exact Prod.ext (IndexSet.ext fun u => (hk.satisfied u).trans (hc'.satisfied u).symm)
    (IndexSet.ext fun u => (hk.deferred u).trans (hc'.deferred u).symm)

theorem Tableau.atMostOne_out_of_forkFree {f : Formula} (hf : f.nnf.ForkFree)
    (i : Fin (Tableau.build f).size) : ((Tableau.build f).out i).AtMostOne := by
  intro j hj k hk
  have ht : (Tableau.build f).Unfolds f := Tableau.buildWith_unfolds _ f
  have hkey := (ht.expands hj).unique (fun u b c => Arena.branch_unique_of_forkFree hf
    (Arena.formula_mem_subformulas f.nnf u)) (ht.expands hk)
  apply Tableau.label_build_injective f
  rw [label_of_mem_out hj, label_of_mem_out hk, hkey]

end

section

variable {A : Automaton} {σ : Type} {G : Guards} {m : Monitor A σ}

theorem Monitor.atMostOne_entered (hout : ∀ i, (A.state i).out.AtMostOne)
    (h : m.current.AtMostOne) (e : Event) : (m.entered G e).AtMostOne := by
  intro i hi j hj
  obtain ⟨a, ha, hia, _⟩ := Automaton.mem_matching_candidates.1 hi
  obtain ⟨b, hb, hjb, _⟩ := Automaton.mem_matching_candidates.1 hj
  exact hout a i hia j (h b hb a ha ▸ hjb)

theorem Monitor.atMostOne_accept [Sink σ] (hout : ∀ i, (A.state i).out.AtMostOne)
    (h : m.current.AtMostOne) (e : Event) : (m.accept G e).monitor.current.AtMostOne := by
  rw [current_accept]
  split
  · exact (atMostOne_entered hout h e).mono fun _ hi => Automaton.mem_of_mem_narrow hi
  · exact IndexSet.atMostOne_singleton _

theorem Monitor.atMostOne_feed [Sink σ] (hout : ∀ i, (A.state i).out.AtMostOne)
    (h : m.current.AtMostOne) (es : List Event) : (m.feed G es).current.AtMostOne := by
  induction es generalizing m with
  | nil => exact h
  | cons e es ih => exact ih (atMostOne_accept hout h e)

end

/-- On an event a triggered proposition fires exactly once in each state that the event enters and
that lists it. -/
theorem fires_once_per_state_entered {σ : Type} [Sink σ] {G : Guards} {f : Formula} {sink : σ}
    {c : Compiled σ} (hc : compile f sink = .ok c) (es : List Event) (e : Event) {p : Proposition}
    (hp : p.hasTrigger = true) :
    let m := c.monitor.feed G es
    let fired := (m.accept G e).firings
    (∀ i, fired.countP (fun x => x.state = i && x.proposition = p) =
      if i ∈ m.entered G e ∧ p ∈ (c.automaton.state i).propositions then 1 else 0) ∧
    fired.countP (fun x => x.proposition = p) =
      ((m.entered G e).filter fun i => (c.automaton.state i).propositions.contains p).size ∧
    (f.nnf.ForkFree → fired.countP (fun x => x.proposition = p) ≤ 1) := by
  obtain ⟨sink', notes, rfl⟩ := compile_eq_ok hc
  intro m fired
  have hn := Automaton.nodup_propositions_build f
  have hcount := Monitor.countP_firings_accept (G := G) hn hp m e
  refine ⟨m.countP_firings_accept_at hn hp e, hcount, ?_⟩
  intro hf
  have hout : ∀ i : Fin (Tableau.build f).size,
      ((Automaton.ofTableau f (.build f)).state i).out.AtMostOne := by
    intro i
    rw [Automaton.out_ofTableau]
    exact Tableau.atMostOne_out_of_forkFree hf i
  have hstart : (Monitor.start (.ofTableau f (.build f)) sink').current.AtMostOne :=
    IndexSet.atMostOne_singleton _
  have hcur : m.current.AtMostOne := Monitor.atMostOne_feed hout hstart es
  have hent := Monitor.atMostOne_entered (G := G) hout hcur e
  rw [hcount]
  exact (hent.mono fun i hi => (IndexSet.mem_filter.1 hi).1).size_le

/-- A trigger is due on the first event, and the next event is left open in two ways. -/
def branchingNext : Formula :=
  (Formula.prop ⟨.event "a", none, some (.callback "ring"), none⟩).and
    ((Formula.next (.prop ⟨.event "b", none, none, none⟩)).or
      (.next (.prop ⟨.event "c", none, none, none⟩)))

theorem countP_firings_branchingNext :
    ∃ c, compile branchingNext ({} : NullSink) = .ok c ∧
      (c.monitor.accept (fun _ _ => true) ⟨"a", none, []⟩).firings.countP
        (fun x => x.proposition = ⟨.event "a", none, some (.callback "ring"), none⟩) = 2 := by
  have hrun : (match compile branchingNext ({} : NullSink) with
      | .ok c => (c.monitor.accept (fun _ _ => true) ⟨"a", none, []⟩).firings.countP
          (fun x => x.proposition = ⟨.event "a", none, some (.callback "ring"), none⟩)
      | .error _ => 0) = 2 := by decide +kernel
  obtain ⟨c, hc⟩ := exists_compile (f := branchingNext) (by decide) ({} : NullSink)
  rw [hc] at hrun
  exact ⟨c, hc, hrun⟩

theorem trigger_may_fire_twice :
    ¬ ∀ (G : Guards) (f : Formula) (c : Compiled NullSink), compile f {} = .ok c →
      ∀ (es : List Event) (e : Event) (p : Proposition), p.hasTrigger = true →
        ((c.monitor.feed G es).accept G e).firings.countP (fun x => x.proposition = p) ≤ 1 := by
  intro h
  obtain ⟨c, hc, htwo⟩ := countP_firings_branchingNext
  have hone := h (fun _ _ => true) _ c hc [] ⟨"a", none, []⟩
    ⟨.event "a", none, some (.callback "ring"), none⟩ rfl
  exact absurd (Nat.le_trans (Nat.le_of_eq htwo.symm) hone) (by decide)

/-- The event enters both states after the fork; without the fork there is one state to enter. -/
theorem fires_once_per_state_entered_branchingNext :
    let p : Proposition := ⟨.event "a", none, some (.callback "ring"), none⟩
    let g := (Formula.prop p).and (.next (.prop ⟨.event "b", none, none, none⟩))
    let e : Event := ⟨"a", none, []⟩
    p.hasTrigger = true ∧ g.nnf.ForkFree ∧
    (∃ c, compile branchingNext ({} : NullSink) = .ok c ∧
      ((c.monitor.entered (fun _ _ => true) e).filter fun i =>
        (c.automaton.state i).propositions.contains p).size = 2) ∧
    ∃ c, compile g ({} : NullSink) = .ok c ∧
      (c.monitor.accept (fun _ _ => true) e).firings.countP (fun x => x.proposition = p) ≤ 1 := by
  intro p g e
  have hf : g.nnf.ForkFree := by
    intro a b
    simp [g, Formula.nnf, Formula.subformulas]
  refine ⟨rfl, hf, ?_, ?_⟩
  · obtain ⟨c, hc, htwo⟩ := countP_firings_branchingNext
    have hcount := (fires_once_per_state_entered (G := fun _ _ => true) hc [] e (p := p) rfl).2.1
    exact ⟨c, hc, hcount.symm.trans htwo⟩
  · obtain ⟨c, hc⟩ := exists_compile (f := g) (by decide) ({} : NullSink)
    exact ⟨c, hc, (fires_once_per_state_entered (G := fun _ _ => true) hc [] e (p := p) rfl).2.2 hf⟩

end TemporalMonitor
