import TemporalMonitor.Proofs.FirstVerdict

/-! The states a monitor stands in between events. After an event it is back at its initial state, or
it is underway: it stands in some states, none of them initial or final, and narrowing has left those
with propositions to match only, or none of these. -/

namespace TemporalMonitor

section

variable {A : Automaton} {σ : Type} {G : Guards}

structure Monitor.Underway (m : Monitor A σ) : Prop where
  nonempty : ∃ i, i ∈ m.current
  not_initial : ¬ A.initial ∈ m.current
  not_final : ∀ i ∈ m.current, (A.state i).isFinal = false
  uniform : (∀ i ∈ m.current, (A.state i).hasObligations = true) ∨
    ∀ i ∈ m.current, (A.state i).hasObligations = false

theorem Automaton.uniform_narrow (s : IndexSet A.size) :
    (∀ i ∈ A.narrow s, (A.state i).hasObligations = true) ∨
      ∀ i ∈ A.narrow s, (A.state i).hasObligations = false := by
  by_cases hany : (s.toList.any fun i => (A.state i).hasObligations) = true
  · left
    intro i hi
    rw [narrow, if_pos hany] at hi
    exact (IndexSet.mem_filter.1 hi).2
  · right
    intro i hi
    rw [narrow, if_neg hany] at hi
    have hnone := List.any_eq_false.1 (Bool.eq_false_iff.2 hany)
    exact Bool.eq_false_iff.2 (hnone i (IndexSet.mem_toList.2 hi))

theorem Monitor.underway_accept [Sink σ] (hA : ∀ i, ¬ A.initial ∈ (A.state i).out)
    {m : Monitor A σ} {e : Event} (hv : A.verdict (m.advance G e) = .ongoing) :
    (m.accept G e).monitor.Underway := by
  have hc := m.current_accept (G := G) e
  rw [if_pos hv] at hc
  obtain ⟨hne, hfin⟩ := Automaton.verdict_eq_ongoing_iff.1 hv
  exact ⟨hc ▸ hne, hc ▸ m.initial_not_mem_advance hA e, hc ▸ hfin, hc ▸ A.uniform_narrow _⟩

theorem Monitor.Underway.atInitial_eq_false {m : Monitor A σ} (h : m.Underway) :
    m.atInitial = false := by
  apply decide_eq_false
  intro he
  apply h.not_initial
  rw [he]
  exact IndexSet.mem_singleton.2 rfl

/-- The last of the events, if there is one, was accepted or rejected. -/
def Monitor.Restarted [Sink σ] (G : Guards) (m : Monitor A σ) (es : List Event) : Prop :=
  es = [] ∨ (m.feed G es).stats.accepted = (m.feed G es.dropLast).stats.accepted + 1 ∨
    (m.feed G es).stats.rejected = (m.feed G es.dropLast).stats.rejected + 1

theorem Monitor.restarted_append_singleton [Sink σ] {m : Monitor A σ} {es : List Event} {e : Event} :
    m.Restarted G (es ++ [e]) ↔ A.verdict ((m.feed G es).advance G e) ≠ .ongoing := by
  rw [Restarted, List.dropLast_concat, feed_append_singleton, accepted_accept, rejected_accept]
  cases A.verdict ((m.feed G es).advance G e) <;> simp

theorem Monitor.restarted_or_underway [Sink σ] (hA : ∀ i, ¬ A.initial ∈ (A.state i).out) (sink : σ)
    (es : List Event) :
    let m := Monitor.start A sink
    m.Restarted G es ∧ (m.feed G es).current = {A.initial} ∨
      ¬ m.Restarted G es ∧ (m.feed G es).Underway := by
  intro m
  rcases es.eq_nil_or_concat with rfl | ⟨past, e, rfl⟩
  · exact .inl ⟨.inl rfl, rfl⟩
  · rw [List.concat_eq_append, restarted_append_singleton, feed_append_singleton, current_accept]
    by_cases hv : A.verdict ((m.feed G past).advance G e) = .ongoing
    · exact .inr ⟨fun hne => hne hv, underway_accept hA hv⟩
    · exact .inl ⟨hv, if_neg hv⟩

end

theorem lookup_val {n : Nat} (i : Fin n) : lookup n i.val = .ok i :=
  dif_pos i.isLt

theorem Automaton.exists_source (f : Formula) {j : Fin (Tableau.build f).size} {p : Nat}
    (hp : p ∈ ((Tableau.build f).node j).incoming) :
    ∃ i, lookup (ofTableau f (.build f)).size p = .ok i ∧
      j ∈ ((ofTableau f (.build f)).state i).out := by
  have hlt : p < (Tableau.build f).size :=
    Tableau.lt_size_of_mem_incoming (Arena.unfold_exact _ _ _) hp
  let i : Fin (Tableau.build f).size := ⟨p, hlt⟩
  have hout : j ∈ ((ofTableau f (.build f)).state i).out := by
    rw [out_ofTableau]
    exact Tableau.mem_out.2 hp
  exact ⟨i, lookup_val i, hout⟩

/-- The states of a monitor after any events. Every id that is looked up on the way is that of a
state: a current one, a successor of one, or the source of an edge of the tableau. -/
theorem current_states_invariant {σ : Type} [Sink σ] (G : Guards) (f : Formula) (sink : σ)
    (es : List Event) :
    let t := Tableau.build f
    let A := Automaton.ofTableau f t
    let m := (Monitor.start A sink).feed G es
    ((∃ i, i ∈ m.current) ∧
      (∀ i ∈ m.current, lookup A.size i.val = .ok i ∧
        ∀ j ∈ (A.state i).out, lookup A.size j.val = .ok j) ∧
      ∀ j p, p ∈ (t.node j).incoming → ∃ i, lookup A.size p = .ok i ∧ j ∈ (A.state i).out) ∧
    (A.initial ∈ m.current ↔ m.atInitial = true) ∧
    (m.atInitial = true ↔ (Monitor.start A sink).Restarted G es) ∧
    (m.atInitial = false →
      (∀ i ∈ m.current, (A.state i).isFinal = false) ∧
      ((∀ i ∈ m.current, (A.state i).hasObligations = true) ∨
        ∀ i ∈ m.current, (A.state i).hasObligations = false)) := by
  intro t A m
  have hlook : ∀ i ∈ m.current, lookup A.size i.val = .ok i ∧
      ∀ j ∈ (A.state i).out, lookup A.size j.val = .ok j :=
    fun i _ => ⟨lookup_val i, fun j _ => lookup_val j⟩
  have hsource : ∀ j p, p ∈ (t.node j).incoming →
      ∃ i, lookup A.size p = .ok i ∧ j ∈ (A.state i).out :=
    fun _ _ => Automaton.exists_source f
  have hA : ∀ i, ¬ A.initial ∈ (A.state i).out := Automaton.initial_not_mem_out f t
  rcases Monitor.restarted_or_underway (G := G) hA sink es with ⟨hr, hc⟩ | ⟨hr, hu⟩
  · have hmem : A.initial ∈ m.current := by
      rw [hc]
      exact IndexSet.mem_singleton.2 rfl
    have hat : m.atInitial = true := decide_eq_true hc
    refine ⟨⟨⟨_, hmem⟩, hlook, hsource⟩, ⟨fun _ => hat, fun _ => hmem⟩,
      ⟨fun _ => hr, fun _ => hat⟩, ?_⟩
    intro hn
    rw [hat] at hn
    cases hn
  · have hat : m.atInitial = false := hu.atInitial_eq_false
    have hne : ¬ m.atInitial = true := by simp [hat]
    exact ⟨⟨hu.nonempty, hlook, hsource⟩,
      ⟨fun h => absurd h hu.not_initial, fun h => absurd h hne⟩,
      ⟨fun h => absurd h hne, fun h => absurd h hr⟩, fun _ => ⟨hu.not_final, hu.uniform⟩⟩

end TemporalMonitor
