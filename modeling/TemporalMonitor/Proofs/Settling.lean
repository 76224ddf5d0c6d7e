import TemporalMonitor.Proofs.Sessions

/-! Acceptance. A seed is entered by every event and never left, so a path to it can be continued for
ever along any word. When no until waits at the seed this continuation is fair, and every word that
goes on from the events accepted satisfies the formula. A seed at which an until does wait stands
for no word at all. -/

namespace TemporalMonitor

/-- A state that asks for nothing, and whose only edge is to itself. -/
def Automaton.IsSeed (A : Automaton) (z : Fin A.size) : Prop :=
  (A.state z).propositions = [] ∧ (A.state z).negated = [] ∧ (A.state z).out = {z}

instance (A : Automaton) (z : Fin A.size) : Decidable (A.IsSeed z) :=
  inferInstanceAs (Decidable (_ ∧ _ ∧ _))

/-- Some until is met at the node with an id while its right side is not. -/
def Tableau.Owes (t : Tableau) (id : Nat) : Prop :=
  ∃ (z : Fin t.size) (u a b : Fin t.arena.size), z.val = id ∧ t.arena.expr u = .until a b ∧
    u ∈ (t.node z).satisfied ∧ ¬ b ∈ (t.node z).satisfied

section

variable {t : Tableau} {f : Formula} {G : Guards}

theorem Tableau.isSeed_iff {z : Fin t.size} :
    t.isSeed z = true ↔ (Automaton.ofTableau f t).IsSeed z := by
  simp only [isSeed, Automaton.IsSeed, Automaton.propositions_ofTableau,
    Automaton.negated_ofTableau, Automaton.out_ofTableau, Bool.and_eq_true, List.isEmpty_iff,
    decide_eq_true_eq, and_assoc]
  exact Iff.rfl

theorem Automaton.isFinal_ofTableau {i : Fin t.size} :
    ((ofTableau f t).state i).isFinal = true ↔
      ∃ z ∈ ((ofTableau f t).state i).out, (ofTableau f t).IsSeed z := by
  rw [state_ofTableau]
  simp only [List.any_eq_true, IndexSet.mem_toList, IndexSet.contains_iff, Tableau.seeds,
    IndexSet.mem_select, Tableau.isSeed_iff (f := f)]
  exact Iff.rfl

theorem Automaton.IsSeed.isRunFrom {A : Automaton} {i z : Fin A.size} (hs : A.IsSeed z)
    (hz : z ∈ (A.state i).out) (w : Word) : A.IsRunFrom G i w fun _ => z := by
  refine ⟨hz, ?_, ?_⟩
  · intro _
    rw [hs.2.2]
    exact IndexSet.mem_singleton.2 rfl
  · intro n
    simp [State.satisfiedBy, hs.1, hs.2.1]

theorem Tableau.Unfolds.holdsAt_of_settled (ht : t.Unfolds f) {i z : Fin t.size} {es : List Event}
    {w : Word} (hi : (Automaton.ofTableau f t).Reaches G es i)
    (hz : z ∈ ((Automaton.ofTableau f t).state i).out) (hs : (Automaton.ofTableau f t).IsSeed z)
    (ho : ¬ t.Owes z.val) (hw : w.Extends es) : f.HoldsAt G w 0 := by
  obtain ⟨(run : Nat → Fin t.size), hr, hrun⟩ :=
    hi.exists_run hw (hs.isRunFrom hz fun n => w (es.length + n))
  apply ht.holdsAt_of_run hr
  intro k u a b he hu
  -- After `es.length` more events an until that was passed on is met at the seed.
  rcases (ht.consistent hr).fulfilled_or_persists he hu es.length with hj | hm
  · exact hj
  · have hzk : run (k + es.length) = z := by
      rw [Nat.add_comm]
      exact hrun k
    rw [hzk] at hm
    refine ⟨k + es.length, by omega, ?_⟩
    rw [hzk]
    exact Classical.byContradiction fun hb => ho ⟨z, u, a, b, rfl, he, hm, hb⟩

/-- An until that is met without its right side is deferred, so a node that defers none owes none. -/
theorem Tableau.Unfolds.not_owes (ht : t.Unfolds f) {z : Fin t.size}
    (hs : (Automaton.ofTableau f t).IsSeed z)
    (hd : ∀ u ∈ (t.node z).deferred, ∀ a b, t.arena.expr u ≠ .until a b) : ¬ t.Owes z.val := by
  intro hh
  obtain ⟨z', u, a, b, hval, he, hu, hb⟩ := hh
  have hzz : z' = z := Fin.ext hval
  subst hzz
  have hz : z' ∈ t.out z' := by
    have hout := hs.2.2
    rw [Automaton.out_ofTableau] at hout
    rw [hout]
    exact IndexSet.mem_singleton.2 rfl
  rcases ((ht.expands hz).meets hu).until he with hm | ⟨_, hl⟩
  · exact hb hm
  · exact hd u hl a b he

end

theorem settled_acceptance_sound {σ : Type} [Sink σ] (G : Guards) (f : Formula) (sink : σ)
    (es : List Event) (e : Event) :
    let t := Tableau.build f
    let A := Automaton.ofTableau f t
    let s := (Session.start A sink).feed G es
    ∀ i ∈ s.monitor.advance G e, ∀ z ∈ (A.state i).out, A.IsSeed z →
      (∀ u ∈ (t.node z).deferred, ∀ a b, t.arena.expr u ≠ .until a b) →
      (A.state i).isFinal = true ∧
      (s.monitor.accept G e).monitor.stats.accepted = s.monitor.stats.accepted + 1 ∧
      ∀ w : Word, w.Extends (s.segment ++ [e]) → f.HoldsAt G w 0 := by
  intro t A s i hi z hz hs hd
  have ht : t.Unfolds f := Tableau.buildWith_unfolds _ f
  have htr : s.Tracks G := (Session.start_tracks A sink).feed es
  have hfin : (A.state i).isFinal = true := Automaton.isFinal_ofTableau.2 ⟨z, hz, hs⟩
  have hacc := Automaton.verdict_eq_accepted_iff.2 ⟨i, hi, hfin⟩
  refine ⟨hfin, (s.monitor.accepted_accept e).2 hacc, ?_⟩
  intro w hw
  exact ht.holdsAt_of_settled (htr.reaches_of_mem_advance hi) hz hs (ht.not_owes hs hd) hw

theorem settled_acceptance_sound_eventually :
    let f := Formula.eventually (.prop ⟨.event "p", none, none, none⟩)
    let s := (Session.start (.ofTableau f (.build f)) ({} : NullSink)).feed (fun _ _ => true) []
    (s.monitor.accept (fun _ _ => true) ⟨"p", none, []⟩).monitor.stats.accepted =
        s.monitor.stats.accepted + 1 ∧
      ∀ w : Word, w.Extends (s.segment ++ [⟨"p", none, []⟩]) → f.HoldsAt (fun _ _ => true) w 0 := by
  have hh := settled_acceptance_sound (fun _ _ => true)
    (.eventually (.prop ⟨.event "p", none, none, none⟩)) ({} : NullSink) [] ⟨"p", none, []⟩
    ⟨2, by decide +kernel⟩ (by decide +kernel) ⟨3, by decide +kernel⟩ (by decide +kernel)
    (by decide +kernel) (by decide +kernel)
  exact hh.2

theorem compile_cases {σ : Type} [Sink σ] {f : Formula} {sink : σ} {c : Compiled σ}
    (h : compile f sink = .ok c) : f.wellPlaced = true ∧ ∃ notes,
      c = ⟨Automaton.ofTableau f (.build f),
        .start (.ofTableau f (.build f)) (f.subscriptions.foldl Sink.subscribe sink), notes⟩ := by
  unfold compile at h
  split at h
  · rename_i hw
    exact ⟨hw, _, (Except.ok.inj h).symm⟩
  · cases h

theorem compile_eq_ok {σ : Type} [Sink σ] {f : Formula} {sink : σ} {c : Compiled σ}
    (h : compile f sink = .ok c) : ∃ sink' notes,
      c = ⟨Automaton.ofTableau f (.build f), .start (.ofTableau f (.build f)) sink', notes⟩ := by
  obtain ⟨_, notes, hc⟩ := compile_cases h
  exact ⟨_, notes, hc⟩

theorem Recorder.foldl_subscribe (shapes : List Shape) (r : Recorder) :
    shapes.foldl Sink.subscribe r = { r with calls := r.calls ++ shapes.map Call.subscribe } := by
  induction shapes generalizing r with
  | nil => simp
  | cons shape shapes ih =>
    have hh := ih (r.record (.subscribe shape))
    simp only [record, List.append_assoc, List.singleton_append] at hh
    exact hh

theorem Word.exists_extends (es : List Event) (e : Event) : ∃ w : Word, w.Extends (es ++ [e]) := by
  refine ⟨fun n => (es ++ [e]).getD n e, ?_⟩
  intro n hn
  show (es ++ [e]).getD n e = (es ++ [e])[n]
  rw [List.getD_eq_getElem?_getD, List.getElem?_eq_getElem hn, Option.getD_some]

theorem Tableau.Unfolds.verdict_eq_accepted_iff_owes {t : Tableau} {f : Formula} (ht : t.Unfolds f)
    {G : Guards} (hf : ∀ w : Word, ¬ f.HoldsAt G w 0) {σ : Type} [Sink σ] (sink : σ)
    (es : List Event) (e : Event) :
    let A := Automaton.ofTableau f t
    let kept := ((Monitor.start A sink).feed G es).advance G e
    A.verdict kept = .accepted ↔
      ∃ i ∈ kept, ∃ z ∈ (A.state i).out, A.IsSeed z ∧ t.Owes z.val := by
  intro A kept
  rw [Automaton.verdict_eq_accepted_iff]
  constructor
  · intro hh
    obtain ⟨i, hi, hfin⟩ := hh
    obtain ⟨z, hz, hs⟩ := Automaton.isFinal_ofTableau.1 hfin
    refine ⟨i, hi, z, hz, hs, Classical.byContradiction fun ho => ?_⟩
    let s := (Session.start A sink).feed G es
    have htr : s.Tracks G := (Session.start_tracks A sink).feed es
    have hm : s.monitor = (Monitor.start A sink).feed G es := Session.monitor_feed _ es
    have hr : A.Reaches G (s.segment ++ [e]) i := by
      apply htr.reaches_of_mem_advance
      rw [hm]
      exact hi
    obtain ⟨w, hw⟩ := Word.exists_extends s.segment e
    exact hf w (ht.holdsAt_of_settled hr hz hs ho hw)
  · intro hh
    obtain ⟨i, hi, z, hz, hs, _⟩ := hh
    exact ⟨i, hi, Automaton.isFinal_ofTableau.2 ⟨z, hz, hs⟩⟩

theorem unsatisfiable_accepted_eq_zero_iff {σ : Type} [Sink σ] {G : Guards} {f : Formula} {sink : σ}
    {c : Compiled σ} (hc : compile f sink = .ok c) (hf : ∀ w : Word, ¬ f.HoldsAt G w 0)
    (es : List Event) :
    (c.monitor.feed G es).stats.accepted = 0 ↔
      ∀ past e rest, es = past ++ e :: rest → ∀ i ∈ (c.monitor.feed G past).advance G e,
        ∀ z ∈ (c.automaton.state i).out, c.automaton.IsSeed z → ¬ (Tableau.build f).Owes z.val := by
  obtain ⟨sink', notes, rfl⟩ := compile_eq_ok hc
  have ht : (Tableau.build f).Unfolds f := Tableau.buildWith_unfolds _ f
  rw [Monitor.accepted_feed_eq_zero_iff]
  constructor
  · intro hh past e rest he i hi z hz hs ho
    obtain ⟨_, h⟩ := hh
    exact h past e rest he
      ((ht.verdict_eq_accepted_iff_owes hf sink' past e).2 ⟨i, hi, z, hz, hs, ho⟩)
  · intro h
    refine ⟨rfl, fun past e rest he hacc => ?_⟩
    obtain ⟨i, hi, z, hz, hs, ho⟩ := (ht.verdict_eq_accepted_iff_owes hf sink' past e).1 hacc
    exact h past e rest he i hi z hz hs ho

theorem Formula.not_holdsAt_eventually_falsity (G : Guards) (w : Word) (i : Nat) :
    ¬ (Formula.eventually .falsity).HoldsAt G w i := by
  intro hh
  obtain ⟨j, _, hb, _⟩ := hh
  exact Bool.false_ne_true hb

theorem accepted_eventually_falsity :
    ∃ c, compile (.eventually .falsity) ({} : NullSink) = .ok c ∧
      (c.monitor.feed (fun _ _ => true) [⟨"a", none, []⟩]).stats.accepted = 1 := by
  have hone : (match compile (.eventually .falsity) ({} : NullSink) with
      | .ok c => (c.monitor.feed (fun _ _ => true) [⟨"a", none, []⟩]).stats.accepted
      | .error _ => 0) = 1 := by decide +kernel
  cases hc : compile (.eventually .falsity) ({} : NullSink) with
  | error err => simp [hc] at hone
  | ok c =>
    rw [hc] at hone
    exact ⟨c, rfl, hone⟩

theorem unsatisfiable_may_be_accepted :
    ¬ ∀ (G : Guards) (f : Formula) (c : Compiled NullSink), compile f {} = .ok c →
      (∀ w : Word, ¬ f.HoldsAt G w 0) → ∀ es, (c.monitor.feed G es).stats.accepted = 0 := by
  intro h
  obtain ⟨c, hc, hone⟩ := accepted_eventually_falsity
  have hu := fun w => Formula.not_holdsAt_eventually_falsity (fun _ _ => true) w 0
  have hzero := h _ _ c hc hu [⟨"a", none, []⟩]
  exact absurd (hone.symm.trans hzero) (by decide)

theorem eventually_falsity_owes :
    ∃ c, compile (.eventually .falsity) ({} : NullSink) = .ok c ∧
      (∀ w : Word, ¬ (Formula.eventually .falsity).HoldsAt (fun _ _ => true) w 0) ∧
      ¬ ∀ past e rest, [⟨"a", none, []⟩] = past ++ e :: rest →
        ∀ i ∈ (c.monitor.feed (fun _ _ => true) past).advance (fun _ _ => true) e,
        ∀ z ∈ (c.automaton.state i).out, c.automaton.IsSeed z →
          ¬ (Tableau.build (.eventually .falsity)).Owes z.val := by
  obtain ⟨c, hc, hone⟩ := accepted_eventually_falsity
  have hu := fun w => Formula.not_holdsAt_eventually_falsity (fun _ _ => true) w 0
  refine ⟨c, hc, hu, fun h => ?_⟩
  have hzero := (unsatisfiable_accepted_eq_zero_iff hc hu [⟨"a", none, []⟩]).2 h
  exact absurd (hone.symm.trans hzero) (by decide)

end TemporalMonitor
