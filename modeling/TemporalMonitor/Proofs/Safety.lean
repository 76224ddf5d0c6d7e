import Mathlib.Order.Filter.AtTopBot.Basic
import Mathlib.Order.Filter.Finite
import TemporalMonitor.Proofs.FirstVerdict

/-! Formulas whose normal form has no until. All their runs are fair, and a word with a path along
each of its beginnings has a run, since there are finitely many states. So a word that violates such
a formula leaves the monitor without a state after finitely many events, and no event before is
accepted. -/

namespace TemporalMonitor

def Formula.UntilFree (f : Formula) : Prop :=
  ∀ a b, .until a b ∉ f.subformulas

theorem Tableau.expr_ne_until {f : Formula} (h : f.nnf.UntilFree)
    (u a b : Fin (Tableau.build f).arena.size) : (Tableau.build f).arena.expr u ≠ .until a b := by
  intro he
  have hu := Arena.formula_mem_subformulas f.nnf u
  have hf := Arena.formula_eq (Tableau.build f).arena u
  rw [he] at hf
  exact h _ _ (hf ▸ hu)

theorem exists_forall_of_forall_exists {n : Nat} {P : Fin n → Nat → Prop}
    (hP : ∀ i m m', m ≤ m' → P i m' → P i m) (h : ∀ m, ∃ i, P i m) : ∃ i, ∀ m, P i m := by
  have hfreq : ∃ᶠ m in Filter.atTop, ∃ i, P i m := (Filter.Eventually.of_forall h).frequently
  obtain ⟨i, hi⟩ := Filter.frequently_exists.1 hfreq
  refine ⟨i, fun m => ?_⟩
  obtain ⟨m', hm, hp⟩ := Filter.frequently_atTop.1 hi m
  exact hP i m m' hm hp

def Word.drop (w : Word) (n : Nat) : Word :=
  fun k => w (n + k)

theorem Word.take_drop_succ (w : Word) (n m : Nat) :
    (w.drop n).take (m + 1) = w n :: (w.drop (n + 1)).take m := by
  have hshift : ∀ k, n + 1 + k = n + (k + 1) := fun k => by omega
  simp [take, drop, List.range_succ_eq_map, Function.comp_def, hshift]

section

variable {A : Automaton} {G : Guards} {w : Word}

theorem Automaton.exists_path_take {i : Fin A.size} {m m' : Nat} (hm : m ≤ m')
    (h : ∃ j, A.Path G i (w.take m') j) : ∃ j, A.Path G i (w.take m) j := by
  obtain ⟨d, rfl⟩ := Nat.exists_eq_add_of_le hm
  obtain ⟨j, hj⟩ := h
  have happ : w.take (m + d) = w.take m ++ (List.range d).map fun k => w (m + k) := by
    simp [Word.take, List.range_add, Function.comp_def]
  rw [happ, path_append] at hj
  obtain ⟨j', hj', _⟩ := hj
  exact ⟨j', hj'⟩

theorem Automaton.exists_run_of_reaches (h : ∀ n, ∃ i, A.Reaches G (w.take n) i) :
    ∃ run, A.IsRunFrom G A.initial w run := by
  -- Each state picked can be continued as far as one likes: of finitely many successors one can be.
  have hstep : ∀ n i, (∀ m, ∃ j, A.Path G i ((w.drop n).take m) j) →
      ∃ i', (i' ∈ (A.state i).out ∧ (A.state i').satisfiedBy G (w n) = true) ∧
        ∀ m, ∃ j, A.Path G i' ((w.drop (n + 1)).take m) j := by
    intro n i hi
    have hex : ∀ m, ∃ i', (i' ∈ (A.state i).out ∧ (A.state i').satisfiedBy G (w n) = true) ∧
        ∃ j, A.Path G i' ((w.drop (n + 1)).take m) j := by
      intro m
      obtain ⟨j, hj⟩ := hi (m + 1)
      rw [Word.take_drop_succ] at hj
      obtain ⟨i', ho, hs, hp⟩ := hj
      exact ⟨i', ⟨ho, hs⟩, j, hp⟩
    obtain ⟨i', hi'⟩ := exists_forall_of_forall_exists
      (fun _ _ _ hm hp => ⟨hp.1, exists_path_take hm hp.2⟩) hex
    exact ⟨i', (hi' 0).1, fun m => (hi' m).2⟩
  have hinit : ∀ m, ∃ j, A.Path G A.initial ((w.drop 0).take m) j := by
    have h0 : w.drop 0 = w := funext fun k => congrArg w (Nat.zero_add k)
    rw [h0]
    exact h
  obtain ⟨g, hg0, hg⟩ := exists_sequence hinit hstep
  exact ⟨fun n => g (n + 1), hg0 ▸ (hg 0).1, fun n => (hg (n + 1)).1, fun n => (hg n).2⟩

end

section

variable {σ : Type} [Sink σ] {t : Tableau} {f : Formula} {G : Guards} {w : Word} {sink : σ}

theorem Tableau.Unfolds.holdsAt_of_accepted (ht : t.Unfolds f)
    (hs : ∀ u a b, t.arena.expr u ≠ .until a b) {n : Nat}
    (hu : ((Monitor.start (.ofTableau f t) sink).feed G (w.take n)).Undecided)
    (hv : (Automaton.ofTableau f t).verdict
      (((Monitor.start (.ofTableau f t) sink).feed G (w.take n)).advance G (w n)) = .accepted) :
    f.HoldsAt G w 0 := by
  obtain ⟨i, hi, hfin⟩ := Automaton.verdict_eq_accepted_iff.1 hv
  obtain ⟨z, hz, hseed⟩ := Automaton.isFinal_ofTableau.1 hfin
  have ho : ¬ t.Owes z.val := by
    intro hh
    obtain ⟨_, u, a, b, _, he, _⟩ := hh
    exact hs u a b he
  have hr := Monitor.reaches_of_mem_advance hu hi
  exact ht.holdsAt_of_settled hr hz hseed ho (w.extends_take (n + 1))

theorem Tableau.Unfolds.holdsAt_of_undecided (ht : t.Unfolds f)
    (hs : ∀ u a b, t.arena.expr u ≠ .until a b)
    (hu : ∀ n, ((Monitor.start (.ofTableau f t) sink).feed G (w.take n)).Undecided) :
    f.HoldsAt G w 0 := by
  have hreach : ∀ n, ∃ i, (Automaton.ofTableau f t).Reaches G (w.take n) i := by
    intro n
    cases n with
    | zero => exact ⟨_, rfl⟩
    | succ n =>
      have hn := hu (n + 1)
      rw [Monitor.feed_take_succ, Monitor.undecided_accept] at hn
      obtain ⟨i, hi⟩ := (Automaton.verdict_eq_ongoing_iff.1 hn.2).1
      exact ⟨i, Monitor.reaches_of_mem_advance hn.1 hi⟩
  obtain ⟨run, hr⟩ := Automaton.exists_run_of_reaches hreach
  refine ht.holdsAt_of_run hr ?_
  intro i u a b he _
  exact absurd he (hs u a b)

end

/-- A word that violates the formula is rejected at some point, before any other verdict. -/
theorem safety_violation_rejected {σ : Type} [Sink σ] {G : Guards} {f : Formula} {sink : σ}
    {c : Compiled σ} (hc : compile f sink = .ok c) (hs : f.nnf.UntilFree) {w : Word}
    (hw : ¬ f.HoldsAt G w 0) :
    ∃ k, (∀ j, j ≤ k → (c.monitor.feed G (w.take j)).Undecided) ∧
      (c.monitor.feed G (w.take (k + 1))).stats.accepted = 0 ∧
      (c.monitor.feed G (w.take (k + 1))).stats.rejected = 1 := by
  obtain ⟨sink', notes, rfl⟩ := compile_eq_ok hc
  have ht : (Tableau.build f).Unfolds f := Tableau.buildWith_unfolds _ f
  have hne := Tableau.expr_ne_until hs
  rcases Monitor.undecided_or_first_verdict (A := .ofTableau f (.build f)) G sink' w with
    hu | ⟨k, hk, hv⟩
  · exact absurd (ht.holdsAt_of_undecided hne hu) hw
  · have hcount := Monitor.counts_accept (G := G) hk (w k)
    rw [← Monitor.feed_take_succ] at hcount
    cases hkind : (Automaton.ofTableau f (.build f)).verdict
        (((Monitor.start (.ofTableau f (.build f)) sink').feed G (w.take k)).advance G (w k)) with
    | ongoing => exact absurd hkind hv
    | accepted => exact absurd (ht.holdsAt_of_accepted hne hk hkind) hw
    | rejected =>
      rw [hkind] at hcount
      exact ⟨k, fun j hj => hk.of_le hj, hcount⟩

theorem safety_violation_rejected_always :
    let p := Formula.prop ⟨.event "p", none, none, none⟩
    let w : Word := fun n => if n = 0 then ⟨"p", none, []⟩ else ⟨"q", none, []⟩
    ∃ c, compile (.always p) ({} : NullSink) = .ok c ∧ (Formula.always p).nnf.UntilFree ∧
      ¬ (Formula.always p).HoldsAt (fun _ _ => true) w 0 ∧
      ∃ k, (∀ j, j ≤ k → (c.monitor.feed (fun _ _ => true) (w.take j)).Undecided) ∧
        (c.monitor.feed (fun _ _ => true) (w.take (k + 1))).stats.accepted = 0 ∧
        (c.monitor.feed (fun _ _ => true) (w.take (k + 1))).stats.rejected = 1 := by
  intro p w
  obtain ⟨c, hc⟩ := exists_compile (f := .always p) (by decide) ({} : NullSink)
  have hs : (Formula.always p).nnf.UntilFree := by
    intro a b
    simp [p, Formula.always, Formula.falsity, Formula.nnf, Formula.subformulas]
  have hw : ¬ (Formula.always p).HoldsAt (fun _ _ => true) w 0 := by
    intro h
    rcases h 1 (by decide) with hp | ⟨_, _, _, hf⟩
    · exact Bool.false_ne_true hp
    · exact Bool.false_ne_true hf
  exact ⟨c, hc, hs, hw, safety_violation_rejected hc hs hw⟩

end TemporalMonitor
