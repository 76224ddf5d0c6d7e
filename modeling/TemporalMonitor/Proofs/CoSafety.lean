import TemporalMonitor.Proofs.FirstVerdict
import TemporalMonitor.Proofs.PickOrder

/-! Formulas whose normal form has no release. When a word satisfies such a formula, finitely many
events show it, and they guide a path on which nothing is deferred past them. Where nothing is
deferred the only way on is the node that asks for nothing, so the path ends in a final state. -/

namespace TemporalMonitor

def Formula.ReleaseFree (f : Formula) : Prop :=
  ∀ a b, .release a b ∉ f.subformulas

/-- Whether the events before `n` show that the formula is true from position `i` on. No events show
a release. -/
def Formula.ShownBy (G : Guards) (w : Word) (n : Nat) : Formula → Nat → Prop
  | .prop p, i => i < n ∧ p.holds G (w i) = true
  | .not a, i => i < n ∧ ¬ a.HoldsAt G w i
  | .next a, i => a.ShownBy G w n (i + 1)
  | .and a b, i => a.ShownBy G w n i ∧ b.ShownBy G w n i
  | .or a b, i => a.ShownBy G w n i ∨ b.ShownBy G w n i
  | .until a b, i =>
    ∃ j, i ≤ j ∧ b.ShownBy G w n j ∧ ∀ k, i ≤ k → k < j → a.ShownBy G w n k
  | .release _ _, _ => False

section

variable {G : Guards} {w : Word} {n : Nat}

theorem Formula.shownBy_until_iff {a b : Formula} {i : Nat} :
    (Formula.until a b).ShownBy G w n i ↔
      b.ShownBy G w n i ∨ a.ShownBy G w n i ∧ (Formula.until a b).ShownBy G w n (i + 1) :=
  exists_until_iff (P := a.ShownBy G w n) (Q := b.ShownBy G w n)

theorem Formula.ShownBy.lt {f : Formula} {i : Nat} (h : f.ShownBy G w n i) : i < n := by
  induction f generalizing i with
  | prop p => exact h.1
  | not a _ => exact h.1
  | next a ih =>
    have hi := ih h
    omega
  | and a b iha _ => exact iha h.1
  | or a b iha ihb => exact h.elim iha ihb
  | «until» a b iha ihb =>
    rcases shownBy_until_iff.1 h with hb | ⟨ha, _⟩
    · exact ihb hb
    · exact iha ha
  | release a b => exact h.elim

theorem Formula.ShownBy.mono {f : Formula} {i n' : Nat} (h : f.ShownBy G w n i) (hn : n ≤ n') :
    f.ShownBy G w n' i := by
  induction f generalizing i with
  | prop p => exact ⟨Nat.lt_of_lt_of_le h.1 hn, h.2⟩
  | not a _ => exact ⟨Nat.lt_of_lt_of_le h.1 hn, h.2⟩
  | next a ih => exact ih h
  | and a b iha ihb => exact ⟨iha h.1, ihb h.2⟩
  | or a b iha ihb => exact h.imp iha ihb
  | «until» a b iha ihb =>
    obtain ⟨j, hj, hb, ha⟩ := h
    exact ⟨j, hj, ihb hb, fun k h1 h2 => iha (ha k h1 h2)⟩
  | release a b => exact h.elim

theorem Formula.shownBy_unwinds (G : Guards) (w : Word) (n : Nat) :
    Unwinds G w (Formula.ShownBy G w n) where
  prop h := h.2
  not h := h.2
  next h := h
  and h := h
  or h := h
  «until» := Formula.shownBy_until_iff.1
  release h := h.elim

theorem Formula.exists_shownBy_until {a b : Formula}
    (ha : ∀ i, a.HoldsAt G w i → ∃ n, a.ShownBy G w n i)
    (hb : ∀ i, b.HoldsAt G w i → ∃ n, b.ShownBy G w n i) {i : Nat}
    (h : (Formula.until a b).HoldsAt G w i) : ∃ n, (Formula.until a b).ShownBy G w n i := by
  obtain ⟨j, hj, hbj, haj⟩ := h
  obtain ⟨d, rfl⟩ := Nat.exists_eq_add_of_le hj
  -- On the distance at which the right side is met: one more event is shown by the longer of two.
  induction d generalizing i with
  | zero =>
    obtain ⟨n, hn⟩ := hb i hbj
    exact ⟨n, shownBy_until_iff.2 (.inl hn)⟩
  | succ d ih =>
    have hshift : i + 1 + d = i + (d + 1) := by omega
    obtain ⟨n, hn⟩ := ha i (haj i (Nat.le_refl i) (by omega))
    obtain ⟨n', hn'⟩ := ih (i := i + 1) (by omega) (by rwa [hshift])
      fun k h1 h2 => haj k (by omega) (by omega)
    exact ⟨max n n', shownBy_until_iff.2
      (.inr ⟨hn.mono (Nat.le_max_left n n'), hn'.mono (Nat.le_max_right n n')⟩)⟩

theorem Formula.ReleaseFree.of_subset {f g : Formula} (h : f.ReleaseFree)
    (hs : ∀ x ∈ g.subformulas, x ∈ f.subformulas) : g.ReleaseFree :=
  fun a b hm => h a b (hs _ hm)

theorem Formula.exists_shownBy {f : Formula} (hr : f.ReleaseFree) {i : Nat}
    (h : f.HoldsAt G w i) : ∃ n, f.ShownBy G w n i := by
  induction f generalizing i with
  | prop p => exact ⟨i + 1, Nat.lt_succ_self i, h⟩
  | not a _ => exact ⟨i + 1, Nat.lt_succ_self i, h⟩
  | next a ih => exact ih (hr.of_subset (by simp_all [subformulas])) h
  | and a b iha ihb =>
    obtain ⟨n, hn⟩ := iha (hr.of_subset (by simp_all [subformulas])) h.1
    obtain ⟨n', hn'⟩ := ihb (hr.of_subset (by simp_all [subformulas])) h.2
    exact ⟨max n n', hn.mono (Nat.le_max_left n n'), hn'.mono (Nat.le_max_right n n')⟩
  | or a b iha ihb =>
    rcases h with ha | hb
    · obtain ⟨n, hn⟩ := iha (hr.of_subset (by simp_all [subformulas])) ha
      exact ⟨n, .inl hn⟩
    · obtain ⟨n, hn⟩ := ihb (hr.of_subset (by simp_all [subformulas])) hb
      exact ⟨n, .inr hn⟩
  | «until» a b iha ihb =>
    have ha : a.ReleaseFree := hr.of_subset (by simp_all [subformulas])
    have hb : b.ReleaseFree := hr.of_subset (by simp_all [subformulas])
    exact exists_shownBy_until (fun _ => iha ha) (fun _ => ihb hb) h
  | release a b => exact absurd (mem_subformulas_self _) (hr a b)

end

theorem Arena.expands_empty_iff {A : Arena} {key : Key A.size} :
    A.Expands ∅ key ↔ key = (∅, ∅) :=
  completes_iff_of_elementary IndexSet.mem_empty

section

variable {t : Tableau} {f : Formula} {G : Guards} {w : Word} {n : Nat}

theorem Tableau.Unfolds.exists_empty_out (ht : t.Unfolds f) {i : Fin t.size} (hi : t.due i = ∅) :
    ∃ z ∈ t.out i, (t.node z).key = (∅, ∅) := by
  apply ht.exists_out
  rw [hi]
  exact Arena.expands_empty_iff.2 rfl

theorem Tableau.Unfolds.isSeed_of_key_empty (ht : t.Unfolds f) (hinj : Function.Injective t.label)
    {i z : Fin t.size} (hz : z ∈ t.out i) (hk : (t.node z).key = (∅, ∅)) :
    (Automaton.ofTableau f t).IsSeed z := by
  have hsat : (t.node z).satisfied = ∅ := congrArg Prod.fst hk
  have hdue : t.due z = ∅ := (due_of_mem_out hz).trans (congrArg Prod.snd hk)
  have hlist : (t.node z).satisfied.toList = [] :=
    List.eq_nil_iff_forall_not_mem.2 fun u hu => by simp [hsat] at hu
  -- The only expansion of nothing is the empty key again.
  have huniq : ∀ j, j ∈ t.out z → j = z := by
    intro j hj
    have hkj := ht.expands hj
    rw [hdue, Arena.expands_empty_iff, ← hk] at hkj
    apply hinj
    rw [label_of_mem_out hj, label_of_mem_out hz, hkj]
  refine ⟨?_, ?_, ?_⟩
  · rw [Automaton.propositions_ofTableau, propositions, hlist]
    rfl
  · rw [Automaton.negated_ofTableau, negated, hlist]
    rfl
  · rw [Automaton.out_ofTableau]
    refine IndexSet.ext fun j => ⟨fun hj => IndexSet.mem_singleton.2 (huniq j hj), fun hj => ?_⟩
    obtain ⟨j', hj', _⟩ := ht.exists_empty_out hdue
    rw [IndexSet.mem_singleton.1 hj]
    exact huniq j' hj' ▸ hj'

theorem Tableau.Unfolds.isFinal_of_due_empty (ht : t.Unfolds f)
    (hinj : Function.Injective t.label) {i : Fin t.size} (hi : ∀ d, ¬ d ∈ t.due i) :
    ((Automaton.ofTableau f t).state i).isFinal = true := by
  have hdue : t.due i = ∅ := IndexSet.ext fun d => by simp [hi d]
  obtain ⟨z, hz, hk⟩ := ht.exists_empty_out hdue
  refine Automaton.isFinal_ofTableau.2 ⟨z, ?_, ht.isSeed_of_key_empty hinj hz hk⟩
  rwa [Automaton.out_ofTableau]

/-- The first `m` events have a path whose end asks only for what the events before `n` show. -/
theorem Tableau.Unfolds.exists_shown_reaches (ht : t.Unfolds f) (h : f.nnf.ShownBy G w n 0)
    (m : Nat) : ∃ i : Fin t.size, (Automaton.ofTableau f t).Reaches G (w.take m) i ∧
      ∀ d ∈ t.due i, (t.arena.formula d).ShownBy G w n m := by
  induction m with
  | zero =>
    refine ⟨t.init, rfl, ?_⟩
    intro d hd
    have hd : d = t.root := IndexSet.mem_singleton.1 hd
    rwa [hd, ht.formula_root]
  | succ m ih =>
    obtain ⟨i, hi, hd⟩ := ih
    obtain ⟨j, ⟨hj, hs, _⟩, hdj⟩ := ht.exists_true_step (Formula.shownBy_unwinds G w n) hd
    rw [← Automaton.out_ofTableau (f := f)] at hj
    refine ⟨j, ?_, hdj⟩
    rw [Word.take_succ]
    exact Automaton.reaches_append_singleton.2 ⟨i, hi, hj, hs⟩

theorem Tableau.Unfolds.exists_final_reaches (ht : t.Unfolds f)
    (hinj : Function.Injective t.label) (h : f.nnf.ShownBy G w n 0) :
    ∃ i, (Automaton.ofTableau f t).Reaches G (w.take n) i ∧
      ((Automaton.ofTableau f t).state i).isFinal = true := by
  obtain ⟨i, hi, hd⟩ := ht.exists_shown_reaches h n
  refine ⟨i, hi, ht.isFinal_of_due_empty hinj fun d hm => ?_⟩
  exact Nat.lt_irrefl n (hd d hm).lt

end

theorem Automaton.exists_mem_narrow {A : Automaton} {s : IndexSet A.size} {i : Fin A.size}
    (h : i ∈ s) : ∃ j, j ∈ A.narrow s := by
  unfold narrow
  split
  · rename_i hany
    obtain ⟨j, hj, ho⟩ := List.any_eq_true.1 hany
    exact ⟨j, IndexSet.mem_filter.2 ⟨IndexSet.mem_toList.1 hj, ho⟩⟩
  · exact ⟨i, h⟩

/-- A word that satisfies the formula is accepted at some point, before any other verdict, if
narrowing takes no state away on the events before. -/
theorem cosafety_satisfaction_accepted {σ : Type} [Sink σ] {G : Guards} {f : Formula} {sink : σ}
    {c : Compiled σ} (hc : compile f sink = .ok c) (hr : f.nnf.ReleaseFree) {w : Word}
    (hw : f.HoldsAt G w 0)
    (hn : ∀ k, (c.monitor.feed G (w.take (k + 1))).Undecided →
      (c.monitor.feed G (w.take k)).narrows G (w k) = false) :
    ∃ k, (∀ j, j ≤ k → (c.monitor.feed G (w.take j)).Undecided) ∧
      (c.monitor.feed G (w.take (k + 1))).stats.accepted = 1 ∧
      (c.monitor.feed G (w.take (k + 1))).stats.rejected = 0 := by
  obtain ⟨sink', notes, rfl⟩ := compile_eq_ok hc
  have ht : (Tableau.build f).Unfolds f := Tableau.buildWith_unfolds _ f
  rcases Monitor.undecided_or_first_verdict (A := .ofTableau f (.build f)) G sink' w with
    hu | ⟨k, hk, hv⟩
  · -- Without a verdict nothing is ever narrowed away, and a final state is kept.
    obtain ⟨n, hshown⟩ := Formula.exists_shownBy hr (Formula.holdsAt_nnf.2 hw)
    obtain ⟨k, rfl⟩ := Nat.exists_eq_succ_of_ne_zero (Nat.ne_of_gt hshown.lt)
    obtain ⟨i, hi, hfin⟩ :=
      ht.exists_final_reaches (Tableau.label_build_injective f) hshown
    have hm := Monitor.mem_matching_of_reaches (hu k) (fun j _ => hn j (hu (j + 1))) hi
    rw [← Monitor.advance_eq_of_narrows_eq_false (hn k (hu (k + 1)))] at hm
    have hacc := Automaton.verdict_eq_accepted_iff.2 ⟨i, hm, hfin⟩
    have hongoing := hu (k + 1)
    rw [Monitor.feed_take_succ, Monitor.undecided_accept] at hongoing
    exact Verdict.noConfusion (hacc.symm.trans hongoing.2)
  · have hcount := Monitor.counts_accept (G := G) hk (w k)
    rw [← Monitor.feed_take_succ] at hcount
    cases hkind : (Automaton.ofTableau f (.build f)).verdict
        (((Monitor.start (.ofTableau f (.build f)) sink').feed G (w.take k)).advance G (w k)) with
    | ongoing => exact absurd hkind hv
    | accepted =>
      rw [hkind] at hcount
      exact ⟨k, fun j hj => hk.of_le hj, hcount⟩
    | rejected =>
      obtain ⟨i, hi⟩ := ht.exists_reaches hw (w.extends_take (k + 1))
      have hm := Monitor.mem_matching_of_reaches hk (fun j hj => hn j (hk.of_le hj)) hi
      obtain ⟨j, hj⟩ := Automaton.exists_mem_narrow hm
      exact absurd hj (Automaton.verdict_eq_rejected_iff.1 hkind j)

theorem cosafety_satisfaction_accepted_until :
    let p := Formula.prop ⟨.event "p", none, none, none⟩
    let q := Formula.prop ⟨.event "q", none, none, none⟩
    let G : Guards := fun _ _ => true
    let w : Word := fun n => if n = 0 then ⟨"p", none, []⟩ else ⟨"q", none, []⟩
    ∃ c, compile (p.until q) ({} : NullSink) = .ok c ∧ (p.until q).nnf.ReleaseFree ∧
      (p.until q).HoldsAt G w 0 ∧
      (∀ k, (c.monitor.feed G (w.take (k + 1))).Undecided →
        (c.monitor.feed G (w.take k)).narrows G (w k) = false) ∧
      ∃ k, (∀ j, j ≤ k → (c.monitor.feed G (w.take j)).Undecided) ∧
        (c.monitor.feed G (w.take (k + 1))).stats.accepted = 1 ∧
        (c.monitor.feed G (w.take (k + 1))).stats.rejected = 0 := by
  intro p q G w
  have hrun : (match compile (p.until q) ({} : NullSink) with
      | .ok c => (c.monitor.narrows G (w 0), (c.monitor.feed G (w.take 2)).stats.accepted)
      | .error _ => (true, 0)) = (false, 1) := by decide +kernel
  obtain ⟨c, hc⟩ := exists_compile (f := p.until q) (by decide) ({} : NullSink)
  rw [hc] at hrun
  obtain ⟨hnar, hacc⟩ := Prod.mk.inj hrun
  have hr : (p.until q).nnf.ReleaseFree := by
    intro a b
    simp [p, q, Formula.nnf, Formula.subformulas]
  have hw : (p.until q).HoldsAt G w 0 := by
    refine Formula.holdsAt_until_iff.2 (.inr ⟨rfl, Formula.holdsAt_until_iff.2 (.inl rfl)⟩)
  have hn : ∀ k, (c.monitor.feed G (w.take (k + 1))).Undecided →
      (c.monitor.feed G (w.take k)).narrows G (w k) = false := by
    intro k hk
    cases k with
    | zero => exact hnar
    | succ k =>
      have h2 := (hk.of_le (by omega : 2 ≤ k + 1 + 1)).1
      omega
  exact ⟨c, hc, hr, hw, hn, cosafety_satisfaction_accepted hc hr hw hn⟩

end TemporalMonitor
