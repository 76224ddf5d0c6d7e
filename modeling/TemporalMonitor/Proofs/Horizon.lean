import TemporalMonitor.Proofs.CoSafety
import TemporalMonitor.Proofs.TriggerPlacement

/-! How long a formula without until and release can stay open. Each event takes one next off what is
due, so after as many events as nexts are nested nothing is deferred any more, and every state that
can be reached by one event more is final. -/

namespace TemporalMonitor

/-- How many nexts stand inside each other. -/
def Formula.nextDepth : Formula → Nat
  | .prop _ => 0
  | .not a => a.nextDepth
  | .next a => a.nextDepth + 1
  | .and a b | .or a b | .until a b | .release a b => max a.nextDepth b.nextDepth

theorem Formula.nextDepth_nnf_negNnf (f : Formula) :
    f.nnf.nextDepth = f.nextDepth ∧ f.negNnf.nextDepth = f.nextDepth := by
  induction f with
  | prop p => exact ⟨rfl, rfl⟩
  | not a ih => exact ⟨ih.2, ih.1⟩
  | next a ih => simp [nnf, negNnf, nextDepth, ih]
  | and a b iha ihb | or a b iha ihb | «until» a b iha ihb | release a b iha ihb =>
    simp [nnf, negNnf, nextDepth, iha, ihb]

theorem Formula.Bounded.nnf_negNnf {f : Formula} (h : f.Bounded) :
    f.nnf.Bounded ∧ f.negNnf.Bounded := by
  induction f with
  | prop p => simp [nnf, negNnf, Bounded, subformulas]
  | not a ih =>
    have hh := ih (h.of_subset (by simp_all [subformulas]))
    exact ⟨hh.2, hh.1⟩
  | next a ih =>
    have hh := ih (h.of_subset (by simp_all [subformulas]))
    simpa [nnf, negNnf, Bounded, subformulas] using hh
  | and a b iha ihb | or a b iha ihb =>
    have ha := iha (h.of_subset (by simp_all [subformulas]))
    have hb := ihb (h.of_subset (by simp_all [subformulas]))
    simp only [Bounded] at ha hb
    simp [nnf, negNnf, Bounded, subformulas, ha, hb]
  | «until» a b _ _ => exact absurd (mem_subformulas_self _) (h a b).1
  | release a b _ _ => exact absurd (mem_subformulas_self _) (h a b).2

def Arena.Bounded (A : Arena) : Prop :=
  ∀ u a b, A.expr u ≠ .until a b ∧ A.expr u ≠ .release a b

theorem Formula.Bounded.intern {f : Formula} (h : f.Bounded) :
    (Arena.empty.intern f).arena.Bounded := by
  intro u a b
  have hu := Arena.formula_mem_subformulas f u
  rw [Arena.formula_eq] at hu
  constructor
  · intro he
    rw [he] at hu
    exact (h _ _).1 hu
  · intro he
    rw [he] at hu
    exact (h _ _).2 hu

theorem Expr.nextDepth_le_of_child {ι : Type} {g : ι → Formula} {e : Expr ι} {c : ι}
    (hc : c ∈ e.children) : (g c).nextDepth ≤ (e.toFormula g).nextDepth := by
  cases e with
  | prop p => exact absurd hc List.not_mem_nil
  | not a => exact List.mem_singleton.1 hc ▸ Nat.le_refl _
  | next a => exact List.mem_singleton.1 hc ▸ Nat.le_succ _
  | and a b | or a b | «until» a b | release a b =>
    simp only [children, List.mem_cons, List.not_mem_nil, or_false] at hc
    rw [toFormula, Formula.nextDepth]
    rcases hc with rfl | rfl
    · exact Nat.le_max_left _ _
    · exact Nat.le_max_right _ _

theorem Expr.eq_next_of_later {ι : Type} {self c : ι} {e : Expr ι} {b : Branch ι}
    (he : ∀ x y, e ≠ .until x y ∧ e ≠ .release x y) (hb : b ∈ (e.rule self).branches)
    (hc : c ∈ b.later) : e = .next c := by
  cases e with
  | prop p => simp_all [branch_eq_of_prop hb]
  | next a => simp_all [rule, Rule.branches]
  | not a | and a a' | or a a' =>
    simp only [rule, Rule.branches, List.mem_cons, List.not_mem_nil, or_false] at hb
    grind
  | «until» a a' => exact absurd rfl (he a a').1
  | release a a' => exact absurd rfl (he a a').2

section

variable {A : Arena} {choices : List (Choice A.size)} {x y : Task A.size}

theorem Arena.Gives.nextDepth_le (h : A.Gives choices x y) (hA : A.Bounded) :
    (A.formula y.1).nextDepth + y.2 ≤ (A.formula x.1).nextDepth + x.2 := by
  obtain ⟨choice, _, hb, h⟩ := h
  rw [A.formula_eq x.1]
  rcases h with ⟨hn, he⟩ | ⟨hl, he⟩
  · have hd := Expr.nextDepth_le_of_child (g := A.formula) (Expr.mem_children_of_now hb hn)
    omega
  · rw [Expr.eq_next_of_later (hA x.1) hb hl, Expr.toFormula, Formula.nextDepth]
    omega

theorem Arena.Bounded.nextDepth_le (hA : A.Bounded)
    (h : Relation.ReflTransGen (A.Gives choices) x y) :
    (A.formula y.1).nextDepth + y.2 ≤ (A.formula x.1).nextDepth + x.2 := by
  induction h with
  | refl => exact Nat.le_refl _
  | tail _ hg ih => exact Nat.le_trans (hg.nextDepth_le hA) ih

end

theorem Tableau.Unfolds.nextDepth_le {t : Tableau} {f : Formula} (ht : t.Unfolds f)
    (hA : t.arena.Bounded) {n : Nat} {i : Fin t.size} (h : t.Walk n i) {d : Fin t.arena.size}
    (hd : d ∈ t.due i) : (t.arena.formula d).nextDepth + n ≤ f.nextDepth := by
  obtain ⟨choices, _, hdue⟩ := ht.exists_due_descends h
  have hle := hA.nextDepth_le (hdue d hd)
  rwa [ht.formula_root, f.nextDepth_nnf_negNnf.1] at hle

/-- Every state that more than `d` events lead to is final. -/
def Automaton.SettlesWithin (A : Automaton) (G : Guards) (d : Nat) : Prop :=
  ∀ es i, A.Reaches G es i → d < es.length → (A.state i).isFinal = true

theorem Formula.Bounded.settlesWithin {f : Formula} (hf : f.Bounded) (G : Guards) :
    (Automaton.ofTableau f (.build f)).SettlesWithin G f.nextDepth := by
  intro es i hi hlt
  have ht : (Tableau.build f).Unfolds f := Tableau.buildWith_unfolds _ f
  -- Whatever were still due would have nexts to spare, and all of them are used up.
  refine ht.isFinal_of_due_empty (Tableau.label_build_injective f) fun d hd => ?_
  have hle := ht.nextDepth_le hf.nnf_negNnf.1.intern (Tableau.walk_of_reaches hi) hd
  omega

section

variable {A : Automaton} {σ : Type} {G : Guards} {s : Session A σ} {d : Nat}

theorem Session.Tracks.verdict_ne_ongoing (h : s.Tracks G) (hA : A.SettlesWithin G d)
    (hd : d ≤ s.segment.length) (e : Event) : A.verdict (s.monitor.advance G e) ≠ .ongoing := by
  intro hv
  obtain ⟨⟨i, hi⟩, hopen⟩ := Automaton.verdict_eq_ongoing_iff.1 hv
  have hlt : d < (s.segment ++ [e]).length := by
    rw [List.length_append, List.length_singleton]
    omega
  have hfin := hA _ i (h.reaches_of_mem_advance hi) hlt
  exact Bool.false_ne_true ((hopen i hi).symm.trans hfin)

theorem Session.Tracks.length_segment_accept_le [Sink σ] (h : s.Tracks G)
    (hA : A.SettlesWithin G d) (e : Event) : (s.accept G e).segment.length ≤ d := by
  simp only [Session.accept]
  split
  · rename_i hv
    have hne : ¬ d ≤ s.segment.length := fun hd => h.verdict_ne_ongoing hA hd e hv
    rw [List.length_append, List.length_singleton]
    omega
  · exact Nat.zero_le d

theorem Session.Tracks.length_segment_feed_le [Sink σ] (h : s.Tracks G)
    (hA : A.SettlesWithin G d) (hs : s.segment.length ≤ d) (es : List Event) :
    (s.feed G es).segment.length ≤ d := by
  induction es generalizing s with
  | nil => exact hs
  | cons e es ih => exact ih (h.accept e) (h.length_segment_accept_le hA e)

end

/-- The events since the last restart are never more than the nexts inside each other, and when they
are as many, the next event brings a verdict. -/
theorem bounded_formula_decided_in_time {σ : Type} [Sink σ] (G : Guards) {f : Formula}
    (hf : f.Bounded) (sink : σ) (es : List Event) (e : Event) :
    let s := (Session.start (.ofTableau f (.build f)) sink).feed G es
    let m := (s.monitor.accept G e).monitor
    s.segment.length ≤ f.nextDepth ∧
    (s.segment.length = f.nextDepth →
      m.stats.accepted = s.monitor.stats.accepted + 1 ∨
        m.stats.rejected = s.monitor.stats.rejected + 1) := by
  intro s m
  have hstart : (Session.start (.ofTableau f (.build f)) sink).Tracks G := Session.start_tracks _ sink
  have hA := hf.settlesWithin G
  refine ⟨hstart.length_segment_feed_le hA (Nat.zero_le _) es, ?_⟩
  intro hs
  have hv := (hstart.feed es).verdict_ne_ongoing hA (Nat.le_of_eq hs.symm) e
  rw [s.monitor.accepted_accept, s.monitor.rejected_accept]
  cases hkind : (Automaton.ofTableau f (.build f)).verdict (s.monitor.advance G e) with
  | accepted => exact .inl rfl
  | rejected => exact .inr rfl
  | ongoing => exact absurd hkind hv

theorem bounded_formula_decided_in_time_chain :
    let tick := Formula.prop ⟨.event "tick", none, none, none⟩
    let f := tick.and (.next (tick.and (.next tick)))
    let e : Event := ⟨"tick", none, []⟩
    let s := (Session.start (.ofTableau f (.build f)) ({} : NullSink)).feed (fun _ _ => true) [e, e]
    let m := (s.monitor.accept (fun _ _ => true) e).monitor
    f.Bounded ∧ s.segment.length = f.nextDepth ∧ f.nextDepth = 2 ∧
      (m.stats.accepted = s.monitor.stats.accepted + 1 ∨
        m.stats.rejected = s.monitor.stats.rejected + 1) := by
  intro tick f e s m
  have hf : f.Bounded := by
    intro a b
    simp [f, tick, Formula.subformulas]
  have hs : s.segment.length = f.nextDepth := by decide +kernel
  exact ⟨hf, hs, rfl,
    (bounded_formula_decided_in_time (fun _ _ => true) hf ({} : NullSink) [e, e] e).2 hs⟩

end TemporalMonitor
