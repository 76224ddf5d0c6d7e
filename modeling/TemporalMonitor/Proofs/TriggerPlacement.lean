import TemporalMonitor.Proofs.Descent
import TemporalMonitor.Proofs.Firings

/-! What the placement of triggers says about runs. A trigger fires only on a step of the formula, as
counted from the last restart. In a formula without until and release two obligations that come up on
the same event part ways at a conjunction, so conjunctions whose sides share no step leave at most one
trigger in each state. Under a negation it is the disjunctions that become conjunctions; their sides
are not compared when the formula is checked. -/

namespace TemporalMonitor

section

variable {t : Tableau} {f : Formula}

theorem Tableau.mem_propositions {i : Fin t.size} {p : Proposition} (h : p ∈ t.propositions i) :
    ∃ u ∈ (t.node i).satisfied, t.arena.expr u = .prop p :=
  (mem_propositions_iff.1 h).2

theorem Tableau.Unfolds.covers_of_firesOn_root (ht : t.Unfolds f) {n : Nat}
    (h : t.arena.FiresOn (t.root, 0) n) : f.triggerSteps.covers n = true := by
  obtain ⟨k, hk, hc⟩ := h
  have hnk : n = k := by omega
  rw [ht.formula_root, f.firingSteps_nnf_negNnf.1] at hc
  exact hnk ▸ Formula.covers_triggerSteps hc

end

theorem fires_on_trigger_steps {σ : Type} [Sink σ] (G : Guards) (f : Formula) (sink : σ)
    (es : List Event) (e : Event) :
    let s := (Session.start (.ofTableau f (.build f)) sink).feed G es
    ∀ x ∈ (s.monitor.accept G e).firings, f.triggerSteps.covers s.segment.length = true := by
  intro s x hx
  have ht : (Tableau.build f).Unfolds f := Tableau.buildWith_unfolds _ f
  have htr : s.Tracks G := (Session.start_tracks _ sink).feed es
  obtain ⟨(j : Fin (Tableau.build f).size), p, trigger⟩ := x
  obtain ⟨hent, hprop, htrig⟩ := Monitor.mem_firings_accept.1 hx
  obtain ⟨(i : Fin (Tableau.build f).size), hi, hout, _⟩ :=
    Automaton.mem_matching_candidates.1 hent
  rw [Automaton.out_ofTableau] at hout
  rw [Automaton.propositions_ofTableau] at hprop
  obtain ⟨choices, hd⟩ := ht.exists_satisfied_descends (Tableau.walk_of_reaches (htr.reaches i hi)) hout
  obtain ⟨u, hu, he⟩ := Tableau.mem_propositions hprop
  have hfires := Arena.firesOn_of_prop he (Option.isSome_of_eq_some htrig) s.segment.length
  exact ht.covers_of_firesOn_root (Arena.firesOn_of_descends (hd u hu) hfires)

theorem fires_on_trigger_steps_next :
    let p : Proposition := ⟨.event "p", none, some (.callback "ring"), none⟩
    let q : Proposition := ⟨.event "q", none, some (.callback "stop"), none⟩
    let f := (Formula.prop p).and (.next (.prop q))
    let s := (Session.start (.ofTableau f (.build f)) ({} : NullSink)).feed (fun _ _ => true)
      [⟨"p", none, []⟩]
    s.segment.length = 1 ∧ ∃ x ∈ (s.monitor.accept (fun _ _ => true) ⟨"q", none, []⟩).firings,
      x.proposition = q ∧ f.triggerSteps.covers s.segment.length = true := by
  intro p q f s
  have hfired : ((s.monitor.accept (fun _ _ => true) ⟨"q", none, []⟩).firings.map
      Firing.proposition) = [q] := by decide +kernel
  obtain ⟨x, hx, hq⟩ := List.mem_map.1 (hfired ▸ List.mem_singleton.2 rfl)
  exact ⟨by decide +kernel, x, hx, hq,
    fires_on_trigger_steps (fun _ _ => true) f ({} : NullSink) [⟨"p", none, []⟩] _ x hx⟩

/-- Nothing is due for an unbounded number of events. -/
def Formula.Bounded (f : Formula) : Prop :=
  ∀ a b, .until a b ∉ f.subformulas ∧ .release a b ∉ f.subformulas

theorem Formula.Bounded.of_subset {f g : Formula} (h : f.Bounded)
    (hs : ∀ x ∈ g.subformulas, x ∈ f.subformulas) : g.Bounded :=
  fun a b => ⟨fun hu => (h a b).1 (hs _ hu), fun hr => (h a b).2 (hs _ hr)⟩

/-- The sides of each disjunction under an odd number of negations have no step in common on which
both can fire; `negated` says whether the formula itself stands under an odd number. -/
def Formula.negatedOrsApart (negated : Bool) : Formula → Bool
  | .prop _ => true
  | .not a => a.negatedOrsApart (!negated)
  | .next a => a.negatedOrsApart negated
  | .or a b =>
    !(negated && (a.firingSteps true).overlaps (b.firingSteps true)) &&
      a.negatedOrsApart negated && b.negatedOrsApart negated
  | .and a b | .until a b | .release a b => a.negatedOrsApart negated && b.negatedOrsApart negated

/-- A formula in normal form, without until and release, in which the sides of a conjunction never
fire on the same step. -/
def Formula.Apart : Formula → Prop
  | .prop _ | .not _ => True
  | .next a => a.Apart
  | .and a b =>
    (∀ k, (a.firingSteps false).covers k = true → ¬ (b.firingSteps false).covers k = true) ∧
      a.Apart ∧ b.Apart
  | .or a b => a.Apart ∧ b.Apart
  | .until _ _ | .release _ _ => False

theorem Formula.wellPlaced_of_not {a : Formula} (h : (Formula.not a).wellPlaced = true) :
    a.wellPlaced = true := by
  cases a with
  | prop p => rfl
  | _ => exact h

theorem Formula.apart_nnf_negNnf {f : Formula} (hw : f.wellPlaced = true) (hb : f.Bounded) :
    (f.negatedOrsApart false = true → f.nnf.Apart) ∧
      (f.negatedOrsApart true = true → f.negNnf.Apart) := by
  induction f with
  | prop p => exact ⟨fun _ => trivial, fun _ => trivial⟩
  | not a ih =>
    have hh := ih (wellPlaced_of_not hw) (hb.of_subset (by simp_all [subformulas]))
    exact ⟨hh.2, hh.1⟩
  | next a ih => exact ih hw (hb.of_subset (by simp_all [subformulas]))
  | and a b iha ihb =>
    simp only [wellPlaced, Bool.and_eq_true, Bool.not_eq_true'] at hw
    obtain ⟨⟨ho, hwa⟩, hwb⟩ := hw
    have ha := iha hwa (hb.of_subset (by simp_all [subformulas]))
    have hb := ihb hwb (hb.of_subset (by simp_all [subformulas]))
    simp only [negatedOrsApart, Bool.and_eq_true]
    refine ⟨fun h => ⟨?_, ha.1 h.1, hb.1 h.2⟩, fun h => ⟨ha.2 h.1, hb.2 h.2⟩⟩
    intro k hk hk'
    rw [(firingSteps_nnf_negNnf _).1] at hk hk'
    have hover := TriggerSteps.overlaps_iff.2 ⟨k, covers_triggerSteps hk, covers_triggerSteps hk'⟩
    exact Bool.false_ne_true (ho.symm.trans hover)
  | or a b iha ihb =>
    simp only [wellPlaced, Bool.and_eq_true] at hw
    have ha := iha hw.1 (hb.of_subset (by simp_all [subformulas]))
    have hb := ihb hw.2 (hb.of_subset (by simp_all [subformulas]))
    simp only [negatedOrsApart, Bool.and_eq_true, Bool.false_and, Bool.true_and, Bool.not_false,
      Bool.not_eq_true']
    refine ⟨fun h => ⟨ha.1 h.1, hb.1 h.2⟩, fun h => ⟨?_, ha.2 h.1.2, hb.2 h.2⟩⟩
    intro k hk hk'
    rw [(firingSteps_nnf_negNnf _).2] at hk hk'
    have hover := TriggerSteps.overlaps_iff.2 ⟨k, hk, hk'⟩
    exact Bool.false_ne_true (h.1.1.symm.trans hover)
  | «until» a b _ _ => exact absurd (mem_subformulas_self _) (hb a b).1
  | release a b _ _ => exact absurd (mem_subformulas_self _) (hb a b).2

section

variable {A : Arena} {choices : List (Choice A.size)} {x y z : Task A.size} {m : Nat}

theorem Arena.Gives.apart (h : A.Gives choices x y) (ha : (A.formula x.1).Apart) :
    (A.formula y.1).Apart := by
  obtain ⟨choice, _, hb, h⟩ := h
  rw [formula_eq] at ha
  cases he : A.expr x.1 with
  | prop p =>
    rw [branches_eq he] at hb
    have hnone := Expr.branch_eq_of_prop hb
    simp_all
  | not a | next a | and a a' | or a a' =>
    rw [branches_eq he] at hb
    simp only [he, Expr.toFormula, Formula.Apart] at ha
    simp only [Expr.rule, Rule.branches, List.mem_cons, List.not_mem_nil, or_false] at hb
    grind
  | «until» a a' | release a a' =>
    rw [he] at ha
    exact ha.elim

/-- Two tasks that a task gives rise to, and that may both fire on an event, are the same: the sides
of a conjunction are kept apart, and everything else gives rise to one task only. -/
theorem Arena.Gives.unique (hy : A.Gives choices x y) (hz : A.Gives choices x z)
    (ha : (A.formula x.1).Apart) (hym : A.FiresOn y m) (hzm : A.FiresOn z m) : y = z := by
  obtain ⟨choice, hc, hb, hy⟩ := hy
  obtain ⟨choice', hc', _, hz⟩ := hz
  have hchoice : choice' = choice := Option.some.inj (hc'.symm.trans hc)
  rw [hchoice] at hz
  rw [formula_eq] at ha
  cases he : A.expr x.1 with
  | prop p =>
    rw [branches_eq he] at hb
    have hnone := Expr.branch_eq_of_prop hb
    simp_all
  | not a | next a | or a a' =>
    rw [branches_eq he] at hb
    simp only [Expr.rule, Rule.branches, List.mem_cons, List.not_mem_nil, or_false] at hb
    grind
  | and a a' =>
    rw [branches_eq he, Expr.rule, Rule.branches, List.mem_singleton] at hb
    rw [he] at ha
    obtain ⟨k, hk, hky⟩ := hym
    obtain ⟨k', hk', hkz⟩ := hzm
    have hdis := ha.1
    grind
  | «until» a a' | release a a' =>
    rw [he] at ha
    exact ha.elim

theorem Arena.not_gives_of_prop {p : Proposition} (he : A.expr x.1 = .prop p) :
    ¬ A.Gives choices x y := by
  intro hh
  obtain ⟨choice, _, hb, h⟩ := hh
  rw [branches_eq he] at hb
  have hnone := Expr.branch_eq_of_prop hb
  simp_all

theorem Arena.descends_unique {u v : Fin A.size} {p q : Proposition}
    (hu : Relation.ReflTransGen (A.Gives choices) x (u, m))
    (hv : Relation.ReflTransGen (A.Gives choices) x (v, m)) (ha : (A.formula x.1).Apart)
    (hep : A.expr u = .prop p) (hp : p.hasTrigger = true) (heq : A.expr v = .prop q)
    (hq : q.hasTrigger = true) : u = v := by
  induction hu using Relation.ReflTransGen.head_induction_on with
  | refl =>
    rcases Relation.ReflTransGen.cases_head hv with h | ⟨y, hy, _⟩
    · exact congrArg Prod.fst h
    · exact absurd hy (not_gives_of_prop hep)
  | head hy hyu ih =>
    rcases Relation.ReflTransGen.cases_head hv with rfl | ⟨z, hz, hzv⟩
    · exact absurd hy (not_gives_of_prop heq)
    · have hyz := hy.unique hz ha (firesOn_of_descends hyu (firesOn_of_prop hep hp m))
        (firesOn_of_descends hzv (firesOn_of_prop heq hq m))
      exact ih (hyz ▸ hzv) (hy.apart ha)

end

theorem Tableau.Unfolds.trigger_unique {t : Tableau} {f : Formula} (ht : t.Unfolds f)
    (ha : f.nnf.Apart) {n : Nat} {i : Fin t.size} (hw : t.Walk n i) {p q : Proposition}
    (hp : p ∈ t.propositions i) (hq : q ∈ t.propositions i) (htp : p.hasTrigger = true)
    (htq : q.hasTrigger = true) : p = q := by
  obtain ⟨u, hu, hep⟩ := mem_propositions hp
  obtain ⟨v, hv, heq⟩ := mem_propositions hq
  cases hw with
  | init => exact absurd hu (IndexSet.mem_empty u)
  | step hw hj =>
    obtain ⟨choices, hd⟩ := ht.exists_satisfied_descends hw hj
    have hroot : (t.arena.formula t.root).Apart := ht.formula_root ▸ ha
    obtain rfl : u = v := Arena.descends_unique (hd u hu) (hd v hv) hroot hep htp heq htq
    exact Expr.prop.inj (hep.symm.trans heq)

/-- A formula that compiles has at most one trigger in each state, if the disjunctions that negation
turns into conjunctions keep their triggers apart as well. -/
theorem one_trigger_per_state {σ : Type} [Sink σ] {f : Formula} {sink : σ} {c : Compiled σ}
    (hc : compile f sink = .ok c) (hb : f.Bounded) (ha : f.negatedOrsApart false = true)
    (i : Fin c.automaton.size) :
    (∀ p ∈ (c.automaton.state i).propositions, ∀ q ∈ (c.automaton.state i).propositions,
      p.hasTrigger = true → q.hasTrigger = true → p = q) ∧ (c.automaton.firings i).length ≤ 1 := by
  obtain ⟨hplaced, notes, rfl⟩ := compile_cases hc
  have ht : (Tableau.build f).Unfolds f := Tableau.buildWith_unfolds _ f
  have hapart := (Formula.apart_nnf_negNnf hplaced hb).1 ha
  obtain ⟨n, hw⟩ := Tableau.exists_walk_build f i
  have huniq : ∀ p ∈ ((Automaton.ofTableau f (.build f)).state i).propositions,
      ∀ q ∈ ((Automaton.ofTableau f (.build f)).state i).propositions,
      p.hasTrigger = true → q.hasTrigger = true → p = q := by
    intro p hp q hq htp htq
    rw [Automaton.propositions_ofTableau (t := .build f) i] at hp hq
    exact ht.trigger_unique hapart hw hp hq htp htq
  exact ⟨huniq, Automaton.length_firings_le_one (Automaton.nodup_propositions_build f i) huniq⟩

theorem one_trigger_per_state_negatedOr :
    let p : Proposition := ⟨.event "p", none, some (.callback "ring"), none⟩
    let q : Proposition := ⟨.event "p", none, some (.callback "stop"), none⟩
    let f := ((Formula.next (.prop p)).not.or (Formula.next (.next (.prop q))).not).not
    ∃ c, compile f ({} : NullSink) = .ok c ∧ f.Bounded ∧ f.negatedOrsApart false = true ∧
      f.hasTrigger = true ∧ ∀ i, (c.automaton.firings i).length ≤ 1 := by
  intro p q f
  obtain ⟨c, hc⟩ := exists_compile (f := f) (by decide) ({} : NullSink)
  have hb : f.Bounded := by
    intro a b
    simp [f, Formula.subformulas]
  have ha : f.negatedOrsApart false = true := by decide
  exact ⟨c, hc, hb, ha, rfl, fun i => (one_trigger_per_state hc hb ha i).2⟩

/-- Negation turns the disjunction into a conjunction of two triggers that are due on one event. -/
theorem compiled_state_may_list_two_triggers :
    ¬ ∀ (f : Formula) (c : Compiled NullSink), compile f {} = .ok c → f.Bounded →
      ∀ i, ∀ p ∈ (c.automaton.state i).propositions, ∀ q ∈ (c.automaton.state i).propositions,
        p.hasTrigger = true → q.hasTrigger = true → p = q := by
  let p : Proposition := ⟨.event "p", none, some (.callback "ring"), none⟩
  let q : Proposition := ⟨.event "p", none, some (.callback "stop"), none⟩
  let f := ((Formula.next (.prop p)).not.or (Formula.next (.prop q)).not).not
  have hlisted : (match compile f ({} : NullSink) with
      | .ok c => (List.finRange c.automaton.size).any fun i =>
          (c.automaton.state i).propositions.contains p && (c.automaton.state i).propositions.contains q
      | .error _ => false) = true := by decide +kernel
  obtain ⟨c, hc⟩ := exists_compile (f := f) (by decide) ({} : NullSink)
  rw [hc] at hlisted
  obtain ⟨i, _, hi⟩ := List.any_eq_true.1 hlisted
  simp only [Bool.and_eq_true, List.contains_iff_mem] at hi
  have hb : f.Bounded := by
    intro a b
    simp [f, Formula.subformulas]
  intro h
  have hpq : p = q := h f c hc hb i p hi.1 q hi.2 rfl rfl
  exact absurd hpq (by decide)

end TemporalMonitor
