import Mathlib.Data.List.Induction
import TemporalMonitor.Proofs.Paths
import TemporalMonitor.Proofs.PickOrder
import TemporalMonitor.Proofs.TriggerSteps

/-! Where obligations come from. Along a walk from the initial node one branch is chosen for each
obligation on each event, and every obligation met at the end descends from the root through what the
branches ask, now or one event later. A trigger that may fire for an obligation may therefore fire for
all it descends from. -/

namespace TemporalMonitor

/-- An obligation, and the number of the event on which it is met. -/
abbrev Task (n : Nat) := Fin n × Nat

/-- The branch chosen for the first task asks for the second. There is one choice for each event. -/
def Arena.Gives (A : Arena) (choices : List (Choice A.size)) (x y : Task A.size) : Prop :=
  ∃ choice, choices[x.2]? = some choice ∧ choice x.1 ∈ (A.rule x.1).branches ∧
    (y.1 ∈ (choice x.1).now ∧ y.2 = x.2 ∨ y.1 ∈ (choice x.1).later ∧ y.2 = x.2 + 1)

/-- A trigger that is due with the task may fire on the event `m`. -/
def Arena.FiresOn (A : Arena) (x : Task A.size) (m : Nat) : Prop :=
  ∃ k, m = x.2 + k ∧ ((A.formula x.1).firingSteps false).covers k = true

/-- The node is at the end of `n` edges from the initial one. -/
inductive Tableau.Walk (t : Tableau) : Nat → Fin t.size → Prop
  | init : t.Walk 0 t.init
  | step {n : Nat} {i j : Fin t.size} (h : t.Walk n i) (hj : j ∈ t.out i) : t.Walk (n + 1) j

section

variable {A : Arena} {choices : List (Choice A.size)} {x y : Task A.size}

theorem Arena.Gives.append (h : A.Gives choices x y) (choice : Choice A.size) :
    A.Gives (choices ++ [choice]) x y := by
  obtain ⟨c, hc, h⟩ := h
  have hlt : x.2 < choices.length := (List.getElem?_eq_some_iff.1 hc).1
  exact ⟨c, (List.getElem?_append_left hlt).trans hc, h⟩

/-- Working off what is due by one more choice: what comes up descends from what was due. -/
theorem Arena.CompletesBy.descends {choice : Choice A.size} {due : IndexSet A.size}
    {key : Key A.size} (h : A.CompletesBy choice ⟨.init, [], due, ∅, ∅⟩ key)
    (hd : ∀ d ∈ due, Relation.ReflTransGen (A.Gives choices) x (d, choices.length)) :
    (∀ u ∈ key.1, Relation.ReflTransGen (A.Gives (choices ++ [choice])) x (u, choices.length)) ∧
    ∀ u ∈ key.2,
      Relation.ReflTransGen (A.Gives (choices ++ [choice])) x (u, choices.length + 1) := by
  have hlast : (choices ++ [choice])[choices.length]? = some choice := by simp
  have hup : ∀ u, Derives choice due ∅ u →
      Relation.ReflTransGen (A.Gives (choices ++ [choice])) x (u, choices.length) := by
    intro u hu
    induction hu with
    | pending hp => exact Relation.ReflTransGen.mono (fun _ _ hg => hg.append choice) _ _ (hd _ hp)
    | now hi hc _ ih => exact ih.tail ⟨choice, hlast, h.choice_mem _ hi, .inl ⟨hc, rfl⟩⟩
  refine ⟨?_, ?_⟩
  · intro u hu
    exact hup u (((h.satisfied u).1 hu).resolve_left (IndexSet.mem_empty u))
  · intro u hu
    obtain ⟨i, hi, hl⟩ := ((h.deferred u).1 hu).resolve_left (IndexSet.mem_empty u)
    exact (hup i hi).tail ⟨choice, hlast, h.choice_mem i hi, .inr ⟨hl, rfl⟩⟩

theorem Expr.branch_eq_of_prop {ι : Type} {self : ι} {p : Proposition} {b : Branch ι}
    (hb : b ∈ ((Expr.prop p).rule self).branches) : b = ⟨[], []⟩ := by
  simp only [rule] at hb
  split at hb <;> simp_all [Rule.branches]

theorem Expr.covers_of_now {ι : Type} {g : ι → Formula} {e : Expr ι} {self c : ι} {b : Branch ι}
    {k : Nat} (hb : b ∈ (e.rule self).branches) (hc : c ∈ b.now)
    (h : ((g c).firingSteps false).covers k = true) :
    ((e.toFormula g).firingSteps false).covers k = true := by
  cases e with
  | prop p => simp_all [branch_eq_of_prop hb]
  | not a | next a => simp_all [rule, Rule.branches]
  | and a a' | or a a' =>
    apply TriggerSteps.covers_union.2
    simp only [rule, Rule.branches, List.mem_cons, List.not_mem_nil, or_false] at hb
    grind
  | «until» a a' | release a a' =>
    refine TriggerSteps.covers_unbounded.2 ⟨k, Nat.le_refl k, TriggerSteps.covers_union.2 ?_⟩
    simp only [rule, Rule.branches, List.mem_cons, List.not_mem_nil, or_false] at hb
    grind

/-- What is put off is the operand of a next, or an until or a release itself, whose steps go on for
ever. -/
theorem Expr.covers_of_later {ι : Type} {g : ι → Formula} {e : Expr ι} {self c : ι} {b : Branch ι}
    {k : Nat} (hs : g self = e.toFormula g) (hb : b ∈ (e.rule self).branches) (hc : c ∈ b.later)
    (h : ((g c).firingSteps false).covers k = true) :
    ((e.toFormula g).firingSteps false).covers (k + 1) = true := by
  cases e with
  | prop p => simp_all [branch_eq_of_prop hb]
  | next a =>
    have hca : c = a := by simp_all [rule, Rule.branches]
    exact TriggerSteps.covers_shifted.2 ⟨k, rfl, hca ▸ h⟩
  | not a | and a a' | or a a' =>
    simp only [rule, Rule.branches, List.mem_cons, List.not_mem_nil, or_false] at hb
    grind
  | «until» a a' | release a a' =>
    have hcs : c = self := by
      simp only [rule, Rule.branches, List.mem_cons, List.not_mem_nil, or_false] at hb
      grind
    rw [hcs, hs] at h
    obtain ⟨j, hjk, hj⟩ := TriggerSteps.covers_unbounded.1 h
    exact TriggerSteps.covers_unbounded.2 ⟨j, Nat.le_succ_of_le hjk, hj⟩

theorem Arena.Gives.firesOn {m : Nat} (h : A.Gives choices x y) (hy : A.FiresOn y m) :
    A.FiresOn x m := by
  obtain ⟨choice, _, hb, h⟩ := h
  obtain ⟨k, hk, hc⟩ := hy
  have hx := A.formula_eq x.1
  rcases h with ⟨hn, he⟩ | ⟨hl, he⟩
  · exact ⟨k, he ▸ hk, hx ▸ Expr.covers_of_now hb hn hc⟩
  · exact ⟨k + 1, by omega, hx ▸ Expr.covers_of_later hx hb hl hc⟩

theorem Arena.firesOn_of_descends {m : Nat} (h : Relation.ReflTransGen (A.Gives choices) x y)
    (hy : A.FiresOn y m) : A.FiresOn x m := by
  induction h with
  | refl => exact hy
  | tail _ hg ih => exact ih (hg.firesOn hy)

theorem Arena.firesOn_of_prop {u : Fin A.size} {p : Proposition} (he : A.expr u = .prop p)
    (hp : p.hasTrigger = true) (m : Nat) : A.FiresOn (u, m) m := by
  refine ⟨0, rfl, ?_⟩
  rw [formula_eq, he]
  simp [Expr.toFormula, Formula.firingSteps, hp]

end

section

variable {t : Tableau} {f : Formula} {n : Nat} {i j : Fin t.size}

theorem Tableau.Unfolds.exists_due_descends (ht : t.Unfolds f) (h : t.Walk n i) :
    ∃ choices, choices.length = n ∧
      ∀ d ∈ t.due i, Relation.ReflTransGen (t.arena.Gives choices) (t.root, 0) (d, n) := by
  induction h with
  | init =>
    refine ⟨[], rfl, ?_⟩
    intro d hd
    have hroot : d = t.root := IndexSet.mem_singleton.1 hd
    rw [hroot]
  | step _ hj ih =>
    obtain ⟨choices, rfl, hd⟩ := ih
    obtain ⟨choice, hc⟩ := ht.expands hj
    refine ⟨choices ++ [choice], by simp, ?_⟩
    rw [due_of_mem_out hj]
    exact (hc.descends hd).2

theorem Tableau.Unfolds.exists_satisfied_descends (ht : t.Unfolds f) (h : t.Walk n i)
    (hj : j ∈ t.out i) :
    ∃ choices, ∀ u ∈ (t.node j).satisfied,
      Relation.ReflTransGen (t.arena.Gives choices) (t.root, 0) (u, n) := by
  obtain ⟨choices, rfl, hd⟩ := ht.exists_due_descends h
  obtain ⟨choice, hc⟩ := ht.expands hj
  exact ⟨choices ++ [choice], (hc.descends hd).1⟩

theorem Tableau.walk_of_reaches {G : Guards} {es : List Event}
    (h : (Automaton.ofTableau f t).Reaches G es i) : t.Walk es.length i := by
  induction es using List.reverseRecOn generalizing i with
  | nil =>
    have hi : t.init = i := h
    exact hi ▸ .init
  | append_singleton es e ih =>
    obtain ⟨(k : Fin t.size), hk, hi, _⟩ := Automaton.reaches_append_singleton.1 h
    rw [Automaton.out_ofTableau] at hi
    rw [List.length_append]
    exact (ih hk).step hi

theorem Tableau.Unfolds.exists_walk (ht : t.Unfolds f) {l : Option (Key t.arena.size)}
    (h : Relation.ReflTransGen (t.arena.Leads t.root) none l) : ∃ n i, t.label i = l ∧ t.Walk n i := by
  induction h with
  | refl => exact ⟨0, t.init, rfl, .init⟩
  | tail _ hl ih =>
    obtain ⟨n, i, rfl, hi⟩ := ih
    obtain ⟨j, hj, rfl⟩ := ht.exists_label hl
    exact ⟨n + 1, j, rfl, hi.step hj⟩

end

theorem Tableau.exists_walk_build (f : Formula) (i : Fin (Tableau.build f).size) :
    ∃ n, (Tableau.build f).Walk n i := by
  have hleft : (Arena.empty.intern f.nnf).arena.MayLeave (Arena.empty.intern f.nnf).index _ :=
    Arena.mayLeave_unfold _ _ (.least _)
  have hl := (Tableau.exists_label_iff hleft _).1 ⟨i, rfl⟩
  obtain ⟨n, j, hj, hw⟩ := (Tableau.buildWith_unfolds _ f).exists_walk hl
  exact ⟨n, Tableau.label_build_injective f hj ▸ hw⟩

end TemporalMonitor
