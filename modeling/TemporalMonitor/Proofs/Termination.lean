import Mathlib.Logic.Relation
import TemporalMonitor.Proofs.TableauEdges

/-! Unfolding ends. It is a sequence of steps, and at each of them any pending obligation of the node
on top of the stack may be met. Whichever are met, every step leaves less work, so the number of steps
is bounded by what the arena holds; and distinct nodes have distinct keys, so their number is too. -/

namespace TemporalMonitor

abbrev WorkState (n : Nat) := Builder n × List (Node n)

/-- One step on the node on top of the stack, which meets the obligation that `S` picks. -/
def WorkState.StepBy (A : Arena) (S : Strategy A.size) (c d : WorkState A.size) : Prop :=
  ∃ node stack, c.2 = node :: stack ∧
    d = ((c.1.step A S node).1, (c.1.step A S node).2 ++ stack)

/-- One step by any strategy, so that what is picked may depend on all that came before. -/
def WorkState.Step (A : Arena) (c d : WorkState A.size) : Prop :=
  ∃ S, WorkState.StepBy A S c d

/-- Unfolding `root` may leave the builder `b`, with nothing more to work off. -/
def Arena.MayLeave (A : Arena) (root : Fin A.size) (b : Builder A.size) : Prop :=
  Relation.ReflTransGen (WorkState.Step A) (Builder.opening root) (b, [])

theorem Builder.expand_steps (A : Arena) (S : Strategy A.size) (b : Builder A.size)
    (stack : List (Node A.size)) :
    Relation.ReflTransGen (WorkState.StepBy A S) (b, stack) (b.expand A S stack, []) := by
  fun_induction Builder.expand A S b stack with
  | case1 b => exact .refl
  | case2 b node stack r ih => exact .head ⟨node, stack, rfl, rfl⟩ ih

theorem Arena.mayLeave_unfold (A : Arena) (root : Fin A.size) (S : Strategy A.size) :
    A.MayLeave root (A.unfold root S) :=
  Relation.ReflTransGen.mono (fun _ _ h => ⟨S, h⟩) _ _ (Builder.expand_steps A S _ _)

/-- What holds at the opening and is kept by every step holds at the end. -/
theorem Arena.MayLeave.of_step {A : Arena} {root : Fin A.size} {b : Builder A.size}
    {P : WorkState A.size → Prop} (h : A.MayLeave root b) (h0 : P (Builder.opening root))
    (hs : ∀ c d, P c → WorkState.Step A c d → P d) : P (b, []) := by
  have hrun : ∀ d, Relation.ReflTransGen (WorkState.Step A) (Builder.opening root) d → P d := by
    intro d hd
    induction hd with
    | refl => exact h0
    | tail _ hstep ih => exact hs _ _ ih hstep
  exact hrun _ h

section

variable {A : Arena} {c d : WorkState A.size}

theorem WorkState.Step.work_lt (h : WorkState.Step A c d) : d.1.work d.2 < c.1.work c.2 := by
  obtain ⟨S, node, stack, hc, rfl⟩ := h
  rw [hc]
  exact Builder.work_step_lt A S c.1 node stack

theorem WorkState.add_work_le {run : Nat → WorkState A.size} {n : Nat}
    (h : ∀ k, k < n → WorkState.Step A (run k) (run (k + 1))) :
    n + (run n).1.work (run n).2 ≤ (run 0).1.work (run 0).2 := by
  induction n with
  | zero => simp
  | succ n ih =>
    have hh := ih fun k hk => h k (by omega)
    have hlt := (h n (by omega)).work_lt
    omega

def stepBound (n : Nat) : Nat :=
  (keyCount n + 1) * weightBound n

theorem Builder.work_opening_le {n : Nat} (root : Fin n) :
    (opening root).1.work (opening root).2 ≤ stepBound n := by
  have hw := Node.weight_le (⟨.numbered 1, [0], {root}, ∅, ∅⟩ : Node n)
  simp only [opening, work, start, stackWeight, stepBound, Array.size_empty,
    Nat.sub_zero, Nat.add_mul, Nat.one_mul]
  omega

end

theorem keyCount_eq (n : Nat) : keyCount n = Nat.pow 4 n := by
  have h : Nat.pow (2 * 2) n = Nat.pow 2 n * Nat.pow 2 n := Nat.mul_pow 2 2 n
  exact h.symm

theorem Tableau.size_ofBuilder_le (f : Formula)
    (b : Builder (Arena.empty.intern f.nnf).arena.size) :
    (Tableau.ofBuilder f b).size ≤ Nat.pow 4 (Arena.empty.intern f.nnf).arena.size + 1 := by
  have hk := length_le_of_nodup_keys b.keys_nodup
  rw [List.length_map, Array.length_toList, keyCount_eq] at hk
  exact Nat.succ_le_succ hk

/-- Unfolding takes a bounded number of steps, whichever obligations are met first, it runs until the
stack is empty, and the tableau has no more nodes than there are pairs of sets of entries. -/
theorem unfolding_terminates (f : Formula) :
    let A := (Arena.empty.intern f.nnf).arena
    let root := (Arena.empty.intern f.nnf).index
    (∀ (run : Nat → WorkState A.size) (n : Nat), run 0 = Builder.opening root →
      (∀ k, k < n → WorkState.Step A (run k) (run (k + 1))) → n ≤ stepBound A.size) ∧
    (∃ b, Relation.ReflTransGen (WorkState.StepBy A (.least A.size)) (Builder.opening root) (b, []) ∧
      Tableau.build f = .ofBuilder f b) ∧
    (Tableau.build f).size ≤ Nat.pow 4 A.size + 1 := by
  intro A root
  refine ⟨?_, ⟨A.unfold root (.least A.size), Builder.expand_steps A _ _ _, rfl⟩,
    Tableau.size_ofBuilder_le f _⟩
  intro run n h0 hs
  have hn := WorkState.add_work_le hs
  rw [h0] at hn
  exact Nat.le_trans (Nat.le_trans (Nat.le_add_right n _) hn) (Builder.work_opening_le root)

end TemporalMonitor
