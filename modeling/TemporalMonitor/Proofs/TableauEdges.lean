import TemporalMonitor.Automaton
import TemporalMonitor.Proofs.Expansion
import TemporalMonitor.Proofs.Interning
import TemporalMonitor.Proofs.Semantics

/-! The edges of a finished tableau. While nodes are worked off, the edges found so far and those
that the nodes on the stack still lead to are, for each node that has been stored, exactly the
complete expansions of what it defers. So the successors of a node are its complete expansions, one
for each key, whatever the strategy. -/

namespace TemporalMonitor

/-- An edge from the node with id `source` to the stored node with the key. -/
def Builder.Edge {n : Nat} (b : Builder n) (source : Nat) (key : Key n) : Prop :=
  ∃ m ∈ b.elementary, m.key = key ∧ source ∈ m.incoming

/-- What the node with an id asks of the next event, if there is such a node. -/
def Builder.due? {n : Nat} (root : Fin n) (b : Builder n) : Nat → Option (IndexSet n)
  | 0 => some {root}
  | k + 1 => (b.elementary[k]?).map Node.deferred

/-- An edge that is there, or that a node on the stack leads to. -/
def Builder.Finds (A : Arena) (b : Builder A.size) (stack : List (Node A.size)) (source : Nat)
    (key : Key A.size) : Prop :=
  b.Edge source key ∨ ∃ node ∈ stack, source ∈ node.incoming ∧ A.Completes node key

theorem Builder.finds_nil {A : Arena} {b : Builder A.size} {p : Nat} {key : Key A.size} :
    b.Finds A [] p key ↔ b.Edge p key := by
  simp [Finds]

structure Builder.Exact (A : Arena) (root : Fin A.size) (b : Builder A.size)
    (stack : List (Node A.size)) : Prop where
  edge_le : ∀ p key, b.Edge p key → p ≤ b.elementary.size
  stack_le : ∀ node ∈ stack, ∀ p ∈ node.incoming, p ≤ b.elementary.size
  fresh : ∀ node ∈ stack, node.Fresh
  finds : ∀ p due, b.due? root p = some due → ∀ key, b.Finds A stack p key ↔ A.Expands due key

/-- What one step does: a node with nothing pending folds into its twin or is stored and followed
by its successor, and any other gives way to one node for each branch of an obligation. -/
theorem Builder.step_cases (A : Arena) (S : Strategy A.size) (b : Builder A.size)
    (node : Node A.size) :
    ((∀ i, ¬ i ∈ node.pending) ∧ ∃ target, b.twin? node = some target ∧
      b.step A S node = (b.fold node target, [])) ∨
    ((∀ i, ¬ i ∈ node.pending) ∧ ∃ h, b.step A S node = (b.store node h, [b.successor node])) ∨
    ∃ i ∈ node.pending, (b.step A S node).1.elementary = b.elementary ∧
      (∀ m ∈ (b.step A S node).2, ∃ branch ∈ (A.rule i).branches, ∃ name,
        m = { node.meet i branch with name := name }) ∧
      ∀ branch ∈ (A.rule i).branches, ∃ m ∈ (b.step A S node).2, ∃ name,
        m = { node.meet i branch with name := name } := by
  unfold step
  split
  · rename_i hp
    have he := S.empty_of_pick hp
    unfold complete
    split
    · rename_i target ht
      exact .inl ⟨he, target, ht, rfl⟩
    · rename_i ht
      exact .inr (.inl ⟨he, ht, rfl⟩)
  · rename_i i hp
    refine .inr (.inr ⟨i, S.mem_of_pick hp, ?_⟩)
    split
    · rename_i hr
      simp [note, hr, Rule.branches]
    · rename_i branch hr
      simp only [hr, Rule.branches, List.mem_singleton]
      exact ⟨trivial, fun m hm => ⟨branch, rfl, node.name, hm⟩,
        fun _ hb => ⟨node.meet i branch, rfl, node.name, hb ▸ rfl⟩⟩
    · rename_i first second hr
      simp only [hr, Rule.branches, List.mem_cons, List.not_mem_nil, or_false]
      refine ⟨rfl, ?_, ?_⟩
      · intro m hh
        rcases hh with rfl | rfl
        · exact ⟨first, .inl rfl, _, rfl⟩
        · exact ⟨second, .inr rfl, _, rfl⟩
      · intro branch hh
        rcases hh with rfl | rfl
        · exact ⟨_, .inl rfl, _, rfl⟩
        · exact ⟨_, .inr rfl, _, rfl⟩

theorem Builder.edge_fold {n : Nat} {b : Builder n} {node target : Node n}
    (ht : b.twin? node = some target) {p : Nat} {key : Key n} :
    (b.fold node target).Edge p key ↔ b.Edge p key ∨ p ∈ node.incoming ∧ key = node.key := by
  have hm : target ∈ b.elementary := Array.mem_of_find?_eq_some ht
  have hk : target.key = node.key := by simpa using Array.find?_some ht
  simp only [Edge, fold, Array.mem_map]
  constructor
  · intro hh
    obtain ⟨_, ⟨m, hm, rfl⟩, rfl, hp⟩ := hh
    by_cases he : m.key = node.key
    · simp only [Node.absorb, he, if_true, mem_mergeAscending] at hp
      rcases hp with hp | hp
      · exact .inl ⟨m, hm, (m.key_absorb node).symm, hp⟩
      · exact .inr ⟨hp, (m.key_absorb node).trans he⟩
    · simp only [Node.absorb, he, if_false] at hp
      exact .inl ⟨m, hm, (m.key_absorb node).symm, hp⟩
  · intro hh
    rcases hh with ⟨m, hm, rfl, hp⟩ | ⟨hp, rfl⟩
    · refine ⟨m.absorb node, ⟨m, hm, rfl⟩, m.key_absorb node, ?_⟩
      unfold Node.absorb
      split
      · exact mem_mergeAscending.2 (.inl hp)
      · exact hp
    · refine ⟨target.absorb node, ⟨target, hm, rfl⟩, (target.key_absorb node).trans hk, ?_⟩
      simp [Node.absorb, hk, mem_mergeAscending, hp]

theorem Builder.edge_store {n : Nat} {b : Builder n} {node : Node n} {h : b.twin? node = none}
    {p : Nat} {key : Key n} :
    (b.store node h).Edge p key ↔ b.Edge p key ∨ p ∈ node.incoming ∧ key = node.key := by
  simp only [Edge, store, Array.mem_push]
  constructor
  · intro hh
    rcases hh with ⟨m, hm | rfl, rfl, hp⟩
    · exact .inl ⟨m, hm, rfl, hp⟩
    · exact .inr ⟨hp, rfl⟩
  · intro hh
    rcases hh with ⟨m, hm, rfl, hp⟩ | ⟨hp, rfl⟩
    · exact ⟨m, .inl hm, rfl, hp⟩
    · exact ⟨node, .inr rfl, rfl, hp⟩

theorem Builder.due?_fold {n : Nat} (root : Fin n) (b : Builder n) (node target : Node n) (p : Nat) :
    (b.fold node target).due? root p = b.due? root p := by
  cases p with
  | zero => rfl
  | succ k =>
    simp only [due?, fold, Array.getElem?_map, Option.map_map]
    congr 1
    funext m
    simp only [Function.comp, Node.absorb]
    split <;> rfl

theorem Builder.due?_store {n : Nat} (root : Fin n) {b : Builder n} {node : Node n}
    (h : b.twin? node = none) {p : Nat} (hp : p ≤ b.elementary.size) :
    (b.store node h).due? root p = b.due? root p := by
  cases p with
  | zero => rfl
  | succ k =>
    have hk : k ≠ b.elementary.size := Nat.ne_of_lt hp
    simp [due?, store, Array.getElem?_push, hk]

theorem Builder.Exact.fold {A : Arena} {root : Fin A.size} {b : Builder A.size}
    {node target : Node A.size} {stack : List (Node A.size)} (h : b.Exact A root (node :: stack))
    (he : ∀ i, ¬ i ∈ node.pending) (ht : b.twin? node = some target) :
    (b.fold node target).Exact A root stack := by
  have hsize : (b.fold node target).elementary.size = b.elementary.size := Array.size_map
  refine ⟨?_, ?_, fun m hm => h.fresh m (by simp [hm]), ?_⟩
  · intro p key hp
    rw [hsize]
    rcases (edge_fold ht).1 hp with hp | ⟨hp, _⟩
    · exact h.edge_le p key hp
    · exact h.stack_le node (by simp) p hp
  · intro m hm p hp
    rw [hsize]
    exact h.stack_le m (by simp [hm]) p hp
  · intro p due hp key
    rw [due?_fold] at hp
    rw [← h.finds p due hp, Finds, edge_fold ht, Finds]
    simp only [List.mem_cons, exists_eq_or_imp, A.completes_iff_of_elementary he, or_assoc]

theorem Builder.Exact.store {A : Arena} {root : Fin A.size} {b : Builder A.size}
    {node : Node A.size} {stack : List (Node A.size)} (h : b.Exact A root (node :: stack))
    (he : ∀ i, ¬ i ∈ node.pending) (ht : b.twin? node = none) :
    (b.store node ht).Exact A root (b.successor node :: stack) := by
  have hsize : (b.store node ht).elementary.size = b.elementary.size + 1 := Array.size_push _
  have hle : ∀ p key, (b.store node ht).Edge p key → p ≤ b.elementary.size := by
    intro p key hp
    rcases edge_store.1 hp with hp | ⟨hp, _⟩
    · exact h.edge_le p key hp
    · exact h.stack_le node (by simp) p hp
  refine ⟨fun p key hp => hsize ▸ Nat.le_succ_of_le (hle p key hp), ?_, ?_, ?_⟩
  · intro m hm p hp
    rw [hsize]
    rcases List.mem_cons.1 hm with rfl | hm
    · exact Nat.le_of_eq (List.mem_singleton.1 hp)
    · exact Nat.le_succ_of_le (h.stack_le m (by simp [hm]) p hp)
  · intro m hm
    rcases List.mem_cons.1 hm with rfl | hm
    · exact fun i _ => IndexSet.mem_empty i
    · exact h.fresh m (by simp [hm])
  · intro p due hp key
    by_cases hn : p ≤ b.elementary.size
    · -- An old source: its edges are as before, and the successor is not its own.
      rw [due?_store root ht hn] at hp
      have hs : ¬ p ∈ (b.successor node).incoming := by
        simp only [successor, nextId, List.mem_singleton]
        omega
      rw [← h.finds p due hp, Finds, edge_store, Finds]
      simp only [List.mem_cons, exists_eq_or_imp, A.completes_iff_of_elementary he, hs, false_and,
        false_or, or_assoc]
    · -- The new source: its edges all come from the successor.
      have hpe : p = b.elementary.size + 1 := by
        cases p with
        | zero => omega
        | succ k =>
          obtain ⟨m, hm, _⟩ := Option.map_eq_some_iff.1 hp
          have := (Array.getElem?_eq_some_iff.1 hm).1
          rw [hsize] at this
          omega
      subst hpe
      have hdue : due = node.deferred := by simpa [due?, Builder.store] using hp.symm
      subst hdue
      have hedge : ¬ (b.store node ht).Edge (b.elementary.size + 1) key :=
        fun hc => hn (hle _ key hc)
      have hstack : ∀ m ∈ stack, ¬ b.elementary.size + 1 ∈ m.incoming :=
        fun m hm hc => hn (h.stack_le m (by simp [hm]) _ hc)
      have hs : b.elementary.size + 1 ∈ (b.successor node).incoming := by simp [successor, nextId]
      constructor
      · intro hh
        rcases hh with hc | ⟨m, hm, hp, hc⟩
        · exact absurd hc hedge
        · rcases List.mem_cons.1 hm with rfl | hm
          · exact (A.completes_relabel _ _).1 hc
          · exact absurd hp (hstack m hm)
      · intro hc
        exact .inr ⟨b.successor node, by simp, hs, (A.completes_relabel _ _).2 hc⟩

theorem Builder.Exact.meet {A : Arena} {root : Fin A.size} {b b' : Builder A.size}
    {node : Node A.size} {new stack : List (Node A.size)} (h : b.Exact A root (node :: stack))
    {i : Fin A.size} (hi : i ∈ node.pending) (hb : b'.elementary = b.elementary)
    (hnew : ∀ m ∈ new, ∃ branch ∈ (A.rule i).branches, ∃ name,
      m = { node.meet i branch with name := name })
    (hall : ∀ branch ∈ (A.rule i).branches, ∃ m ∈ new, ∃ name,
      m = { node.meet i branch with name := name }) :
    b'.Exact A root (new ++ stack) := by
  have hf : node.Fresh := h.fresh node (by simp)
  have hedge : ∀ p key, b'.Edge p key ↔ b.Edge p key := fun p key => by simp only [Edge, hb]
  refine ⟨?_, ?_, ?_, ?_⟩
  · intro p key hp
    rw [hb]
    exact h.edge_le p key ((hedge p key).1 hp)
  · intro m hm p hp
    rw [hb]
    rcases List.mem_append.1 hm with hm | hm
    · obtain ⟨branch, _, name, rfl⟩ := hnew m hm
      exact h.stack_le node (by simp) p hp
    · exact h.stack_le m (by simp [hm]) p hp
  · intro m hm
    rcases List.mem_append.1 hm with hm | hm
    · obtain ⟨branch, hbr, name, rfl⟩ := hnew m hm
      exact hf.meet hbr
    · exact h.fresh m (by simp [hm])
  · intro p due hp key
    have hdue : b'.due? root p = b.due? root p := by
      cases p with
      | zero => rfl
      | succ k => simp only [due?, hb]
    rw [hdue] at hp
    rw [← h.finds p due hp, Finds, Finds, hedge]
    constructor
    · intro hh
      rcases hh with hc | ⟨m, hm, hpm, hc⟩
      · exact .inl hc
      · rcases List.mem_append.1 hm with hm | hm
        · obtain ⟨branch, hbr, name, rfl⟩ := hnew m hm
          have hc := (A.completes_relabel _ _).1 hc
          exact .inr ⟨node, by simp, hpm, (A.completes_iff_meet hi hf).2 ⟨branch, hbr, hc⟩⟩
        · exact .inr ⟨m, by simp [hm], hpm, hc⟩
    · intro hh
      rcases hh with hc | ⟨m, hm, hpm, hc⟩
      · exact .inl hc
      · rcases List.mem_cons.1 hm with rfl | hm
        · obtain ⟨branch, hbr, hc⟩ := (A.completes_iff_meet hi hf).1 hc
          obtain ⟨m', hm', name, rfl⟩ := hall branch hbr
          exact .inr ⟨_, List.mem_append_left _ hm', hpm, (A.completes_relabel _ _).2 hc⟩
        · exact .inr ⟨m, List.mem_append_right _ hm, hpm, hc⟩

theorem Builder.Exact.step {A : Arena} {root : Fin A.size} {b : Builder A.size}
    {node : Node A.size} {stack : List (Node A.size)} (S : Strategy A.size)
    (h : b.Exact A root (node :: stack)) :
    (b.step A S node).1.Exact A root ((b.step A S node).2 ++ stack) := by
  rcases b.step_cases A S node with ⟨he, target, ht, hs⟩ | ⟨he, ht, hs⟩ | ⟨i, hi, hb, hnew, hall⟩
  · rw [hs]
    exact h.fold he ht
  · rw [hs]
    exact h.store he ht
  · exact h.meet hi hb hnew hall

theorem Builder.Exact.expand {A : Arena} {root : Fin A.size} {b : Builder A.size}
    {stack : List (Node A.size)} (S : Strategy A.size) (h : b.Exact A root stack) :
    (b.expand A S stack).Exact A root [] := by
  fun_induction Builder.expand A S b stack with
  | case1 b => exact h
  | case2 b node stack r ih => exact ih (h.step S)

/-- Where unfolding begins: nothing is stored, and one node on the stack asks for the root. -/
def Builder.opening {n : Nat} (root : Fin n) : Builder n × List (Node n) :=
  ({ Builder.start n with named := 1 }, [⟨.numbered 1, [0], {root}, ∅, ∅⟩])

theorem Builder.opening_exact (A : Arena) (root : Fin A.size) :
    (opening root).1.Exact A root (opening root).2 := by
  refine ⟨?_, ?_, ?_, ?_⟩
  · intro p key hh
    obtain ⟨m, hm, _⟩ := hh
    simp [opening, start] at hm
  · simp [opening]
  · intro m hm i _
    rw [List.mem_singleton.1 hm]
    exact IndexSet.mem_empty i
  · intro p due hp key
    cases p with
    | succ k => simp [opening, due?, start] at hp
    | zero =>
      have hdue : {root} = due := Option.some.inj hp
      subst hdue
      constructor
      · intro hh
        rcases hh with ⟨m, hm, _⟩ | ⟨m, hm, _, hc⟩
        · simp [opening, start] at hm
        · rw [List.mem_singleton.1 hm] at hc
          exact (A.completes_relabel _ _).1 hc
      · intro hc
        exact .inr ⟨_, List.mem_singleton.2 rfl, by simp, (A.completes_relabel _ _).2 hc⟩

theorem Arena.unfold_exact (A : Arena) (root : Fin A.size) (S : Strategy A.size) :
    (A.unfold root S).Exact A root [] :=
  (Builder.opening_exact A root).expand S

/-- What a node asks of the next event; the initial node asks for the whole formula. -/
def Tableau.due (t : Tableau) (i : Fin t.size) : IndexSet t.arena.size :=
  i.cases {t.root} fun k => (t.node k.succ).deferred

@[simp] theorem Tableau.mem_out {t : Tableau} {i j : Fin t.size} :
    j ∈ t.out i ↔ i.val ∈ (t.node j).incoming := by
  simp [out]

theorem Tableau.due_of_mem_out {t : Tableau} {i j : Fin t.size} (h : j ∈ t.out i) :
    t.due j = (t.node j).deferred := by
  rw [mem_out] at h
  revert h
  refine Fin.cases ?_ (fun k _ => rfl) j
  intro h
  exact absurd h List.not_mem_nil

/-- The tableau holds the normal form of `f` and its parts only, and the successors of a node are
the complete expansions of what it asks. -/
structure Tableau.Unfolds (t : Tableau) (f : Formula) : Prop where
  formula_root : t.arena.formula t.root = f.nnf
  isNnf : ∀ u, (t.arena.formula u).isNnf = true
  expands : ∀ {i j}, j ∈ t.out i → t.arena.Expands (t.due i) (t.node j).key
  exists_out : ∀ {i key}, t.arena.Expands (t.due i) key → ∃ j ∈ t.out i, (t.node j).key = key

/-- The tableau of `f` with the nodes that a builder has stored. -/
def Tableau.ofBuilder (f : Formula) (b : Builder (Arena.empty.intern f.nnf).arena.size) :
    Tableau where
  arena := (Arena.empty.intern f.nnf).arena
  root := (Arena.empty.intern f.nnf).index
  elementary := b.elementary
  notes := .unfolding f (Arena.empty.intern f.nnf).arena.size :: b.notes.reverse ++
    [.unfolded (b.elementary.size + 1)]

theorem Tableau.unfolds_of_exact {f : Formula} {b : Builder (Arena.empty.intern f.nnf).arena.size}
    (hex : b.Exact _ (Arena.empty.intern f.nnf).index []) : (Tableau.ofBuilder f b).Unfolds f := by
  let t := Tableau.ofBuilder f b
  have hdue : ∀ i : Fin t.size, b.due? t.root i.val = some (t.due i) := by
    intro i
    refine Fin.cases rfl (fun k => ?_) i
    show (b.elementary[k.val]?).map Node.deferred = some (t.node k.succ).deferred
    have hk : k.val < b.elementary.size := k.isLt
    rw [Array.getElem?_eq_getElem hk]
    rfl
  have hfinds : ∀ (i : Fin t.size) key, b.Edge i.val key ↔ t.arena.Expands (t.due i) key := by
    intro i key
    exact Builder.finds_nil.symm.trans (hex.finds i.val (t.due i) (hdue i) key)
  refine ⟨Arena.formula_intern _ _, Arena.isNnf_formula_intern f.isNnf_nnf, ?_, ?_⟩
  · intro i j hj
    rw [mem_out] at hj
    apply (hfinds i _).1
    revert hj
    refine Fin.cases (fun hj => absurd hj List.not_mem_nil) (fun k hj => ?_) j
    exact ⟨t.elementary[k], Array.getElem_mem k.isLt, rfl, hj⟩
  · intro i key hk
    obtain ⟨m, hm, hkey, hp⟩ := (hfinds i key).2 hk
    obtain ⟨k, hkl, rfl⟩ := Array.mem_iff_getElem.1 hm
    exact ⟨(⟨k, hkl⟩ : Fin t.elementary.size).succ, mem_out.2 hp, hkey⟩

theorem Tableau.lt_size_of_mem_incoming {f : Formula}
    {b : Builder (Arena.empty.intern f.nnf).arena.size}
    (hex : b.Exact _ (Arena.empty.intern f.nnf).index []) {j : Fin (Tableau.ofBuilder f b).size}
    {p : Nat} (h : p ∈ ((Tableau.ofBuilder f b).node j).incoming) :
    p < (Tableau.ofBuilder f b).size := by
  revert h
  refine Fin.cases (fun h => absurd h List.not_mem_nil) (fun k h => ?_) j
  have hp : p ≤ b.elementary.size :=
    hex.edge_le p _ ⟨(Tableau.ofBuilder f b).elementary[k], Array.getElem_mem k.isLt, rfl, h⟩
  exact Nat.lt_succ_of_le hp

theorem Tableau.buildWith_unfolds (S : (n : Nat) → Strategy n) (f : Formula) :
    (Tableau.buildWith S f).Unfolds f :=
  unfolds_of_exact (Arena.unfold_exact _ _ (S _))

end TemporalMonitor
