import Mathlib.Data.List.Perm.Subperm
import TemporalMonitor.Proofs.FairRuns
import TemporalMonitor.Proofs.PickOrder

/-! What a finished tableau looks like. While nodes are worked off, those stored have nothing pending,
and the names of all nodes, on the stack or stored, are distinct numbers given before. Every node that
is stored can be reached from the initial node, so it is a complete expansion of what a node before it
asks for, and no expansion holds a false proposition. -/

namespace TemporalMonitor

theorem NodeName.text_injective : Function.Injective NodeName.text := by
  have hinit : ∀ k, NodeName.init.text ≠ (NodeName.numbered k).text := by
    intro k h
    have hhead := congrArg (fun s => s.toList.head?) h
    simp [text] at hhead
  intro a b h
  cases a with
  | init =>
    cases b with
    | init => rfl
    | numbered k => exact absurd h (hinit k)
  | numbered j =>
    cases b with
    | init => exact absurd h.symm (hinit j)
    | numbered k =>
      have hrepr : toString j = toString k := (String.append_right_inj "Node_").1 h
      rw [Nat.toString_eq_ofList_toDigits, Nat.toString_eq_ofList_toDigits] at hrepr
      have hdigits := congrArg (fun l => Nat.ofDigitChars 10 l 0) (String.ofList_injective hrepr)
      rw [Nat.ofDigitChars_ten_toDigits, Nat.ofDigitChars_ten_toDigits] at hdigits
      rw [hdigits]

/-- The names in use, those of stored nodes first. -/
def WorkState.names {n : Nat} (c : WorkState n) : List NodeName :=
  c.1.elementary.toList.map Node.name ++ c.2.map Node.name

/-- The `k` names given after the first `n`. -/
def namesAfter (n k : Nat) : List NodeName :=
  (List.range' (n + 1) k).map .numbered

theorem Builder.map_name_fold {n : Nat} (b : Builder n) (node target : Node n) :
    (b.fold node target).elementary.toList.map Node.name = b.elementary.toList.map Node.name := by
  have hname : ∀ m : Node n, (m.absorb node).name = m.name := by
    intro m
    unfold Node.absorb
    split <;> rfl
  simp [fold, hname]

/-- A step gives new names only, and drops or keeps the name of the node it works on. -/
theorem Builder.names_step (A : Arena) (S : Strategy A.size) (b : Builder A.size)
    (node : Node A.size) (stack : List (Node A.size)) :
    ∃ k, (b.step A S node).1.named = b.named + k ∧
      (WorkState.names ((b.step A S node).1, (b.step A S node).2 ++ stack)).Subperm
        (WorkState.names (b, node :: stack) ++ namesAfter b.named k) := by
  have hdrop : ∀ b' : Builder A.size,
      b'.elementary.toList.map Node.name = b.elementary.toList.map Node.name →
      (WorkState.names (b', stack)).Subperm (WorkState.names (b, node :: stack)) := by
    intro b' hb
    simp only [WorkState.names, hb, List.map_cons]
    exact ((List.sublist_cons_self _ _).append_left _).subperm
  unfold step
  split
  · unfold complete
    split
    · exact ⟨0, rfl, by simpa [namesAfter] using hdrop _ (b.map_name_fold node _)⟩
    · refine ⟨1, rfl, List.Perm.subperm ?_⟩
      simp only [WorkState.names, store, successor, name, namesAfter, Array.toList_push,
        List.map_append, List.map_cons, List.map_nil, List.append_assoc, List.cons_append,
        List.nil_append, List.range'_one]
      exact .append_left _ (.cons _ (List.perm_append_singleton _ _).symm)
  · rename_i i hp
    split
    · have hnote := hdrop (b.note (.contradiction node.name)) rfl
      exact ⟨0, rfl, by simpa [namesAfter] using hnote⟩
    · refine ⟨0, rfl, List.Perm.subperm ?_⟩
      simp [namesAfter, WorkState.names, Node.meet]
    · refine ⟨2, rfl, List.Subperm.trans ?_ ((hdrop b rfl).append (List.Subperm.refl _))⟩
      rw [WorkState.names, WorkState.names, List.append_assoc, List.map_append]
      exact (List.perm_append_comm.append_left _).subperm

/-- Nothing is pending at a stored node, and the names in use are distinct and were given before. -/
structure WorkState.Tidy {n : Nat} (c : WorkState n) : Prop where
  settled : ∀ m ∈ c.1.elementary, ∀ i, ¬ i ∈ m.pending
  names_nodup : c.names.Nodup
  numbered : ∀ name ∈ c.names, ∃ k, k ≤ c.1.named ∧ name = .numbered k

theorem nodup_namesAfter (n k : Nat) : (namesAfter n k).Nodup :=
  List.Nodup.map (fun _ _ h => NodeName.numbered.inj h) List.nodup_range'

theorem mem_namesAfter {n k : Nat} {name : NodeName} (h : name ∈ namesAfter n k) :
    ∃ j, n < j ∧ j ≤ n + k ∧ name = .numbered j := by
  obtain ⟨j, hj, rfl⟩ := List.mem_map.1 h
  have hrange := List.mem_range'_1.1 hj
  exact ⟨j, by omega, by omega, rfl⟩

section

variable {A : Arena} {root : Fin A.size} {c d : WorkState A.size} {b : Builder A.size}

theorem Builder.opening_tidy (root : Fin A.size) : WorkState.Tidy (opening root) := by
  have hnames : WorkState.names (opening root) = [.numbered 1] := rfl
  refine ⟨?_, ?_, ?_⟩
  · simp [opening, start]
  · rw [hnames]
    exact List.nodup_singleton _
  · intro name hn
    rw [hnames, List.mem_singleton] at hn
    exact ⟨1, Nat.le_refl 1, hn⟩

theorem WorkState.Tidy.settled_step {S : Strategy A.size} {node : Node A.size}
    {stack : List (Node A.size)} (h : WorkState.Tidy (b, node :: stack)) :
    ∀ m ∈ (b.step A S node).1.elementary, ∀ i, ¬ i ∈ m.pending := by
  rcases b.step_cases A S node with ⟨_, target, _, hs⟩ | ⟨he, ht, hs⟩ | ⟨_, _, hb, _⟩
  · rw [hs]
    intro m hm
    obtain ⟨m', hm', rfl⟩ := Array.mem_map.1 hm
    have hpending : (m'.absorb node).pending = m'.pending := by
      unfold Node.absorb
      split <;> rfl
    rw [hpending]
    exact h.settled m' hm'
  · rw [hs]
    intro m hm
    rcases Array.mem_push.1 hm with hm | rfl
    · exact h.settled m hm
    · exact he
  · rw [hb]
    exact h.settled

theorem WorkState.Tidy.step (h : c.Tidy) (hs : WorkState.Step A c d) : d.Tidy := by
  obtain ⟨S, node, stack, hc, rfl⟩ := hs
  obtain ⟨b, cstack⟩ := c
  obtain rfl : cstack = node :: stack := hc
  obtain ⟨k, hnamed, hsub⟩ := b.names_step A S node stack
  have hdisjoint : List.Disjoint (WorkState.names (b, node :: stack)) (namesAfter b.named k) := by
    intro name hn hnew
    obtain ⟨i, hi, rfl⟩ := h.numbered name hn
    obtain ⟨j, hj, _, he⟩ := mem_namesAfter hnew
    obtain rfl := NodeName.numbered.inj he
    exact absurd hi (Nat.not_le.2 hj)
  have hnodup := h.names_nodup.append (nodup_namesAfter b.named k) hdisjoint
  refine ⟨h.settled_step, ?_, ?_⟩
  · obtain ⟨l, hperm, hl⟩ := hsub
    exact hperm.nodup_iff.1 (hnodup.sublist hl)
  · intro name hn
    rcases List.mem_append.1 (hsub.subset hn) with hn | hn
    · obtain ⟨i, hi, rfl⟩ := h.numbered name hn
      exact ⟨i, hnamed ▸ Nat.le_add_right_of_le hi, rfl⟩
    · obtain ⟨j, _, hj, rfl⟩ := mem_namesAfter hn
      exact ⟨j, hnamed ▸ hj, rfl⟩

theorem Arena.MayLeave.tidy (h : A.MayLeave root b) : WorkState.Tidy (b, []) :=
  h.of_step (Builder.opening_tidy root) fun _ _ hc => hc.step

theorem Arena.Expands.isFalse_eq_false {due : IndexSet A.size} {key : Key A.size}
    (h : A.Expands due key) {u : Fin A.size} (hu : u ∈ key.1) : A.isFalse u = false := by
  obtain ⟨choice, hc, hs, _⟩ := Arena.expands_iff.1 h
  have hbranch := hc u ((hs u).1 hu)
  apply Bool.eq_false_iff.2
  intro hf
  obtain ⟨p, hp, hpf⟩ := (Option.any_eq_true _ _).1 hf
  rw [branches_eq (proposition?_eq_some_iff.1 hp), Expr.rule, if_pos hpf] at hbranch
  exact List.not_mem_nil hbranch

end

/-- An edge, as the predecessors of its end record it. -/
def Tableau.Edge (t : Tableau) (i j : Fin t.size) : Prop :=
  i.val ∈ (t.node j).incoming

section

variable {f : Formula} {t : Tableau}

theorem Tableau.Unfolds.exists_reachable (ht : t.Unfolds f) {l : Option (Key t.arena.size)}
    (h : Relation.ReflTransGen (t.arena.Leads t.root) none l) :
    ∃ i, t.label i = l ∧ Relation.ReflTransGen t.Edge t.init i := by
  induction h with
  | refl => exact ⟨t.init, rfl, .refl⟩
  | tail _ hl ih =>
    obtain ⟨i, rfl, hi⟩ := ih
    obtain ⟨j, hj, hlabel⟩ := ht.exists_label hl
    exact ⟨j, hlabel, hi.tail (mem_out.1 hj)⟩

theorem Tableau.reachable_build (f : Formula) (j : Fin (Tableau.build f).size) :
    Relation.ReflTransGen (Tableau.build f).Edge (Tableau.build f).init j := by
  have hl := (exists_label_build_iff f ((Tableau.build f).label j)).1 ⟨j, rfl⟩
  obtain ⟨i, hi, hreach⟩ := (buildWith_unfolds _ f).exists_reachable hl
  exact label_build_injective f hi ▸ hreach

theorem Tableau.isFalse_eq_false_build {j : Fin (Tableau.build f).size}
    {u : Fin (Tableau.build f).arena.size} (hu : u ∈ ((Tableau.build f).node j).satisfied) :
    (Tableau.build f).arena.isFalse u = false := by
  rcases Relation.ReflTransGen.cases_tail (reachable_build f j) with rfl | ⟨i, _, hedge⟩
  · exact absurd hu (IndexSet.mem_empty u)
  · exact ((buildWith_unfolds _ f).expands (mem_out.2 hedge)).isFalse_eq_false hu

theorem Tableau.label_of_ne_init {i : Fin t.size} (h : i ≠ t.init) :
    t.label i = some (t.node i).key := by
  induction i using Fin.cases with
  | zero => exact absurd rfl h
  | succ k => rfl

theorem Tableau.find?_name (hinj : Function.Injective fun i => (t.node i).name) (i : Fin t.size) :
    t.find? (t.node i).name.text = some i := by
  have hsome : (t.find? (t.node i).name.text).isSome = true := by
    rw [find?, List.find?_isSome]
    exact ⟨i, List.mem_finRange i, decide_eq_true rfl⟩
  obtain ⟨j, hj⟩ := Option.isSome_iff_exists.1 hsome
  have hname : (t.node j).name.text = (t.node i).name.text := by simpa using List.find?_some hj
  rw [hj, hinj (NodeName.text_injective hname)]

variable {b : Builder (Arena.empty.intern f.nnf).arena.size}

theorem Tableau.pending_eq_empty (hb : WorkState.Tidy (b, [])) (i : Fin (Tableau.ofBuilder f b).size) :
    ((Tableau.ofBuilder f b).node i).pending = ∅ := by
  induction i using Fin.cases with
  | zero => rfl
  | succ k =>
    apply IndexSet.ext
    intro u
    have hnone := hb.settled _ (Array.getElem_mem k.isLt) u
    exact ⟨fun hu => absurd hu hnone, fun hu => absurd hu (IndexSet.mem_empty u)⟩

theorem Tableau.name_injective (hb : WorkState.Tidy (b, [])) :
    Function.Injective fun i => ((Tableau.ofBuilder f b).node i).name := by
  have hnames : WorkState.names (b, []) = b.elementary.toList.map Node.name := List.append_nil _
  have hnodup := hb.names_nodup
  have hnumbered := hb.numbered
  rw [hnames] at hnodup hnumbered
  have hinit : ∀ m ∈ b.elementary, m.name ≠ .init := by
    intro m hm he
    obtain ⟨k, _, hk⟩ := hnumbered _ (List.mem_map_of_mem (Array.mem_toList_iff.2 hm))
    cases he.symm.trans hk
  intro i j h
  induction i using Fin.cases with
  | zero =>
    induction j using Fin.cases with
    | zero => rfl
    | succ l => exact absurd (Eq.symm h) (hinit _ (Array.getElem_mem l.isLt))
  | succ k =>
    induction j using Fin.cases with
    | zero => exact absurd h (hinit _ (Array.getElem_mem k.isLt))
    | succ l => exact congrArg Fin.succ (b.eq_of_nodup_map hnodup h)

end

/-- Later stages index blindly into a tableau and look nodes up by name; this is what they rely on. -/
theorem tableau_representation (f : Formula) :
    let t := Tableau.build f
    (∀ i, (t.node i).pending = ∅) ∧
    (∀ i, ∀ u ∈ (t.node i).satisfied, t.arena.isFalse u = false) ∧
    (∀ i j, i ≠ t.init → j ≠ t.init → (t.node i).satisfied = (t.node j).satisfied →
      (t.node i).deferred = (t.node j).deferred → i = j) ∧
    (∀ i j, (t.node i).name.text = (t.node j).name.text → i = j) ∧
    (∀ i, t.find? (t.node i).name.text = some i) ∧
    (∀ j, ∀ p ∈ (t.node j).incoming, p < t.size) ∧
    (∀ i u, u ∈ (t.node i).satisfied ∨ u ∈ (t.node i).deferred →
      u.val < t.arena.size ∧ t.arena.formula u ∈ f.nnf.subformulas) ∧
    (t.init.val = 0 ∧ (t.node t.init).incoming = []) ∧
    ∀ j, Relation.ReflTransGen t.Edge t.init j := by
  intro t
  have hb : WorkState.Tidy (_, []) := (Arena.mayLeave_unfold _ (Arena.empty.intern f.nnf).index
    (.least _)).tidy
  have hname : Function.Injective fun i => (t.node i).name := Tableau.name_injective hb
  refine ⟨Tableau.pending_eq_empty hb, fun _ _ => Tableau.isFalse_eq_false_build, ?_,
    fun _ _ h => hname (NodeName.text_injective h), Tableau.find?_name hname,
    fun _ _ => Tableau.lt_size_of_mem_incoming (Arena.unfold_exact _ _ _),
    fun _ u _ => ⟨u.isLt, Arena.formula_mem_subformulas f.nnf u⟩, ⟨rfl, rfl⟩,
    Tableau.reachable_build f⟩
  intro i j hi hj hs hd
  apply Tableau.label_build_injective f
  rw [Tableau.label_of_ne_init hi, Tableau.label_of_ne_init hj, Node.key, Node.key, hs, hd]

end TemporalMonitor
