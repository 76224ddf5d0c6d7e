import Mathlib.Data.List.Nodup
import TemporalMonitor.Proofs.Termination

/-! The order in which obligations are met does not matter. Whichever are picked, the finished tableau
is the part that can be reached from the initial node in the graph of complete expansions: its nodes
are told apart by their keys, and an edge leads to each complete expansion of what a node asks for. -/

namespace TemporalMonitor

/-- The key of a node; the initial node has none. -/
def Tableau.label (t : Tableau) (i : Fin t.size) : Option (Key t.arena.size) :=
  i.cases none fun k => some (t.node k.succ).key

/-- What is asked after a node: the root after the initial node, and else what the node defers. -/
def asked {n : Nat} (root : Fin n) : Option (Key n) → IndexSet n
  | none => {root}
  | some key => key.2

/-- An edge of the graph of complete expansions. -/
def Arena.Leads (A : Arena) (root : Fin A.size) (l l' : Option (Key A.size)) : Prop :=
  ∃ key, l' = some key ∧ A.Expands (asked root l) key

/-- All that is stored, and all that the stack leads to, can be reached from the initial node. -/
structure WorkState.Sound (A : Arena) (root : Fin A.size) (c : WorkState A.size) : Prop where
  exact : c.1.Exact A root c.2
  stored : ∀ m ∈ c.1.elementary, Relation.ReflTransGen (A.Leads root) none (some m.key)
  leads : ∀ node ∈ c.2, ∀ key, A.Completes node key →
    Relation.ReflTransGen (A.Leads root) none (some key)

section

variable {A : Arena} {root : Fin A.size} {c d : WorkState A.size} {b : Builder A.size}

theorem Builder.opening_sound (A : Arena) (root : Fin A.size) :
    WorkState.Sound A root (opening root) := by
  refine ⟨opening_exact A root, ?_, ?_⟩
  · simp [opening, start]
  · intro node hn key hc
    rw [List.mem_singleton.1 hn] at hc
    exact .single ⟨key, rfl, (A.completes_relabel _ _).1 hc⟩

theorem WorkState.Sound.step (h : c.Sound A root) (hs : WorkState.Step A c d) : d.Sound A root := by
  obtain ⟨S, node, stack, hc, rfl⟩ := hs
  have hex : c.1.Exact A root (node :: stack) := hc ▸ h.exact
  have hnode : ∀ key, A.Completes node key → Relation.ReflTransGen (A.Leads root) none (some key) :=
    h.leads node (by simp [hc])
  have hstack : ∀ m ∈ stack, ∀ key, A.Completes m key →
      Relation.ReflTransGen (A.Leads root) none (some key) :=
    fun m hm => h.leads m (by simp [hc, hm])
  rcases c.1.step_cases A S node with ⟨he, target, ht, hs⟩ | ⟨he, ht, hs⟩ | ⟨i, hi, hb, hnew, hall⟩
  · rw [hs]
    refine ⟨hex.fold he ht, ?_, hstack⟩
    intro m hm
    obtain ⟨m', hm', rfl⟩ := Array.mem_map.1 hm
    rw [m'.key_absorb node]
    exact h.stored m' hm'
  · rw [hs]
    have hkey : Relation.ReflTransGen (A.Leads root) none (some node.key) :=
      hnode _ ((A.completes_iff_of_elementary he).2 rfl)
    refine ⟨hex.store he ht, ?_, ?_⟩
    · intro m hm
      rcases Array.mem_push.1 hm with hm | rfl
      · exact h.stored m hm
      · exact hkey
    · intro m hm key hk
      rcases List.mem_cons.1 hm with rfl | hm
      · have hd : A.Expands node.deferred key := (A.completes_relabel _ _).1 hk
        exact hkey.tail ⟨key, rfl, hd⟩
      · exact hstack m hm key hk
  · have hf : node.Fresh := hex.fresh node (by simp)
    refine ⟨hex.meet hi hb hnew hall, ?_, ?_⟩
    · intro m hm
      rw [hb] at hm
      exact h.stored m hm
    · intro m hm key hk
      rcases List.mem_append.1 hm with hm | hm
      · obtain ⟨branch, hbr, name, rfl⟩ := hnew m hm
        have hk := (A.completes_relabel _ _).1 hk
        exact hnode key ((A.completes_iff_meet hi hf).2 ⟨branch, hbr, hk⟩)
      · exact hstack m hm key hk

theorem Arena.MayLeave.sound (h : A.MayLeave root b) : WorkState.Sound A root (b, []) :=
  h.of_step (Builder.opening_sound A root) fun _ _ hc => hc.step

end

section

variable {t : Tableau}

theorem Tableau.due_eq (i : Fin t.size) : t.due i = asked t.root (t.label i) :=
  i.cases rfl fun _ => rfl

theorem Tableau.label_of_mem_out {i j : Fin t.size} (h : j ∈ t.out i) :
    t.label j = some (t.node j).key := by
  rw [mem_out] at h
  revert h
  exact j.cases (fun h => absurd h List.not_mem_nil) fun _ _ => rfl

theorem Builder.eq_of_nodup_map {n : Nat} {α : Type} (b : Builder n) {g : Node n → α}
    (hn : (b.elementary.toList.map g).Nodup) {k l : Fin b.elementary.size}
    (h : g b.elementary[k] = g b.elementary[l]) : k = l := by
  have hlen : b.elementary.size = (b.elementary.toList.map g).length := by simp
  have hk : k.val < (b.elementary.toList.map g).length := Nat.lt_of_lt_of_eq k.isLt hlen
  have hl : l.val < (b.elementary.toList.map g).length := Nat.lt_of_lt_of_eq l.isLt hlen
  have hget : (b.elementary.toList.map g)[k.val] = (b.elementary.toList.map g)[l.val] := by
    rw [List.getElem_map, List.getElem_map]
    exact h
  exact Fin.ext (hn.getElem_inj_iff.1 hget)

theorem Tableau.label_injective {f : Formula} (b : Builder (Arena.empty.intern f.nnf).arena.size) :
    Function.Injective (Tableau.ofBuilder f b).label := by
  intro i j h
  induction i using Fin.cases with
  | zero =>
    induction j using Fin.cases with
    | zero => rfl
    | succ l => cases h
  | succ k =>
    induction j using Fin.cases with
    | zero => cases h
    | succ l => exact congrArg Fin.succ (b.eq_of_nodup_map b.keys_nodup (Option.some.inj h))

theorem Tableau.label_build_injective (f : Formula) :
    Function.Injective (Tableau.build f).label :=
  label_injective (f := f) _

variable {f : Formula}

theorem Tableau.Unfolds.exists_label (ht : t.Unfolds f) {i : Fin t.size}
    {l : Option (Key t.arena.size)} (h : t.arena.Leads t.root (t.label i) l) :
    ∃ j ∈ t.out i, t.label j = l := by
  obtain ⟨key, rfl, hk⟩ := h
  rw [← due_eq] at hk
  obtain ⟨j, hj, rfl⟩ := ht.exists_out hk
  exact ⟨j, hj, label_of_mem_out hj⟩

theorem Tableau.Unfolds.mem_incoming_iff (ht : t.Unfolds f) (hinj : Function.Injective t.label)
    {i j : Fin t.size} :
    i.val ∈ (t.node j).incoming ↔ t.arena.Leads t.root (t.label i) (t.label j) := by
  rw [← mem_out]
  constructor
  · intro hj
    have hk := ht.expands hj
    rw [due_eq] at hk
    exact ⟨_, label_of_mem_out hj, hk⟩
  · intro h
    obtain ⟨j', hj', he⟩ := ht.exists_label h
    exact hinj he ▸ hj'

theorem Tableau.exists_label_iff {b : Builder (Arena.empty.intern f.nnf).arena.size}
    (hb : (Arena.empty.intern f.nnf).arena.MayLeave (Arena.empty.intern f.nnf).index b)
    (l : Option (Key (Tableau.ofBuilder f b).arena.size)) :
    (∃ i, (Tableau.ofBuilder f b).label i = l) ↔ Relation.ReflTransGen
      ((Tableau.ofBuilder f b).arena.Leads (Tableau.ofBuilder f b).root) none l := by
  have ht : (Tableau.ofBuilder f b).Unfolds f := unfolds_of_exact hb.sound.exact
  constructor
  · intro hh
    obtain ⟨i, rfl⟩ := hh
    induction i using Fin.cases with
    | zero => exact .refl
    | succ k => exact hb.sound.stored _ (Array.getElem_mem k.isLt)
  · intro h
    induction h with
    | refl => exact ⟨(Tableau.ofBuilder f b).init, rfl⟩
    | tail _ hl ih =>
      obtain ⟨i, rfl⟩ := ih
      obtain ⟨j, _, hj⟩ := ht.exists_label hl
      exact ⟨j, hj⟩

theorem Tableau.exists_label_build_iff (f : Formula)
    (l : Option (Key (Tableau.build f).arena.size)) :
    (∃ i, (Tableau.build f).label i = l) ↔ Relation.ReflTransGen
      ((Tableau.build f).arena.Leads (Tableau.build f).root) none l :=
  exists_label_iff (Arena.mayLeave_unfold _ _ (.least _)) l

theorem Tableau.mem_out_build_iff {i j : Fin (Tableau.build f).size} :
    j ∈ (Tableau.build f).out i ↔ (Tableau.build f).arena.Leads (Tableau.build f).root
      ((Tableau.build f).label i) ((Tableau.build f).label j) :=
  mem_out.trans ((buildWith_unfolds _ f).mem_incoming_iff (label_build_injective f))

end

/-- Whatever is picked, the nodes are the reachable keys and the edges are the complete expansions;
so the nodes and edges are those of `Tableau.build`. -/
theorem pick_order_irrelevant (f : Formula) (b : Builder (Arena.empty.intern f.nnf).arena.size)
    (hb : (Arena.empty.intern f.nnf).arena.MayLeave (Arena.empty.intern f.nnf).index b) :
    let t := Tableau.ofBuilder f b
    let u := Tableau.build f
    Function.Injective t.label ∧
    (∀ l, (∃ i, t.label i = l) ↔ Relation.ReflTransGen (t.arena.Leads t.root) none l) ∧
    (∀ i j, i.val ∈ (t.node j).incoming ↔ t.arena.Leads t.root (t.label i) (t.label j)) ∧
    (∀ l, (∃ i, t.label i = l) ↔ ∃ i, u.label i = l) ∧
    ∀ i j i' j', t.label i = u.label i' → t.label j = u.label j' →
      (i.val ∈ (t.node j).incoming ↔ i'.val ∈ (u.node j').incoming) := by
  intro t u
  have hu : (Arena.empty.intern f.nnf).arena.MayLeave (Arena.empty.intern f.nnf).index _ :=
    Arena.mayLeave_unfold _ _ (.least _)
  have hti : Function.Injective t.label := Tableau.label_injective b
  have hui : Function.Injective u.label := Tableau.label_build_injective f
  have ht : t.Unfolds f := Tableau.unfolds_of_exact hb.sound.exact
  have hut : u.Unfolds f := Tableau.unfolds_of_exact hu.sound.exact
  refine ⟨hti, Tableau.exists_label_iff hb, fun i j => ht.mem_incoming_iff hti, ?_, ?_⟩
  · intro l
    exact (Tableau.exists_label_iff hb l).trans (Tableau.exists_label_iff hu l).symm
  · intro i j i' j' hi hj
    rw [ht.mem_incoming_iff hti, hi, hj]
    exact (hut.mem_incoming_iff hui).symm

def Strategy.greatest (n : Nat) : Strategy n where
  pick node := node.pending.toList.getLast?
  mem_of_pick h := IndexSet.mem_toList.1 (List.mem_of_getLast? h)
  empty_of_pick h i hi := by
    have hn := List.getLast?_eq_none_iff.1 h
    exact List.not_mem_nil (hn ▸ IndexSet.mem_toList.2 hi)

theorem pick_order_greatest :
    let p := Formula.prop ⟨.event "p", none, none, none⟩
    let q := Formula.prop ⟨.event "q", none, none, none⟩
    let f := (p.until q).and (q.or p)
    let A := (Arena.empty.intern f.nnf).arena
    let root := (Arena.empty.intern f.nnf).index
    let b := A.unfold root (.greatest A.size)
    b.elementary ≠ (A.unfold root (.least A.size)).elementary ∧ A.MayLeave root b ∧
      ∀ l, (∃ i, (Tableau.ofBuilder f b).label i = l) ↔ ∃ i, (Tableau.build f).label i = l := by
  intro p q f A root b
  have hb : A.MayLeave root b := A.mayLeave_unfold root (.greatest A.size)
  exact ⟨by decide +kernel, hb, (pick_order_irrelevant f b hb).2.2.2.1⟩

end TemporalMonitor
