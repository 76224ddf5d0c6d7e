import TemporalMonitor.Node

/-! Tableaux: the elementary nodes a formula unfolds into, each with its predecessors, behind an
initial node that asks for nothing. Nodes on a stack are worked off one obligation at a time; a node
with nothing pending is stored, or folds into the stored node of the same key. Every step leaves less
work: a key is used up, or a pending obligation is traded for smaller ones. -/

namespace TemporalMonitor

/-- A tableau in the making: the elementary nodes stored so far, the number of names given, and
the notes taken, latest first. -/
structure Builder (n : Nat) where
  elementary : Array (Node n)
  keys_nodup : (elementary.toList.map Node.key).Nodup
  named : Nat
  notes : List Note

def Builder.start (n : Nat) : Builder n :=
  ⟨#[], by simp, 0, []⟩

def Builder.note {n : Nat} (b : Builder n) (note : Note) : Builder n :=
  { b with notes := note :: b.notes }

/-- The name given `k` names from now. -/
def Builder.name {n : Nat} (b : Builder n) (k : Nat) : NodeName :=
  .numbered (b.named + k)

/-- The id of the next elementary node; the initial node has id 0. -/
def Builder.nextId {n : Nat} (b : Builder n) : Nat :=
  b.elementary.size + 1

def Builder.twin? {n : Nat} (b : Builder n) (node : Node n) : Option (Node n) :=
  b.elementary.find? fun m => m.key = node.key

def Node.absorb {n : Nat} (target node : Node n) : Node n :=
  if target.key = node.key then
    { target with incoming := mergeAscending target.incoming node.incoming }
  else target

theorem Node.key_absorb {n : Nat} (target node : Node n) : (target.absorb node).key = target.key := by
  unfold absorb
  split <;> rfl

/-- Hands the predecessors of a node to the stored node of the same key. -/
def Builder.fold {n : Nat} (b : Builder n) (node target : Node n) : Builder n :=
  { b with
    elementary := b.elementary.map (·.absorb node)
    keys_nodup := by
      have := b.keys_nodup
      simpa [Function.comp_def, Node.key_absorb] using this
    notes := .folded node.name target.name :: b.notes }

def Builder.successor {n : Nat} (b : Builder n) (node : Node n) : Node n :=
  ⟨b.name 1, [b.nextId], node.deferred, ∅, ∅⟩

/-- Stores an elementary node with a new key and names its successor. -/
def Builder.store {n : Nat} (b : Builder n) (node : Node n) (h : b.twin? node = none) :
    Builder n where
  elementary := b.elementary.push node
  keys_nodup := by
    have hk := b.keys_nodup
    simp only [twin?, Array.find?_eq_none, decide_eq_true_eq] at h
    simp only [Array.toList_push, List.map_append, List.map_cons, List.map_nil]
    refine List.nodup_append.2 ⟨hk, by simp, ?_⟩
    intro k hk l hl
    obtain ⟨m, hm, rfl⟩ := List.mem_map.1 hk
    rw [List.mem_singleton.1 hl]
    exact h m (Array.mem_toList_iff.1 hm)
  named := b.named + 1
  notes := .elementary node.name node.satisfied.size node.deferred.size (b.name 1) :: b.notes

/-- Names the two branches of a fork. -/
def Builder.fork {n : Nat} (b : Builder n) : Builder n :=
  { b with named := b.named + 2, notes := .forked (b.name 1) (b.name 2) :: b.notes }

def Node.weight {n : Nat} (node : Node n) : Nat :=
  Nat.pow 3 node.pending.value

/-- The weight that no node exceeds. -/
def weightBound (n : Nat) : Nat :=
  Nat.pow 3 (IndexSet.capacity n)

def stackWeight {n : Nat} : List (Node n) → Nat
  | [] => 0
  | node :: stack => node.weight + stackWeight stack

/-- The work left: keys not stored yet first, then what is pending on the stack. -/
def Builder.work {n : Nat} (b : Builder n) (stack : List (Node n)) : Nat :=
  (keyCount n - b.elementary.size) * weightBound n + stackWeight stack

theorem Builder.size_lt_of_new {n : Nat} {b : Builder n} {node : Node n}
    (h : b.twin? node = none) : b.elementary.size < keyCount n := by
  have := length_le_of_nodup_keys (b.store node h).keys_nodup
  simp only [store, List.length_map, Array.length_toList, Array.size_push] at this
  exact this

theorem Node.weight_pos {n : Nat} (node : Node n) : 0 < node.weight :=
  Nat.pow_pos (by decide)

theorem Node.weight_le {n : Nat} (node : Node n) : node.weight ≤ weightBound n :=
  Nat.pow_le_pow_right (by decide) (Nat.le_of_lt node.pending.value_lt)

theorem Node.three_mul_weight_le {n : Nat} {node node' : Node n}
    (h : node'.pending.value < node.pending.value) : 3 * node'.weight ≤ node.weight := by
  rw [Nat.mul_comm]
  exact Nat.pow_le_pow_right (by decide : 0 < 3) h

theorem Builder.work_store {n : Nat} {b : Builder n} {node : Node n} {stack : List (Node n)}
    (h : b.twin? node = none) :
    (b.store node h).work (b.successor node :: stack) < b.work (node :: stack) := by
  have hs := size_lt_of_new h
  have hw := (b.successor node).weight_le
  have hp := node.weight_pos
  obtain ⟨k, hk⟩ : ∃ k, keyCount n - b.elementary.size = k + 1 :=
    ⟨keyCount n - b.elementary.size - 1, by omega⟩
  have hk' : keyCount n - (b.store node h).elementary.size = k := by
    simp only [store, Array.size_push]
    omega
  simp only [work, hk, hk', stackWeight, Nat.add_mul, Nat.one_mul]
  omega

/-- An elementary node is stored and replaced by its successor, or folds into its twin. -/
def Builder.complete {n : Nat} (b : Builder n) (node : Node n) : Builder n × List (Node n) :=
  match h : b.twin? node with
  | some target => (b.fold node target, [])
  | none => (b.store node h, [b.successor node])

/-- Meets one obligation of a node. The nodes that take its place come with the builder. -/
def Builder.step (A : Arena) (S : Strategy A.size) (b : Builder A.size) (node : Node A.size) :
    Builder A.size × List (Node A.size) :=
  match S.pick node with
  | none => b.complete node
  | some i =>
    match A.rule i with
    | .drop => (b.note (.contradiction node.name), [])
    | .extend branch => (b, [node.meet i branch])
    | .fork first second =>
      (b.fork, [{ node.meet i first with name := b.name 1 },
        { node.meet i second with name := b.name 2 }])

theorem Builder.work_complete_lt {n : Nat} (b : Builder n) (node : Node n)
    (stack : List (Node n)) :
    (b.complete node).1.work ((b.complete node).2 ++ stack) < b.work (node :: stack) := by
  unfold complete
  split
  · have := node.weight_pos
    simp only [work, fold, Array.size_map, List.nil_append, stackWeight]
    omega
  · rename_i h
    exact work_store h

theorem Arena.three_mul_weight_meet_le {A : Arena} {S : Strategy A.size} {node : Node A.size}
    {i : Fin A.size} {branch : Branch (Fin A.size)} (hp : S.pick node = some i)
    (hb : branch ∈ (A.rule i).branches) : 3 * (node.meet i branch).weight ≤ node.weight :=
  Node.three_mul_weight_le
    (Node.value_meet_lt (S.mem_of_pick hp) fun _ hc => A.now_lt hb hc)

theorem Builder.work_step_lt (A : Arena) (S : Strategy A.size) (b : Builder A.size)
    (node : Node A.size) (stack : List (Node A.size)) :
    (b.step A S node).1.work ((b.step A S node).2 ++ stack) < b.work (node :: stack) := by
  have hw := node.weight_pos
  unfold step
  split
  · exact work_complete_lt b node stack
  · rename_i i hp
    split
    · simp only [work, note, List.nil_append, stackWeight]
      omega
    · rename_i branch hr
      have h := Arena.three_mul_weight_meet_le hp
        (by simp [hr, Rule.branches] : branch ∈ (A.rule i).branches)
      have := (node.meet i branch).weight_pos
      simp only [work, List.cons_append, List.nil_append, stackWeight]
      omega
    · rename_i first second hr
      have h1 := Arena.three_mul_weight_meet_le hp
        (by simp [hr, Rule.branches] : first ∈ (A.rule i).branches)
      have h2 := Arena.three_mul_weight_meet_le hp
        (by simp [hr, Rule.branches] : second ∈ (A.rule i).branches)
      simp only [work, fork, List.cons_append, List.nil_append, stackWeight,
        Node.weight] at *
      omega

/-- Works off a stack of nodes: what takes a node's place is finished before the rest. -/
def Builder.expand (A : Arena) (S : Strategy A.size) (b : Builder A.size) :
    List (Node A.size) → Builder A.size
  | [] => b
  | node :: stack =>
    let r := b.step A S node
    r.1.expand A S (r.2 ++ stack)
termination_by stack => b.work stack
decreasing_by exact work_step_lt A S b node stack

/-- Unfolds the obligation `root`, which is due on the first event. -/
def Arena.unfold (A : Arena) (root : Fin A.size) (S : Strategy A.size) : Builder A.size :=
  { Builder.start A.size with named := 1 }.expand A S [⟨.numbered 1, [0], {root}, ∅, ∅⟩]

/-- The elementary nodes of a formula in normal form, and the initial node before them. -/
structure Tableau where
  arena : Arena
  root : Fin arena.size
  elementary : Array (Node arena.size)
  notes : List Note

def Tableau.size (t : Tableau) : Nat :=
  t.elementary.size + 1

def Tableau.node (t : Tableau) (i : Fin t.size) : Node t.arena.size :=
  i.cases (.init t.arena.size) fun k => t.elementary[k]

def Tableau.init (t : Tableau) : Fin t.size :=
  ⟨0, Nat.succ_pos _⟩

def Tableau.nodes (t : Tableau) : List (Node t.arena.size) :=
  (List.finRange t.size).map t.node

def Tableau.find? (t : Tableau) (name : String) : Option (Fin t.size) :=
  (List.finRange t.size).find? fun i => (t.node i).name.text = name

def Tableau.buildWith (S : (n : Nat) → Strategy n) (f : Formula) : Tableau :=
  let r := Arena.empty.intern f.nnf
  let b := r.arena.unfold r.index (S r.arena.size)
  { arena := r.arena
    root := r.index
    elementary := b.elementary
    notes := .unfolding f r.arena.size :: b.notes.reverse ++ [.unfolded (b.elementary.size + 1)] }

def Tableau.build (f : Formula) : Tableau :=
  .buildWith Strategy.least f

end TemporalMonitor
