import TemporalMonitor.Proofs.PickOrder

/-! Expansion as a recursion. A node is expanded together with all that comes of it: at a fork the
first branch is finished, with its successors, before the second is begun, and a stored node is
followed by its successor at once. Node ids, the ids by key and the count of names are threaded
through. The recursion goes by a table with a row for each connective. The stack keeps ids and names
in the same order, so both ways find the same nodes. -/

namespace TemporalMonitor

/-- The nodes found so far, the initial one first, the ids of the others by key, and the number of
names given. -/
structure Draft (n : Nat) where
  nodes : List (Node n)
  seen : List (Key n × Nat)
  seen_nodup : (seen.map Prod.fst).Nodup
  named : Nat

/-- What comes after a draft: no key is forgotten. -/
abbrev Draft.Later {n : Nat} (d : Draft n) :=
  { d' : Draft n // d.seen.length ≤ d'.seen.length }

section

variable {n : Nat}

def Draft.Later.since {d d' : Draft n} (later : d'.Later)
    (h : d.seen.length ≤ d'.seen.length) : d.Later :=
  ⟨later.val, Nat.le_trans h later.property⟩

def Draft.id? (d : Draft n) (key : Key n) : Option Nat :=
  d.seen.lookup key

def Draft.name (d : Draft n) (k : Nat) : NodeName :=
  .numbered (d.named + k)

def Draft.addIncoming (d : Draft n) (id : Nat) (incoming : List Nat) : Draft n :=
  { d with
    nodes := d.nodes.modify id fun target =>
      { target with incoming := mergeAscending target.incoming incoming } }

def Draft.add (d : Draft n) (node : Node n) (h : d.id? node.key = none) : Draft n where
  nodes := d.nodes ++ [node]
  seen := (node.key, d.nodes.length) :: d.seen
  seen_nodup := by
    simp only [List.map_cons, List.nodup_cons]
    refine ⟨?_, d.seen_nodup⟩
    intro hm
    obtain ⟨p, hp, hk⟩ := List.mem_map.1 hm
    have hne := List.lookup_eq_none_iff.1 h p hp
    simp [hk] at hne
  named := d.named + 1

def Draft.successor (d : Draft n) (node : Node n) : Node n :=
  ⟨d.name 1, [d.nodes.length], node.deferred, ∅, ∅⟩

/-- Names two siblings. -/
def Draft.fork (d : Draft n) : Draft n :=
  { d with named := d.named + 2 }

def Draft.sibling (d : Draft n) (k : Nat) (node : Node n) (i : Fin n) (branch : Branch (Fin n)) :
    Node n :=
  { node.meet i branch with name := d.name k }

theorem Draft.length_lt_of_new {d : Draft n} {node : Node n} (h : d.id? node.key = none) :
    d.seen.length < keyCount n := by
  have hlen := length_le_of_nodup_keys (d.add node h).seen_nodup
  rw [List.length_map] at hlen
  exact hlen

end

theorem Arena.value_meet_lt {A : Arena} {node : Node A.size} {i : Fin A.size}
    {branch : Branch (Fin A.size)} (hp : node.pending.least? = some i)
    (hb : branch ∈ (A.rule i).branches) :
    (node.meet i branch).pending.value < node.pending.value :=
  Node.value_meet_lt (IndexSet.mem_of_least? hp) fun _ hc => A.now_lt hb hc

/-- Expands a node and all that comes of it. -/
def Draft.expand (A : Arena) (d : Draft A.size) (node : Node A.size) : d.Later :=
  match _ : node.pending.least? with
  | none =>
    match hs : d.id? node.key with
    | some id => ⟨d.addIncoming id node.incoming, Nat.le_refl _⟩
    | none => ((d.add node hs).expand A (d.successor node)).since (Nat.le_succ _)
  | some i =>
    match _ : A.rule i with
    | .drop => ⟨d, Nat.le_refl _⟩
    | .extend branch => d.expand A (node.meet i branch)
    | .fork first second =>
      let after := d.fork.expand A (d.sibling 1 node i first)
      (after.val.expand A (d.sibling 2 node i second)).since after.property
termination_by (keyCount A.size - d.seen.length, node.pending.value)
decreasing_by
  · have hlt := Draft.length_lt_of_new hs
    have hlen : (d.add node hs).seen.length = d.seen.length + 1 := rfl
    exact Prod.Lex.left _ _ (by omega)
  · exact Prod.Lex.right _ (Arena.value_meet_lt ‹_› (by simp [*, Rule.branches]))
  · exact Prod.Lex.right _ (Arena.value_meet_lt ‹_› (by simp [*, Rule.branches]))
  · exact Prod.Lex.right' _ (Nat.sub_le_sub_left after.property _)
      (Arena.value_meet_lt ‹_› (by simp [*, Rule.branches]))

/-- Meets the obligation `i`; what it asks for now becomes pending unless it is met already. -/
def Node.met {n : Nat} (node : Node n) (i : Fin n) (now later : IndexSet n) : Node n :=
  { node with
    pending := (node.pending \ {i}) ∪ (now \ node.satisfied)
    satisfied := insert i node.satisfied
    deferred := node.deferred ∪ later }

/-- Names two siblings and finishes the first before the second. -/
def Draft.inTurn {n : Nat} (expand : Draft n → Node n → Draft n) (d : Draft n)
    (first second : Node n) : Draft n :=
  expand (expand d.fork { first with name := d.name 1 }) { second with name := d.name 2 }

/-- A recursion that folds or stores a node with nothing pending, and otherwise meets the smallest
obligation by the row of its connective. -/
structure FollowsTable (A : Arena) (expand : Draft A.size → Node A.size → Draft A.size) : Prop where
  fold : ∀ d node id, node.pending = ∅ → d.id? (node.satisfied, node.deferred) = some id →
    expand d node = d.addIncoming id node.incoming
  store : ∀ d node, node.pending = ∅ → ∀ h : d.id? (node.satisfied, node.deferred) = none,
    expand d node = expand (d.add node h) (d.successor node)
  meet : ∀ d node i, i ∈ node.pending → (∀ j ∈ node.pending, i ≤ j) →
    expand d node = match A.expr i with
      | .prop p => if p.isFalse then d else expand d (node.met i ∅ ∅)
      | .not _ => expand d (node.met i ∅ ∅)
      | .next a => expand d (node.met i ∅ {a})
      | .and a b => expand d (node.met i {a, b} ∅)
      | .or a b => d.inTurn expand (node.met i {a} ∅) (node.met i {b} ∅)
      | .until a b => d.inTurn expand (node.met i {a} {i}) (node.met i {b} ∅)
      | .release a b => d.inTurn expand (node.met i {b} {i}) (node.met i {a, b} ∅)

section

variable {A : Arena} {d : Draft A.size} {node : Node A.size} {i : Fin A.size}

theorem Draft.expand_of_known {id : Nat} (hp : node.pending.least? = none)
    (hs : d.id? node.key = some id) : (d.expand A node).val = d.addIncoming id node.incoming := by
  fun_cases Draft.expand A d node with
  | case1 _ id' hs' =>
    obtain rfl : id' = id := Option.some.inj (hs'.symm.trans hs)
    rfl
  | _ => simp_all

theorem Draft.expand_of_new (hp : node.pending.least? = none) (hs : d.id? node.key = none) :
    (d.expand A node).val = ((d.add node hs).expand A (d.successor node)).val := by
  fun_cases Draft.expand A d node with
  | case2 => rfl
  | _ => simp_all

theorem Draft.expand_of_drop (hp : node.pending.least? = some i) (hr : A.rule i = .drop) :
    (d.expand A node).val = d := by
  fun_cases Draft.expand A d node with
  | case3 => rfl
  | _ => simp_all

theorem Draft.expand_of_extend {now later : List (Fin A.size)}
    (hp : node.pending.least? = some i) (hr : A.rule i = .extend ⟨now, later⟩) :
    (d.expand A node).val = (d.expand A (node.met i (.ofList now) (.ofList later))).val := by
  fun_cases Draft.expand A d node with
  | case4 j hj branch hr' =>
    obtain rfl : j = i := Option.some.inj (hj.symm.trans hp)
    obtain rfl := Rule.extend.inj (hr'.symm.trans hr)
    rfl
  | _ => simp_all

theorem Draft.expand_of_fork {now later now' later' : List (Fin A.size)}
    (hp : node.pending.least? = some i) (hr : A.rule i = .fork ⟨now, later⟩ ⟨now', later'⟩) :
    (d.expand A node).val = d.inTurn (fun d node => (d.expand A node).val)
      (node.met i (.ofList now) (.ofList later)) (node.met i (.ofList now') (.ofList later')) := by
  fun_cases Draft.expand A d node with
  | case5 j hj first second hr' =>
    obtain rfl : j = i := Option.some.inj (hj.symm.trans hp)
    obtain ⟨rfl, rfl⟩ := Rule.fork.inj (hr'.symm.trans hr)
    rfl
  | _ => simp_all

theorem Draft.expand_followsTable (A : Arena) :
    FollowsTable A fun d node => (d.expand A node).val where
  fold d node id hp hs := expand_of_known (IndexSet.least?_eq_none_iff.2 (by simp [hp])) hs
  store d node hp hs := expand_of_new (IndexSet.least?_eq_none_iff.2 (by simp [hp])) hs
  meet d node i hi hle := by
    have hp := IndexSet.least?_eq_some hi hle
    have hr : A.rule i = (A.expr i).rule i := rfl
    cases he : A.expr i with
    | prop p =>
      cases hf : p.isFalse with
      | true =>
        simp only [he, Expr.rule, hf, if_true] at hr ⊢
        exact expand_of_drop hp hr
      | false =>
        simp only [he, Expr.rule, hf, Bool.false_eq_true, if_false] at hr ⊢
        exact (expand_of_extend hp hr).trans rfl
    | not a | next a | and a b =>
      rw [he] at hr
      exact (expand_of_extend hp hr).trans rfl
    | or a b | «until» a b | release a b =>
      rw [he] at hr
      exact (expand_of_fork hp hr).trans rfl

end

/-- The initial node alone; one name is given, to the node that asks for the root. -/
def Draft.opening (n : Nat) : Draft n :=
  ⟨[.init n], [], List.nodup_nil, 1⟩

/-- Unfolds the obligation `root` by recursion. -/
def Draft.unfold (A : Arena) (root : Fin A.size) : Draft A.size :=
  ((Draft.opening A.size).expand A ⟨.numbered 1, [0], {root}, ∅, ∅⟩).val

/-- The stored node with the id has the key. -/
def Builder.Holds {n : Nat} (b : Builder n) (id : Nat) (key : Key n) : Prop :=
  ∃ k m, id = k + 1 ∧ b.elementary[k]? = some m ∧ m.key = key

/-- The same nodes under the same ids, and as many names given. -/
structure Draft.Agrees {n : Nat} (d : Draft n) (b : Builder n) : Prop where
  nodes : d.nodes = .init n :: b.elementary.toList
  ids : ∀ key id, d.id? key = some id ↔ b.Holds id key
  named : d.named = b.named

section

variable {n : Nat} {d : Draft n} {b : Builder n} {node target : Node n} {id : Nat} {key : Key n}

theorem Builder.holds_fold : (b.fold node target).Holds id key ↔ b.Holds id key := by
  simp [Holds, fold, Node.key_absorb]

theorem Builder.holds_store (ht : b.twin? node = none) :
    (b.store node ht).Holds id key ↔ b.Holds id key ∨ id = b.nextId ∧ key = node.key := by
  simp only [Holds, store, Array.getElem?_push]
  constructor
  · intro hh
    obtain ⟨k, m, rfl, hm, rfl⟩ := hh
    by_cases hk : k = b.elementary.size
    · rw [if_pos hk] at hm
      obtain rfl := Option.some.inj hm
      exact .inr ⟨congrArg (· + 1) hk, rfl⟩
    · rw [if_neg hk] at hm
      exact .inl ⟨k, m, rfl, hm, rfl⟩
  · intro hh
    rcases hh with ⟨k, m, rfl, hm, rfl⟩ | ⟨rfl, rfl⟩
    · have hk := (Array.getElem?_eq_some_iff.1 hm).1
      exact ⟨k, m, rfl, (if_neg (Nat.ne_of_lt hk)).trans hm, rfl⟩
    · exact ⟨b.elementary.size, node, rfl, if_pos rfl, rfl⟩

/-- Keys are distinct, so only the node stored under the key takes over predecessors. -/
theorem Builder.toList_fold {k : Nat} {m : Node n} (hk : b.elementary[k]? = some m)
    (hm : m.key = node.key) :
    (b.fold node target).elementary.toList = b.elementary.toList.modify k fun target =>
      { target with incoming := mergeAscending target.incoming node.incoming } := by
  apply List.ext_getElem?
  intro j
  simp only [fold, Array.toList_map, List.getElem?_map, List.getElem?_modify, Array.getElem?_toList]
  by_cases hj : k = j
  · subst hj
    simp [hk, Node.absorb, hm]
  · have hsame : ∀ m' ∈ b.elementary[j]?, m'.absorb node = m' := by
      intro m' hm'
      obtain ⟨hlt, rfl⟩ := Array.getElem?_eq_some_iff.1 hm'
      obtain ⟨hkt, rfl⟩ := Array.getElem?_eq_some_iff.1 hk
      apply if_neg
      intro he
      have hkj := b.eq_of_nodup_map b.keys_nodup (k := ⟨k, hkt⟩) (l := ⟨j, hlt⟩) (hm.trans he.symm)
      exact hj (congrArg Fin.val hkj)
    rw [Option.map_congr hsame]
    simp [hj]

theorem Draft.opening_agrees (root : Fin n) :
    (Draft.opening n).Agrees (Builder.opening root).1 := by
  refine ⟨rfl, ?_, rfl⟩
  intro key id
  simp [opening, id?, Builder.Holds, Builder.opening, Builder.start]

theorem Draft.Agrees.nextId (h : d.Agrees b) : d.nodes.length = b.nextId := by
  simp [h.nodes, Builder.nextId]

theorem Draft.Agrees.name (h : d.Agrees b) (k : Nat) : d.name k = b.name k := by
  rw [Draft.name, Builder.name, h.named]

theorem Draft.Agrees.id?_eq_none_iff (h : d.Agrees b) :
    d.id? node.key = none ↔ b.twin? node = none := by
  rw [Builder.twin?, Array.find?_eq_none, Option.eq_none_iff_forall_ne_some]
  constructor
  · intro hs m hm he
    obtain ⟨k, hk⟩ := Array.getElem?_of_mem hm
    exact hs (k + 1) ((h.ids _ _).2 ⟨k, m, rfl, hk, of_decide_eq_true he⟩)
  · intro ht id hs
    obtain ⟨k, m, rfl, hk, he⟩ := (h.ids _ _).1 hs
    exact ht m (Array.mem_of_getElem? hk) (decide_eq_true he)

theorem Draft.Agrees.fold (h : d.Agrees b) (hs : d.id? node.key = some id) :
    (d.addIncoming id node.incoming).Agrees (b.fold node target) := by
  obtain ⟨k, m, rfl, hk, hm⟩ := (h.ids _ _).1 hs
  refine ⟨?_, ?_, h.named⟩
  · rw [Builder.toList_fold hk hm, addIncoming, h.nodes]
    rfl
  · intro key id'
    exact (h.ids key id').trans Builder.holds_fold.symm

theorem Draft.id?_add (hs : d.id? node.key = none) (key : Key n) :
    (d.add node hs).id? key = if key = node.key then some d.nodes.length else d.id? key := by
  simp only [id?, add, List.lookup_cons]
  by_cases hk : key = node.key
  · simp [hk]
  · have hb : (key == node.key) = false := beq_eq_false_iff_ne.2 hk
    simp [hb, hk]

theorem Draft.Agrees.store (h : d.Agrees b) (hs : d.id? node.key = none)
    (ht : b.twin? node = none) : (d.add node hs).Agrees (b.store node ht) := by
  refine ⟨?_, ?_, congrArg (· + 1) h.named⟩
  · simp [add, Builder.store, h.nodes]
  · intro key id
    rw [Builder.holds_store, ← h.ids, Draft.id?_add, h.nextId]
    by_cases hk : key = node.key
    · simp [hk, hs, eq_comm]
    · simp [hk]

theorem Draft.Agrees.note (h : d.Agrees b) (note : Note) : d.Agrees (b.note note) :=
  ⟨h.nodes, h.ids, h.named⟩

theorem Draft.Agrees.fork (h : d.Agrees b) : d.fork.Agrees b.fork :=
  ⟨h.nodes, h.ids, congrArg (· + 2) h.named⟩

theorem Builder.complete_of_twin (ht : b.twin? node = some target) :
    b.complete node = (b.fold node target, []) := by
  unfold complete
  split <;> simp_all

theorem Builder.complete_of_new (ht : b.twin? node = none) :
    b.complete node = (b.store node ht, [b.successor node]) := by
  unfold complete
  split <;> simp_all

end

section

variable {A : Arena} {d : Draft A.size} {b : Builder A.size}

theorem Tableau.nodes_eq (t : Tableau) : t.nodes = .init t.arena.size :: t.elementary.toList := by
  apply List.ext_getElem
  · rw [nodes, List.length_map, List.length_finRange, size, List.length_cons, Array.length_toList]
  · intro k hk hk'
    simp only [nodes, List.getElem_map, List.getElem_finRange]
    cases k with
    | zero => rfl
    | succ k => rfl

theorem Strategy.pick_least (node : Node A.size) :
    (Strategy.least A.size).pick node = node.pending.least? :=
  rfl

theorem Builder.expand_cons (S : Strategy A.size) (b : Builder A.size) (node : Node A.size)
    (stack : List (Node A.size)) : b.expand A S (node :: stack) =
      (b.step A S node).1.expand A S ((b.step A S node).2 ++ stack) := by
  rw [Builder.expand]

/-- Working off a node leaves the builder that agrees with its recursive expansion, whatever is
below it on the stack. -/
theorem Draft.Agrees.expand (h : d.Agrees b) (node : Node A.size) :
    ∃ b', (d.expand A node).val.Agrees b' ∧ ∀ stack,
      b.expand A (.least A.size) (node :: stack) = b'.expand A (.least A.size) stack := by
  fun_induction Draft.expand A d node generalizing b with
  | case1 d node hp id hs =>
    obtain ⟨target, ht⟩ : ∃ target, b.twin? node = some target := by
      apply Option.ne_none_iff_exists'.1
      intro ht
      simp [h.id?_eq_none_iff.2 ht] at hs
    refine ⟨b.fold node target, h.fold hs, fun stack => ?_⟩
    rw [Builder.expand_cons, Builder.step, Strategy.pick_least, hp]
    simp only [Builder.complete_of_twin ht, List.nil_append]
  | case2 d node hp hs ih =>
    have ht := h.id?_eq_none_iff.1 hs
    have hsucc : d.successor node = b.successor node := by
      rw [Draft.successor, Builder.successor, h.name, h.nextId]
    obtain ⟨b', hb, he⟩ := ih (h.store hs ht)
    refine ⟨b', hb, fun stack => ?_⟩
    rw [Builder.expand_cons, Builder.step, Strategy.pick_least, hp]
    simp only [Builder.complete_of_new ht]
    rw [← he, hsucc]
    rfl
  | case3 d node i hp hr =>
    refine ⟨b.note (.contradiction node.name), h.note _, fun stack => ?_⟩
    rw [Builder.expand_cons, Builder.step, Strategy.pick_least, hp]
    simp only [hr, List.nil_append]
  | case4 d node i hp branch hr ih =>
    obtain ⟨b', hb, he⟩ := ih h
    refine ⟨b', hb, fun stack => ?_⟩
    rw [Builder.expand_cons, Builder.step, Strategy.pick_least, hp]
    simp only [hr]
    exact he stack
  | case5 d node i hp first second hr after ih₁ =>
    rename_i ih₂
    -- The second sibling lies below the first on the stack, with the name given at the fork, and is
    -- met by the builder that the first one and all that came of it have left.
    obtain ⟨b₁, hb₁, he₁⟩ := ih₁ h.fork
    obtain ⟨b₂, hb₂, he₂⟩ := ih₂ hb₁
    refine ⟨b₂, hb₂, fun stack => ?_⟩
    rw [Builder.expand_cons, Builder.step, Strategy.pick_least, hp]
    simp only [hr, Draft.sibling, h.name] at he₁ he₂ ⊢
    rw [← he₂, ← he₁]
    rfl

end

/-- The nodes of a tableau, in order and with their names and predecessors, are those of the
recursive expansion, which goes by the table. -/
theorem worklist_computes_recursion (f : Formula) :
    let r := Arena.empty.intern f.nnf
    (Tableau.build f).nodes = (Draft.unfold r.arena r.index).nodes ∧
      FollowsTable r.arena fun d node => (d.expand r.arena node).val := by
  intro r
  refine ⟨?_, Draft.expand_followsTable r.arena⟩
  obtain ⟨b, hb, he⟩ :=
    (Draft.opening_agrees r.index).expand ⟨.numbered 1, [0], {r.index}, ∅, ∅⟩
  have hunfold : r.arena.unfold r.index (.least r.arena.size) = b := by
    refine (he []).trans ?_
    rw [Builder.expand]
  have hbuild : (Tableau.build f).elementary = b.elementary := congrArg Builder.elementary hunfold
  rw [Tableau.nodes_eq, hbuild]
  exact hb.nodes.symm

end TemporalMonitor
