import TemporalMonitor.Arena
import TemporalMonitor.Note

/-! Nodes of a tableau: obligations still pending, those met on the current event, and those deferred
to the next one. A disjunction, an until and a release can be met in two ways, a false proposition in
none. The keys of elementary nodes are numbered, so that a list of distinct keys is no longer than
there are numbers. -/

namespace TemporalMonitor

/-- A way to meet an obligation: what has to hold now, and what is put off to the next event. -/
structure Branch (ι : Type) where
  now : List ι
  later : List ι
deriving DecidableEq

inductive Rule (ι : Type)
  | drop
  | extend (b : Branch ι)
  | fork (first second : Branch ι)
deriving DecidableEq

def Rule.branches {ι : Type} : Rule ι → List (Branch ι)
  | .drop => []
  | .extend b => [b]
  | .fork first second => [first, second]

/-- The rule for an obligation `self` of the given layer. -/
def Expr.rule {ι : Type} (self : ι) : Expr ι → Rule ι
  | .prop p => if p.isFalse then .drop else .extend ⟨[], []⟩
  | .not _ => .extend ⟨[], []⟩
  | .next a => .extend ⟨[], [a]⟩
  | .and a b => .extend ⟨[a, b], []⟩
  | .or a b => .fork ⟨[a], []⟩ ⟨[b], []⟩
  | .until a b => .fork ⟨[a], [self]⟩ ⟨[b], []⟩
  | .release a b => .fork ⟨[b], [self]⟩ ⟨[a, b], []⟩

def Arena.rule (A : Arena) (i : Fin A.size) : Rule (Fin A.size) :=
  (A.expr i).rule i

theorem Expr.mem_children_of_now {ι : Type} {self c : ι} {e : Expr ι} {b : Branch ι}
    (hb : b ∈ (e.rule self).branches) (hc : c ∈ b.now) : c ∈ e.children := by
  cases e with
  | prop p =>
    simp only [rule] at hb
    split at hb <;> simp_all [Rule.branches]
  | _ => simp_all [rule, Rule.branches, children] <;> rcases hb with rfl | rfl <;> simp_all

theorem Arena.now_lt {A : Arena} {i c : Fin A.size} {b : Branch (Fin A.size)}
    (hb : b ∈ (A.rule i).branches) (hc : c ∈ b.now) : c < i :=
  A.child_lt (Expr.mem_children_of_now hb hc)

def insertAscending (i : Nat) : List Nat → List Nat
  | [] => [i]
  | j :: js => if i < j then i :: j :: js else if i = j then j :: js else j :: insertAscending i js

theorem mem_insertAscending {i k : Nat} {l : List Nat} :
    k ∈ insertAscending i l ↔ k = i ∨ k ∈ l := by
  induction l with
  | nil => simp [insertAscending]
  | cons j js ih => grind [insertAscending]

/-- The ids of both lists, ascending if `l` is. -/
def mergeAscending (l m : List Nat) : List Nat :=
  m.foldr insertAscending l

theorem mem_mergeAscending {k : Nat} {l m : List Nat} :
    k ∈ mergeAscending l m ↔ k ∈ l ∨ k ∈ m := by
  induction m with
  | nil => simp [mergeAscending]
  | cons j js ih =>
    simp only [mergeAscending, List.foldr_cons] at ih ⊢
    simp only [mem_insertAscending, ih, List.mem_cons]
    grind

structure Node (n : Nat) where
  name : NodeName
  incoming : List Nat
  pending : IndexSet n
  satisfied : IndexSet n
  deferred : IndexSet n
deriving DecidableEq

def Node.init (n : Nat) : Node n :=
  ⟨.init, [], ∅, ∅, ∅⟩

/-- Meets the pending obligation `i` by one of its branches. -/
def Node.meet {n : Nat} (node : Node n) (i : Fin n) (b : Branch (Fin n)) : Node n :=
  { node with
    pending := (node.pending \ {i}) ∪ (.ofList b.now \ node.satisfied)
    satisfied := insert i node.satisfied
    deferred := node.deferred ∪ .ofList b.later }

theorem Node.value_meet_lt {n : Nat} {node : Node n} {i : Fin n} {b : Branch (Fin n)}
    (hi : i ∈ node.pending) (h : ∀ c ∈ b.now, c < i) :
    (node.meet i b).pending.value < node.pending.value := by
  apply IndexSet.value_lt_of_trade hi
  · simp only [meet, IndexSet.mem_union, IndexSet.mem_sdiff, IndexSet.mem_singleton,
      IndexSet.mem_ofList]
    rintro (⟨_, hn⟩ | ⟨hm, _⟩)
    · exact hn trivial
    · exact Nat.lt_irrefl _ (h i hm)
  · intro j hj
    simp only [meet, IndexSet.mem_union, IndexSet.mem_sdiff, IndexSet.mem_singleton,
      IndexSet.mem_ofList]
    constructor
    · rintro (⟨hm, _⟩ | ⟨hm, _⟩)
      · exact hm
      · exact absurd (h j hm) (Nat.not_lt_of_lt hj)
    · intro hm
      exact .inl ⟨hm, fun he => Nat.lt_irrefl _ (he ▸ hj)⟩

/-- Which pending obligation of a node is met next. -/
structure Strategy (n : Nat) where
  pick : Node n → Option (Fin n)
  mem_of_pick : ∀ {node i}, pick node = some i → i ∈ node.pending
  empty_of_pick : ∀ {node}, pick node = none → ∀ i, ¬ i ∈ node.pending

/-- Always the smallest. -/
def Strategy.least (n : Nat) : Strategy n where
  pick node := node.pending.least?
  mem_of_pick h := IndexSet.mem_of_least? h
  empty_of_pick h := IndexSet.least?_eq_none_iff.1 h

/-- What tells elementary nodes apart: the obligations met and those deferred. -/
abbrev Key (n : Nat) := IndexSet n × IndexSet n

/-- Elementary nodes with the same key are one node. -/
def Node.key {n : Nat} (node : Node n) : Key n :=
  (node.satisfied, node.deferred)

/-- How many pairs of sets there are. -/
def keyCount (n : Nat) : Nat :=
  IndexSet.capacity n * IndexSet.capacity n

/-- A number below `keyCount n` for each pair of sets. -/
def keyCode {n : Nat} (k : Key n) : Nat :=
  k.1.value + IndexSet.capacity n * k.2.value

theorem keyCode_lt {n : Nat} (k : Key n) : keyCode k < keyCount n := by
  have h1 := k.1.value_lt
  have h2 := Nat.mul_le_mul_left (IndexSet.capacity n) k.2.value_lt
  rw [Nat.succ_eq_add_one, Nat.mul_add, Nat.mul_one] at h2
  rw [keyCount, keyCode]
  omega

theorem keyCode_injective {n : Nat} {k l : Key n} (h : keyCode k = keyCode l) :
    k = l := by
  have hk := k.1.value_lt
  have hl := l.1.value_lt
  have hp : 0 < IndexSet.capacity n := Nat.two_pow_pos n
  have h1 : k.1.value = l.1.value := by
    have := congrArg (· % IndexSet.capacity n) h
    simpa [keyCode, Nat.add_mul_mod_self_left, Nat.mod_eq_of_lt hk, Nat.mod_eq_of_lt hl] using this
  have h2 : k.2.value = l.2.value := by
    have := congrArg (· / IndexSet.capacity n) h
    simpa [keyCode, Nat.add_mul_div_left _ _ hp, Nat.div_eq_of_lt hk, Nat.div_eq_of_lt hl]
      using this
  exact Prod.ext (IndexSet.value_injective h1) (IndexSet.value_injective h2)

theorem length_le_of_nodup_keys {n : Nat} {l : List (Key n)} (h : l.Nodup) :
    l.length ≤ keyCount n := by
  have hm : (l.map keyCode).Nodup :=
    List.Pairwise.map _ (fun _ _ hne he => hne (keyCode_injective he)) h
  have hsub : l.map keyCode ⊆ List.range (keyCount n) := by
    intro x hx
    obtain ⟨k, _, rfl⟩ := List.mem_map.1 hx
    exact List.mem_range.2 (keyCode_lt k)
  simpa using hm.length_le_of_subset hsub

end TemporalMonitor
