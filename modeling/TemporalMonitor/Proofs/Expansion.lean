import TemporalMonitor.Node

/-! Complete expansions of obligations. A branch is fixed for each obligation that comes up, the
obligations are closed under what the branches ask now, and what they ask later is deferred. Meeting
one pending obligation of a node sorts its completions by the branch taken, whichever obligation it
is, so the order in which obligations are met does not matter. -/

namespace TemporalMonitor

abbrev Choice (n : Nat) := Fin n → Branch (Fin n)

/-- The obligations that come up when `pending` is worked off along `choice`; those of `satisfied`
are met already. -/
inductive Derives {n : Nat} (choice : Choice n) (pending satisfied : IndexSet n) : Fin n → Prop
  | pending {i : Fin n} (h : i ∈ pending) : Derives choice pending satisfied i
  | now {i c : Fin n} (hi : Derives choice pending satisfied i) (hc : c ∈ (choice i).now)
    (h : ¬ c ∈ satisfied) : Derives choice pending satisfied c

/-- Working off everything pending at a node along `choice` leaves it with the given key. -/
structure Arena.CompletesBy (A : Arena) (choice : Choice A.size) (node : Node A.size)
    (key : Key A.size) : Prop where
  choice_mem : ∀ i, Derives choice node.pending node.satisfied i → choice i ∈ (A.rule i).branches
  satisfied : ∀ i, i ∈ key.1 ↔
    i ∈ node.satisfied ∨ Derives choice node.pending node.satisfied i
  deferred : ∀ j, j ∈ key.2 ↔
    j ∈ node.deferred ∨ ∃ i, Derives choice node.pending node.satisfied i ∧ j ∈ (choice i).later

def Arena.Completes (A : Arena) (node : Node A.size) (key : Key A.size) : Prop :=
  ∃ choice, A.CompletesBy choice node key

/-- The key is a complete expansion of the obligations `due` on an event. -/
def Arena.Expands (A : Arena) (due : IndexSet A.size) (key : Key A.size) : Prop :=
  A.Completes ⟨.init, [], due, ∅, ∅⟩ key

/-- Names and predecessors play no part in how a node is completed. -/
theorem Arena.completes_relabel {A : Arena} {node : Node A.size} {key : Key A.size}
    (name : NodeName) (incoming : List Nat) :
    A.Completes { node with name := name, incoming := incoming } key ↔ A.Completes node key := by
  constructor
  · intro hh
    obtain ⟨choice, h⟩ := hh
    exact ⟨choice, h.choice_mem, h.satisfied, h.deferred⟩
  · intro hh
    obtain ⟨choice, h⟩ := hh
    exact ⟨choice, h.choice_mem, h.satisfied, h.deferred⟩

theorem Arena.expands_iff {A : Arena} {due : IndexSet A.size} {key : Key A.size} :
    A.Expands due key ↔ ∃ choice : Choice A.size,
      (∀ i, Derives choice due ∅ i → choice i ∈ (A.rule i).branches) ∧
      (∀ i, i ∈ key.1 ↔ Derives choice due ∅ i) ∧
      ∀ j, j ∈ key.2 ↔ ∃ i, Derives choice due ∅ i ∧ j ∈ (choice i).later := by
  constructor
  · intro hh
    obtain ⟨choice, h⟩ := hh
    exact ⟨choice, h.choice_mem, fun i => by simpa using h.satisfied i,
      fun j => by simpa using h.deferred j⟩
  · intro hh
    obtain ⟨choice, hc, hs, hd⟩ := hh
    exact ⟨choice, hc, fun i => by simpa using hs i, fun j => by simpa using hd j⟩

theorem derives_congr_iff {n : Nat} {choice choice' : Choice n} {pending satisfied : IndexSet n}
    (hc : ∀ i, Derives choice pending satisfied i → choice i = choice' i) {i : Fin n} :
    Derives choice' pending satisfied i ↔ Derives choice pending satisfied i := by
  constructor
  · intro h
    induction h with
    | pending h => exact .pending h
    | now _ hn h ih => exact .now ih (hc _ ih ▸ hn) h
  · intro h
    induction h with
    | pending h => exact .pending h
    | now hi hn h ih => exact .now ih (hc _ hi ▸ hn) h

theorem Derives.not_mem {n : Nat} {choice : Choice n} {pending satisfied : IndexSet n}
    (hd : ∀ i ∈ pending, ¬ i ∈ satisfied) {i : Fin n} (h : Derives choice pending satisfied i) :
    ¬ i ∈ satisfied := by
  cases h with
  | pending h => exact hd i h
  | now _ _ h => exact h

def Node.Fresh {n : Nat} (node : Node n) : Prop :=
  ∀ i ∈ node.pending, ¬ i ∈ node.satisfied

theorem Node.mem_pending_meet {n : Nat} {node : Node n} {i j : Fin n} {b : Branch (Fin n)} :
    j ∈ (node.meet i b).pending ↔
      (j ∈ node.pending ∧ j ≠ i) ∨ (j ∈ b.now ∧ ¬ j ∈ node.satisfied) := by
  simp [meet]

theorem Node.mem_satisfied_meet {n : Nat} {node : Node n} {i j : Fin n} {b : Branch (Fin n)} :
    j ∈ (node.meet i b).satisfied ↔ j = i ∨ j ∈ node.satisfied := by
  simp [meet]

theorem Node.mem_deferred_meet {n : Nat} {node : Node n} {i j : Fin n} {b : Branch (Fin n)} :
    j ∈ (node.meet i b).deferred ↔ j ∈ node.deferred ∨ j ∈ b.later := by
  simp [meet]

theorem Arena.not_mem_now {A : Arena} {i : Fin A.size} {b : Branch (Fin A.size)}
    (hb : b ∈ (A.rule i).branches) : ¬ i ∈ b.now :=
  fun h => Nat.lt_irrefl _ (A.now_lt hb h)

theorem Node.Fresh.meet {A : Arena} {node : Node A.size} (hf : node.Fresh) {i : Fin A.size}
    {b : Branch (Fin A.size)} (hb : b ∈ (A.rule i).branches) : (node.meet i b).Fresh := by
  intro j hj hs
  rw [mem_pending_meet] at hj
  rcases mem_satisfied_meet.1 hs with rfl | hs
  · rcases hj with ⟨_, hn⟩ | ⟨hn, _⟩
    · exact hn rfl
    · exact A.not_mem_now hb hn
  · rcases hj with ⟨hp, _⟩ | ⟨_, hn⟩
    · exact hf j hp hs
    · exact hn hs

/-- Once `i` is met by its branch, what comes up is what came up before, less `i`. -/
theorem derives_meet_iff {n : Nat} {node : Node n} {choice : Choice n} {i : Fin n}
    (hi : i ∈ node.pending) (hf : (node.meet i (choice i)).Fresh) {j : Fin n} :
    Derives choice node.pending node.satisfied j ↔
      j = i ∨ Derives choice (node.meet i (choice i)).pending (node.meet i (choice i)).satisfied j := by
  constructor
  · intro h
    induction h with
    | pending h =>
      rename_i j
      by_cases he : j = i
      · exact .inl he
      · exact .inr (.pending (Node.mem_pending_meet.2 (.inl ⟨h, he⟩)))
    | now _ hc h ih =>
      rename_i j c _
      by_cases he : c = i
      · exact .inl he
      · right
        rcases ih with rfl | hd
        · exact .pending (Node.mem_pending_meet.2 (.inr ⟨hc, h⟩))
        · refine .now hd hc ?_
          rw [Node.mem_satisfied_meet]
          exact fun hs => hs.elim he h
  · intro hh
    rcases hh with rfl | h
    · exact .pending hi
    · induction h with
      | pending h =>
        rcases Node.mem_pending_meet.1 h with ⟨hp, _⟩ | ⟨hn, hs⟩
        · exact .pending hp
        · exact .now (.pending hi) hn hs
      | now _ hc h ih => exact .now ih hc fun hs => h (Node.mem_satisfied_meet.2 (.inr hs))

theorem Arena.CompletesBy.congr {A : Arena} {choice choice' : Choice A.size} {node : Node A.size}
    {key : Key A.size} (h : A.CompletesBy choice node key)
    (hc : ∀ i, Derives choice node.pending node.satisfied i → choice i = choice' i) :
    A.CompletesBy choice' node key := by
  have hD : ∀ i, Derives choice' node.pending node.satisfied i ↔
      Derives choice node.pending node.satisfied i := fun _ => derives_congr_iff hc
  refine ⟨?_, ?_, ?_⟩
  · intro i hi
    rw [← hc i ((hD i).1 hi)]
    exact h.choice_mem i ((hD i).1 hi)
  · intro i
    rw [h.satisfied, hD]
  · intro j
    rw [h.deferred]
    constructor
    · intro hh
      rcases hh with hj | ⟨i, hi, hl⟩
      · exact .inl hj
      · exact .inr ⟨i, (hD i).2 hi, hc i hi ▸ hl⟩
    · intro hh
      rcases hh with hj | ⟨i, hi, hl⟩
      · exact .inl hj
      · have hi := (hD i).1 hi
        exact .inr ⟨i, hi, by rwa [hc i hi]⟩

/-- Meeting `i` by the branch chosen for it changes nothing about where a choice leads. -/
theorem Arena.completesBy_meet_iff {A : Arena} {choice : Choice A.size} {node : Node A.size}
    {key : Key A.size} {i : Fin A.size} (hi : i ∈ node.pending) (hf : node.Fresh)
    (hb : choice i ∈ (A.rule i).branches) :
    A.CompletesBy choice node key ↔ A.CompletesBy choice (node.meet i (choice i)) key := by
  have hN := fun j => derives_meet_iff (j := j) hi (hf.meet hb)
  have hs : ∀ j, (j ∈ node.satisfied ∨ Derives choice node.pending node.satisfied j) ↔
      (j ∈ (node.meet i (choice i)).satisfied ∨
        Derives choice (node.meet i (choice i)).pending (node.meet i (choice i)).satisfied j) := by
    intro j
    rw [hN, Node.mem_satisfied_meet]
    grind
  have hd : ∀ j, (j ∈ node.deferred ∨
        ∃ k, Derives choice node.pending node.satisfied k ∧ j ∈ (choice k).later) ↔
      (j ∈ (node.meet i (choice i)).deferred ∨ ∃ k, Derives choice
        (node.meet i (choice i)).pending (node.meet i (choice i)).satisfied k ∧
          j ∈ (choice k).later) := by
    intro j
    simp only [hN, Node.mem_deferred_meet]
    grind
  constructor
  · intro h
    exact ⟨fun j hj => h.choice_mem j ((hN j).2 (.inr hj)), fun j => (h.satisfied j).trans (hs j),
      fun j => (h.deferred j).trans (hd j)⟩
  · intro h
    refine ⟨fun j hj => ?_, fun j => (h.satisfied j).trans (hs j).symm,
      fun j => (h.deferred j).trans (hd j).symm⟩
    rcases (hN j).1 hj with rfl | hj
    · exact hb
    · exact h.choice_mem j hj

theorem Arena.completes_iff_meet {A : Arena} {node : Node A.size} {i : Fin A.size}
    {key : Key A.size} (hi : i ∈ node.pending) (hf : node.Fresh) :
    A.Completes node key ↔ ∃ b ∈ (A.rule i).branches, A.Completes (node.meet i b) key := by
  constructor
  · intro hh
    obtain ⟨choice, h⟩ := hh
    have hb := h.choice_mem i (.pending hi)
    exact ⟨choice i, hb, choice, (completesBy_meet_iff hi hf hb).1 h⟩
  · intro hh
    obtain ⟨b, hb, choice, h⟩ := hh
    -- The choice for `i` plays no part once `i` is met, so it can be set to `b`.
    let choice' : Choice A.size := fun j => if j = i then b else choice j
    have hbi : choice' i = b := if_pos rfl
    have h' : A.CompletesBy choice' (node.meet i b) key := by
      apply h.congr
      intro j hj
      have hji : j ≠ i := fun he =>
        hj.not_mem (hf.meet hb) (Node.mem_satisfied_meet.2 (.inl he))
      exact (if_neg hji).symm
    refine ⟨choice', (completesBy_meet_iff hi hf (by rwa [hbi])).2 ?_⟩
    rwa [hbi]

theorem Arena.completes_iff_of_elementary {A : Arena} {node : Node A.size} {key : Key A.size}
    (h : ∀ i, ¬ i ∈ node.pending) : A.Completes node key ↔ key = node.key := by
  have hD : ∀ (choice : Choice A.size) (i : Fin A.size),
      ¬ Derives choice node.pending node.satisfied i := by
    intro choice i hd
    induction hd with
    | pending hp => exact h _ hp
    | now _ _ _ ih => exact ih
  constructor
  · intro hh
    obtain ⟨choice, hc⟩ := hh
    refine Prod.ext (IndexSet.ext fun i => ?_) (IndexSet.ext fun j => ?_)
    · simp [hc.satisfied, hD, Node.key]
    · simp [hc.deferred, hD, Node.key]
  · rintro rfl
    refine ⟨fun _ => ⟨[], []⟩, fun i hi => absurd hi (hD _ i), ?_, ?_⟩
    · simp [hD, Node.key]
    · simp [hD, Node.key]

theorem Arena.Expands.mem_of_due {A : Arena} {due : IndexSet A.size} {key : Key A.size}
    (h : A.Expands due key) {i : Fin A.size} (hi : i ∈ due) : i ∈ key.1 := by
  obtain ⟨choice, hc⟩ := h
  exact (hc.satisfied i).2 (.inr (.pending hi))

/-- One branch of the obligation asks only what is in `now`, and puts off only what is in `later`. -/
def Arena.Meets (A : Arena) (now later : IndexSet A.size) (u : Fin A.size) : Prop :=
  ∃ b ∈ (A.rule u).branches, (∀ c ∈ b.now, c ∈ now) ∧ ∀ c ∈ b.later, c ∈ later

theorem Arena.Meets.mono {A : Arena} {now later later' : IndexSet A.size} {u : Fin A.size}
    (h : A.Meets now later u) (hl : ∀ c ∈ later, c ∈ later') : A.Meets now later' u := by
  obtain ⟨b, hb, hn, hd⟩ := h
  exact ⟨b, hb, hn, fun c hc => hl c (hd c hc)⟩

theorem Arena.Expands.meets {A : Arena} {due : IndexSet A.size} {key : Key A.size}
    (h : A.Expands due key) {u : Fin A.size} (hu : u ∈ key.1) : A.Meets key.1 key.2 u := by
  obtain ⟨choice, hc⟩ := h
  have hd : Derives choice due ∅ u := ((hc.satisfied u).1 hu).resolve_left (IndexSet.mem_empty u)
  refine ⟨choice u, hc.choice_mem u hd, ?_, ?_⟩
  · intro c hn
    exact (hc.satisfied c).2 (.inr (.now hd hn (IndexSet.mem_empty c)))
  · intro c hl
    exact (hc.deferred c).2 (.inr ⟨u, hd, hl⟩)

section

variable {A : Arena} {now later : IndexSet A.size} {u a b : Fin A.size}

theorem Arena.branches_eq {e : Expr (Fin A.size)} (he : A.expr u = e) :
    (A.rule u).branches = (e.rule u).branches := by
  rw [rule, he]

theorem Arena.Meets.next (h : A.Meets now later u) (he : A.expr u = .next a) : a ∈ later := by
  obtain ⟨c, hc, _, hl⟩ := h
  rw [branches_eq he, Expr.rule, Rule.branches, List.mem_singleton] at hc
  subst hc
  exact hl a (by simp)

theorem Arena.Meets.and (h : A.Meets now later u) (he : A.expr u = .and a b) :
    a ∈ now ∧ b ∈ now := by
  obtain ⟨c, hc, hn, _⟩ := h
  rw [branches_eq he, Expr.rule, Rule.branches, List.mem_singleton] at hc
  subst hc
  exact ⟨hn a (by simp), hn b (by simp)⟩

theorem Arena.Meets.or (h : A.Meets now later u) (he : A.expr u = .or a b) :
    a ∈ now ∨ b ∈ now := by
  obtain ⟨c, hc, hn, _⟩ := h
  rw [branches_eq he] at hc
  simp only [Expr.rule, Rule.branches, List.mem_cons, List.not_mem_nil, or_false] at hc
  rcases hc with rfl | rfl
  · exact .inl (hn a (by simp))
  · exact .inr (hn b (by simp))

theorem Arena.Meets.until (h : A.Meets now later u) (he : A.expr u = .until a b) :
    b ∈ now ∨ a ∈ now ∧ u ∈ later := by
  obtain ⟨c, hc, hn, hl⟩ := h
  rw [branches_eq he] at hc
  simp only [Expr.rule, Rule.branches, List.mem_cons, List.not_mem_nil, or_false] at hc
  rcases hc with rfl | rfl
  · exact .inr ⟨hn a (by simp), hl u (by simp)⟩
  · exact .inl (hn b (by simp))

theorem Arena.Meets.release (h : A.Meets now later u) (he : A.expr u = .release a b) :
    b ∈ now ∧ (a ∈ now ∨ u ∈ later) := by
  obtain ⟨c, hc, hn, hl⟩ := h
  rw [branches_eq he] at hc
  simp only [Expr.rule, Rule.branches, List.mem_cons, List.not_mem_nil, or_false] at hc
  rcases hc with rfl | rfl
  · exact ⟨hn b (by simp), .inr (hl u (by simp))⟩
  · exact ⟨hn b (by simp), .inl (hn a (by simp))⟩

end

theorem Arena.exists_completesBy {A : Arena} {choice : Choice A.size} {node : Node A.size}
    (h : ∀ i, Derives choice node.pending node.satisfied i → choice i ∈ (A.rule i).branches) :
    ∃ key, A.CompletesBy choice node key := by
  classical
  refine ⟨(.select fun i => decide (i ∈ node.satisfied ∨
      Derives choice node.pending node.satisfied i), .select fun j => decide (j ∈ node.deferred ∨
        ∃ i, Derives choice node.pending node.satisfied i ∧ j ∈ (choice i).later)), h, ?_, ?_⟩
  · simp
  · simp

end TemporalMonitor
