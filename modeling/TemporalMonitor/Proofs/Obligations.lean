import TemporalMonitor.Proofs.Expansion
import TemporalMonitor.Proofs.Interning
import TemporalMonitor.Proofs.Semantics

/-! Obligations met along a word and their truth. A sequence of obligation sets in which every
obligation is met by a branch, every literal is true, and no until waits for ever holds true formulas
only. Conversely true obligations have a complete expansion into true ones, in which an until is
fulfilled at the first event that allows it. -/

namespace TemporalMonitor

/-- The sets `met i` of obligations met on the events of `w`: what a branch asks now is met with it,
what it asks later is met on the next event, and literals are true. -/
structure Arena.Consistent (A : Arena) (G : Guards) (w : Word) (met : Nat → IndexSet A.size) :
    Prop where
  meets : ∀ {i u}, u ∈ met i → A.Meets (met i) (met (i + 1)) u
  prop : ∀ {i u p}, u ∈ met i → A.expr u = .prop p → p.holds G (w i) = true
  not : ∀ {i u a p}, u ∈ met i → A.expr u = .not a → A.expr a = .prop p → ¬ p.holds G (w i) = true

/-- Every until met at some point has its right side met then or later. -/
def Arena.Fulfilled (A : Arena) (met : Nat → IndexSet A.size) : Prop :=
  ∀ i u a b, A.expr u = .until a b → u ∈ met i → ∃ j, i ≤ j ∧ b ∈ met j

section

variable {A : Arena} {G : Guards} {w : Word} {met : Nat → IndexSet A.size} {u a b : Fin A.size}
  {i : Nat}

theorem Arena.Consistent.fulfilled_or_persists (h : A.Consistent G w met)
    (he : A.expr u = .until a b) (hu : u ∈ met i) (d : Nat) :
    (∃ j, i ≤ j ∧ b ∈ met j) ∨ u ∈ met (i + d) := by
  induction d with
  | zero => exact .inr hu
  | succ d ih =>
    rcases ih with hj | hm
    · exact .inl hj
    · rcases (h.meets hm).until he with hb | ⟨_, hn⟩
      · exact .inl ⟨i + d, Nat.le_add_right i d, hb⟩
      · exact .inr hn

theorem Arena.Consistent.holdsAt_until (h : A.Consistent G w met) (he : A.expr u = .until a b)
    (ha : ∀ i, a ∈ met i → (A.formula a).HoldsAt G w i)
    (hb : ∀ i, b ∈ met i → (A.formula b).HoldsAt G w i) (d : Nat) (hu : u ∈ met i)
    (hd : b ∈ met (i + d)) : (Formula.until (A.formula a) (A.formula b)).HoldsAt G w i := by
  induction d generalizing i with
  | zero => exact Formula.holdsAt_until_iff.2 (.inl (hb i hd))
  | succ d ih =>
    apply Formula.holdsAt_until_iff.2
    rcases (h.meets hu).until he with hm | ⟨hm, hn⟩
    · exact .inl (hb i hm)
    · have hd' : b ∈ met (i + 1 + d) := by
        have : i + (d + 1) = i + 1 + d := by omega
        rwa [this] at hd
      exact .inr ⟨ha i hm, ih hn hd'⟩

theorem Arena.Consistent.holdsAt_release (h : A.Consistent G w met) (he : A.expr u = .release a b)
    (ha : ∀ i, a ∈ met i → (A.formula a).HoldsAt G w i)
    (hb : ∀ i, b ∈ met i → (A.formula b).HoldsAt G w i) (hu : u ∈ met i) :
    (Formula.release (A.formula a) (A.formula b)).HoldsAt G w i := by
  -- Up to each distance `d` the release is either discharged by `a` or still met.
  have hup : ∀ d, (∃ k, i ≤ k ∧ k < i + d ∧ (A.formula a).HoldsAt G w k) ∨ u ∈ met (i + d) := by
    intro d
    induction d with
    | zero => exact .inr hu
    | succ d ih =>
      rcases ih with ⟨k, h1, h2, hk⟩ | hm
      · exact .inl ⟨k, h1, by omega, hk⟩
      · rcases ((h.meets hm).release he).2 with hm | hm
        · exact .inl ⟨i + d, by omega, by omega, ha _ hm⟩
        · exact .inr hm
  intro j hj
  obtain ⟨d, rfl⟩ := Nat.exists_eq_add_of_le hj
  rcases hup d with hk | hm
  · exact .inr hk
  · exact .inl (hb _ ((h.meets hm).release he).1)

theorem Arena.Consistent.holdsAt (h : A.Consistent G w met) (hf : A.Fulfilled met)
    (hn : ∀ i, (A.formula i).isNnf = true) (hu : u ∈ met i) : (A.formula u).HoldsAt G w i := by
  have hall : ∀ (n : Nat) (u : Fin A.size), u.val = n →
      ∀ i, u ∈ met i → (A.formula u).HoldsAt G w i := by
    intro n
    induction n using Nat.strongRecOn with
    | ind n ih =>
      intro u hun i hu
      have hc : ∀ c ∈ (A.expr u).children, ∀ i, c ∈ met i → (A.formula c).HoldsAt G w i :=
        fun c hc => ih c.val (hun ▸ A.child_lt hc) c rfl
      rw [formula_eq]
      cases he : A.expr u with
      | prop p => exact h.prop hu he
      | not a =>
        obtain ⟨p, hp⟩ := A.expr_prop_of_not (hn u) he
        have hnp := h.not hu he hp
        simpa only [Expr.toFormula, formula_eq, hp, Formula.HoldsAt] using hnp
      | next a => exact hc a (by simp [he, Expr.children]) (i + 1) ((h.meets hu).next he)
      | and a b =>
        have hm := (h.meets hu).and he
        exact ⟨hc a (by simp [he, Expr.children]) i hm.1, hc b (by simp [he, Expr.children]) i hm.2⟩
      | or a b =>
        rcases (h.meets hu).or he with hm | hm
        · exact .inl (hc a (by simp [he, Expr.children]) i hm)
        · exact .inr (hc b (by simp [he, Expr.children]) i hm)
      | «until» a b =>
        obtain ⟨j, hj, hb⟩ := hf i u a b he hu
        obtain ⟨d, rfl⟩ := Nat.exists_eq_add_of_le hj
        exact h.holdsAt_until he (hc a (by simp [he, Expr.children]))
          (hc b (by simp [he, Expr.children])) d hu hb
      | release a b =>
        exact h.holdsAt_release he (hc a (by simp [he, Expr.children]))
          (hc b (by simp [he, Expr.children])) hu
  exact hall u.val u rfl i hu

theorem Proposition.isFalse_of_holds {p : Proposition} {e : Event} (h : p.holds G e = true) :
    p.isFalse = false := by
  cases hs : p.subject <;> simp_all [holds, isFalse]

/-- A kind of truth along a word, by which a true formula asks for true formulas only, on this event
and the next. -/
structure Unwinds (G : Guards) (w : Word) (T : Formula → Nat → Prop) : Prop where
  prop : ∀ {p i}, T (.prop p) i → p.holds G (w i) = true
  not : ∀ {p i}, T (.not (.prop p)) i → ¬ p.holds G (w i) = true
  next : ∀ {a i}, T (.next a) i → T a (i + 1)
  and : ∀ {a b i}, T (.and a b) i → T a i ∧ T b i
  or : ∀ {a b i}, T (.or a b) i → T a i ∨ T b i
  «until» : ∀ {a b i}, T (.until a b) i → T b i ∨ T a i ∧ T (.until a b) (i + 1)
  release : ∀ {a b i}, T (.release a b) i → T b i ∧ (T a i ∨ T (.release a b) (i + 1))

theorem Formula.holdsAt_unwinds (G : Guards) (w : Word) : Unwinds G w (Formula.HoldsAt G w) where
  prop h := h
  not h := h
  next h := h
  and h := h
  or h := h
  «until» := Formula.holdsAt_until_iff.1
  release := Formula.holdsAt_release_iff.1

variable {T : Formula → Nat → Prop}

/-- A branch by which a true obligation is met truly. An until takes the branch that fulfils it
whenever that is true. -/
theorem Arena.exists_branch (hT : Unwinds G w T) (h : T (A.formula u) i) :
    ∃ c ∈ (A.rule u).branches, (∀ x ∈ c.now, T (A.formula x) i) ∧
      (∀ x ∈ c.later, T (A.formula x) (i + 1)) ∧
      ∀ a b, A.expr u = .until a b → T (A.formula b) i → b ∈ c.now := by
  have hu := A.formula_eq u
  rw [hu] at h
  cases he : A.expr u with
  | prop p =>
    rw [he] at h
    have hp := Proposition.isFalse_of_holds (hT.prop h)
    rw [branches_eq he]
    exact ⟨⟨[], []⟩, by simp [Expr.rule, hp, Rule.branches], by simp, by simp, by simp⟩
  | not a =>
    rw [branches_eq he]
    exact ⟨⟨[], []⟩, by simp [Expr.rule, Rule.branches], by simp, by simp, by simp⟩
  | next a =>
    rw [he] at h
    rw [branches_eq he]
    have ha := hT.next h
    exact ⟨⟨[], [a]⟩, by simp [Expr.rule, Rule.branches], by simp, by simpa using ha, by simp⟩
  | and a b =>
    rw [he] at h
    rw [branches_eq he]
    have hab := hT.and h
    exact ⟨⟨[a, b], []⟩, by simp [Expr.rule, Rule.branches], by simpa using hab, by simp, by simp⟩
  | or a b =>
    rw [he] at h
    rw [branches_eq he]
    rcases hT.or h with ha | hb
    · exact ⟨⟨[a], []⟩, by simp [Expr.rule, Rule.branches], by simpa using ha, by simp, by simp⟩
    · exact ⟨⟨[b], []⟩, by simp [Expr.rule, Rule.branches], by simpa using hb, by simp, by simp⟩
  | «until» a b =>
    rw [he] at h hu
    rw [branches_eq he]
    by_cases hb : T (A.formula b) i
    · refine ⟨⟨[b], []⟩, by simp [Expr.rule, Rule.branches], by simpa using hb, by simp, ?_⟩
      intro x y hxy _
      simp_all
    · obtain ⟨ha, hl⟩ := (hT.until h).resolve_left hb
      have hl : T (A.formula u) (i + 1) := hu ▸ hl
      refine ⟨⟨[a], [u]⟩, by simp [Expr.rule, Rule.branches], by simpa using ha,
        by simpa using hl, ?_⟩
      intro x y hxy hy
      simp_all
  | release a b =>
    rw [he] at h hu
    rw [branches_eq he]
    obtain ⟨hb, ha | hl⟩ := hT.release h
    · exact ⟨⟨[a, b], []⟩, by simp [Expr.rule, Rule.branches], by simp [ha, hb], by simp, by simp⟩
    · have hl : T (A.formula u) (i + 1) := hu ▸ hl
      exact ⟨⟨[b], [u]⟩, by simp [Expr.rule, Rule.branches], by simpa using hb, by simpa using hl,
        by simp⟩

theorem Arena.exists_expansion (hT : Unwinds G w T) {due : IndexSet A.size}
    (h : ∀ d ∈ due, T (A.formula d) i) :
    ∃ key, A.Expands due key ∧ (∀ c ∈ key.1, T (A.formula c) i) ∧
      (∀ c ∈ key.2, T (A.formula c) (i + 1)) ∧
      ∀ u a b, A.expr u = .until a b → u ∈ key.1 → T (A.formula b) i → b ∈ key.1 := by
  have hex : ∀ u, ∃ c : Branch (Fin A.size), T (A.formula u) i →
      c ∈ (A.rule u).branches ∧ (∀ x ∈ c.now, T (A.formula x) i) ∧
      (∀ x ∈ c.later, T (A.formula x) (i + 1)) ∧
      ∀ a b, A.expr u = .until a b → T (A.formula b) i → b ∈ c.now := by
    intro u
    by_cases hu : T (A.formula u) i
    · obtain ⟨c, hc⟩ := A.exists_branch hT hu
      exact ⟨c, fun _ => hc⟩
    · exact ⟨⟨[], []⟩, fun hu' => absurd hu' hu⟩
  obtain ⟨choice, hc⟩ := Classical.axiomOfChoice hex
  have htrue : ∀ u, Derives choice due ∅ u → T (A.formula u) i := by
    intro u hu
    induction hu with
    | pending hp => exact h _ hp
    | now _ hn _ ih => exact (hc _ ih).2.1 _ hn
  have hex : ∃ key, A.CompletesBy choice ⟨.init, [], due, ∅, ∅⟩ key :=
    exists_completesBy fun u hu => (hc u (htrue u hu)).1
  obtain ⟨key, hk⟩ := hex
  have hder : ∀ u ∈ key.1, Derives choice due ∅ u :=
    fun u hu => ((hk.satisfied u).1 hu).resolve_left (IndexSet.mem_empty u)
  refine ⟨key, ⟨choice, hk⟩, fun c hm => htrue c (hder c hm), ?_, ?_⟩
  · intro c hm
    obtain ⟨u, hu, hl⟩ := ((hk.deferred c).1 hm).resolve_left (IndexSet.mem_empty c)
    exact (hc u (htrue u hu)).2.2.1 c hl
  · intro u a b he hm hb
    have hn := (hc u (htrue u (hder u hm))).2.2.2 a b he hb
    exact (hk.satisfied b).2 (.inr (.now (hder u hm) hn (IndexSet.mem_empty b)))

end

end TemporalMonitor
