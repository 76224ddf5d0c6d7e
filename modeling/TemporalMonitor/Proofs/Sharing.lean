import Mathlib.Data.Finset.Card
import Mathlib.Data.Fintype.Card
import TemporalMonitor.Proofs.Interning

/-! Formulas interned one after another into one arena. The arena holds each distinct subformula once,
so calls return the same index exactly for equal formulas, an index stands for its formula from the
call on, and the arena is as large as the set of subformulas interned so far. -/

namespace TemporalMonitor

/-- Interns formulas in turn, and lists the index returned for each. -/
def Arena.internAll (A : Arena) : List Formula → Arena × List Nat
  | [] => (A, [])
  | f :: fs =>
    let r := A.intern f
    let rest := r.arena.internAll fs
    (rest.1, r.index.val :: rest.2)

section

variable {A B : Arena}

theorem Arena.denotes_formula (A : Arena) (i : Fin A.size) : A.Denotes (A.formula i) i := by
  have hentry := A.entry_eq i
  rw [formula_eq]
  cases he : A.expr i with
  | prop p => rwa [he] at hentry
  | not a | next a =>
    rw [he] at hentry
    exact ⟨a, hentry, A.denotes_formula a⟩
  | and a b | or a b | «until» a b | release a b =>
    rw [he] at hentry
    exact ⟨a, b, hentry, A.denotes_formula a, A.denotes_formula b⟩
termination_by i.val
decreasing_by all_goals exact A.child_lt (by simp [he, Expr.children])

theorem Arena.Denotes.unique {f g : Formula} {i : Nat} (hf : A.Denotes f i) (hg : A.Denotes g i) :
    f = g := by
  let j : Fin A.size := ⟨i, hf.lt_size⟩
  have hj : A.formula j = f := formula_of_denotes hf
  exact hj.symm.trans (formula_of_denotes hg)

theorem Arena.Denotes.eq_index (hA : A.entries.toList.Nodup) {f : Formula} {i j : Nat}
    (hi : A.Denotes f i) (hj : A.Denotes f j) : i = j := by
  let i' : Fin A.size := ⟨i, hi.lt_size⟩
  let j' : Fin A.size := ⟨j, hj.lt_size⟩
  have hi' : A.formula i' = f := formula_of_denotes hi
  have hj' : A.formula j' = f := formula_of_denotes hj
  exact congrArg Fin.val (formula_injective hA (hi'.trans hj'.symm))

/-- An arena holds what it held before and the subformulas of what is interned. -/
theorem Arena.exists_denotes_intern {f g : Formula} :
    (∃ i, (A.intern f).arena.Denotes g i) ↔ (∃ i, A.Denotes g i) ∨ g ∈ f.subformulas := by
  have hs := A.intern_standsFor f
  constructor
  · intro hh
    obtain ⟨i, hi⟩ := hh
    by_cases hold : i < A.size
    · have hd := A.denotes_formula ⟨i, hold⟩
      left
      exact ⟨i, (hd.mono hs.grows).unique hi ▸ hd⟩
    · obtain ⟨x, hx, hd⟩ := hs.new i (Nat.le_of_not_lt hold) hi.lt_size
      right
      exact hd.unique hi ▸ hx
  · intro hh
    rcases hh with ⟨i, hi⟩ | hg
    · exact ⟨i, hi.mono hs.grows⟩
    · exact hs.denotes.exists_subformula hg

theorem Arena.internAll_append (A : Arena) (fs gs : List Formula) :
    (A.internAll (fs ++ gs)).1 = ((A.internAll fs).1.internAll gs).1 := by
  induction fs generalizing A with
  | nil => rfl
  | cons f fs ih => exact ih _

theorem Arena.take_zip_internAll (A : Arena) (fs : List Formula) (n : Nat) :
    (fs.zip (A.internAll fs).2).take n = (fs.take n).zip (A.internAll (fs.take n)).2 := by
  induction fs generalizing A n with
  | nil => simp
  | cons f fs ih =>
    cases n with
    | zero => simp
    | succ n => simp [internAll, ih]

theorem Arena.length_internAll (A : Arena) (fs : List Formula) :
    (A.internAll fs).2.length = fs.length := by
  induction fs generalizing A with
  | nil => rfl
  | cons f fs ih => simp only [internAll, List.length_cons, ih]

theorem Arena.grows_internAll (A : Arena) (fs : List Formula) : A.Grows (A.internAll fs).1 := by
  induction fs generalizing A with
  | nil => exact Grows.refl A
  | cons f fs ih => exact (A.intern_standsFor f).grows.trans (ih _)

theorem Arena.grows_internAll_take (A : Arena) (fs : List Formula) {m n : Nat} (h : m ≤ n) :
    (A.internAll (fs.take m)).1.Grows (A.internAll (fs.take n)).1 := by
  have hsplit : fs.take n = fs.take m ++ (fs.take n).drop m := by
    have happ := List.take_append_drop m (fs.take n)
    rw [List.take_take, Nat.min_eq_left h] at happ
    exact happ.symm
  rw [hsplit, internAll_append]
  exact grows_internAll _ _

theorem Arena.nodup_internAll (hA : A.entries.toList.Nodup) (fs : List Formula) :
    (A.internAll fs).1.entries.toList.Nodup := by
  induction fs generalizing A with
  | nil => exact hA
  | cons f fs ih => exact ih (nodup_intern hA f)

theorem Arena.exists_denotes_internAll {fs : List Formula} {g : Formula} :
    (∃ i, (A.internAll fs).1.Denotes g i) ↔
      (∃ i, A.Denotes g i) ∨ g ∈ fs.flatMap Formula.subformulas := by
  induction fs generalizing A with
  | nil => simp [internAll]
  | cons f fs ih =>
    rw [internAll, ih, exists_denotes_intern, List.flatMap_cons, List.mem_append, or_assoc]

/-- Each call's index stands for the formula interned, after all the calls. -/
theorem Arena.denotes_internAll {fs : List Formula} :
    ∀ call ∈ fs.zip (A.internAll fs).2, (A.internAll fs).1.Denotes call.1 call.2 := by
  induction fs generalizing A with
  | nil => simp
  | cons f fs ih =>
    intro call hc
    rcases List.mem_cons.1 hc with rfl | hc
    · exact (A.intern_standsFor f).denotes.mono (grows_internAll _ fs)
    · exact ih call hc

theorem Arena.size_eq_card (hA : A.entries.toList.Nodup) {s : Finset Formula}
    (hs : ∀ g, g ∈ s ↔ ∃ i, A.Denotes g i) : A.size = s.card := by
  have himage : s = Finset.univ.image A.formula := by
    ext g
    rw [hs, Finset.mem_image]
    constructor
    · intro hh
      obtain ⟨i, hi⟩ := hh
      exact ⟨⟨i, hi.lt_size⟩, Finset.mem_univ _, formula_of_denotes hi⟩
    · intro hh
      obtain ⟨i, _, rfl⟩ := hh
      exact ⟨i, A.denotes_formula i⟩
  rw [himage, Finset.card_image_of_injective _ fun _ _ h => formula_injective hA h,
    Finset.card_univ, Fintype.card_fin]

end

/-- A constant, or events of a name that a proposition can have. -/
def Subject.Proper : Subject → Prop
  | .truth | .falsity => True
  | .event name => ∃ p, Proposition.named name = .ok p

theorem Subject.Proper.name_ne {name : String} (h : (Subject.event name).Proper) :
    name ≠ Subject.truth.name ∧ name ≠ Subject.falsity.name := by
  obtain ⟨p, hp⟩ := h
  unfold Proposition.named at hp
  split at hp
  · cases hp
  · split at hp
    · cases hp
    · rename_i hn
      exact not_or.1 hn

theorem Subject.Proper.eq_of_name {s t : Subject} (hs : s.Proper) (ht : t.Proper)
    (h : s.name = t.name) : s = t := by
  cases s with
  | truth =>
    cases t with
    | truth => rfl
    | falsity => exact absurd h (by decide)
    | event name => exact absurd h.symm ht.name_ne.1
  | falsity =>
    cases t with
    | truth => exact absurd h (by decide)
    | falsity => rfl
    | event name => exact absurd h.symm ht.name_ne.2
  | event name =>
    cases t with
    | truth => exact absurd h hs.name_ne.1
    | falsity => exact absurd h hs.name_ne.2
    | event name' => exact congrArg Subject.event h

theorem Proposition.eq_iff_of_proper {p q : Proposition} (hp : p.subject.Proper)
    (hq : q.subject.Proper) : p = q ↔ p.name = q.name ∧ p.selector = q.selector ∧
      p.trigger = q.trigger ∧ p.guard = q.guard := by
  constructor
  · rintro rfl
    exact ⟨rfl, rfl, rfl, rfl⟩
  · rintro ⟨hname, hselector, htrigger, hguard⟩
    have hsubject := hp.eq_of_name hq hname
    cases p
    cases q
    simp only [Proposition.mk.injEq]
    exact ⟨hsubject, hselector, htrigger, hguard⟩

/-- `arena n` is the arena after the first `n` calls, and `calls` are the formulas with the indices
returned for them. -/
theorem interning_exact (fs : List Formula) :
    let arena (n : Nat) := (Arena.empty.internAll (fs.take n)).1
    let calls := fs.zip (Arena.empty.internAll fs).2
    (Arena.empty.internAll fs).2.length = fs.length ∧
    (∀ c ∈ calls, ∀ d ∈ calls, c.2 = d.2 ↔ c.1 = d.1) ∧
    (∀ p q : Proposition, p.subject.Proper → q.subject.Proper → (p = q ↔
      p.name = q.name ∧ p.selector = q.selector ∧ p.trigger = q.trigger ∧ p.guard = q.guard)) ∧
    (∀ n, ∀ c ∈ calls.take n, ∃ i : Fin (arena n).size, i.val = c.2 ∧ (arena n).formula i = c.1) ∧
    (∀ n i (h : i < (arena n).size), ∀ c ∈ ((arena n).entries[i]).children, c < i) ∧
    (∀ m n, m ≤ n → (arena m).Grows (arena n)) ∧
    ∀ n, (arena n).size = ((fs.take n).flatMap Formula.subformulas).toFinset.card := by
  intro arena calls
  have hnodup : ∀ gs : List Formula, (Arena.empty.internAll gs).1.entries.toList.Nodup :=
    Arena.nodup_internAll (by simp [Arena.empty])
  refine ⟨Arena.length_internAll _ fs, ?_, fun _ _ => Proposition.eq_iff_of_proper, ?_,
    fun n => (arena n).children_lt, fun m n => Arena.grows_internAll_take _ fs, ?_⟩
  · intro c hc d hd
    have hdc := Arena.denotes_internAll c hc
    have hdd := Arena.denotes_internAll d hd
    constructor
    · intro h
      exact hdc.unique (h ▸ hdd)
    · intro h
      exact hdc.eq_index (hnodup fs) (h ▸ hdd)
  · intro n c hc
    rw [Arena.take_zip_internAll] at hc
    have hd := Arena.denotes_internAll c hc
    exact ⟨⟨c.2, hd.lt_size⟩, rfl, Arena.formula_of_denotes hd⟩
  · intro n
    apply Arena.size_eq_card (hnodup _)
    intro g
    have hempty : ¬ ∃ i, Arena.empty.Denotes g i := by
      rintro ⟨i, hi⟩
      exact absurd hi.lt_size (Nat.not_lt_zero i)
    rw [Arena.exists_denotes_internAll, List.mem_toFinset]
    exact (or_iff_right hempty).symm

end TemporalMonitor
