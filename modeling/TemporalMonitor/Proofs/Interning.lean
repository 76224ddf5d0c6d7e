import TemporalMonitor.Arena

/-! What an interned index stands for. Growing an arena changes the meaning of no index it has,
interning a formula gives an index that stands for it, and every entry this adds stands for a
subformula. -/

namespace TemporalMonitor

def Formula.subformulas : Formula → List Formula
  | .prop p => [.prop p]
  | .not a => .not a :: a.subformulas
  | .next a => .next a :: a.subformulas
  | .and a b => .and a b :: (a.subformulas ++ b.subformulas)
  | .or a b => .or a b :: (a.subformulas ++ b.subformulas)
  | .until a b => .until a b :: (a.subformulas ++ b.subformulas)
  | .release a b => .release a b :: (a.subformulas ++ b.subformulas)

theorem Formula.mem_subformulas_self (f : Formula) : f ∈ f.subformulas := by
  cases f <;> simp [subformulas]

theorem Formula.isNnf_of_mem_subformulas {f g : Formula} (hf : f.isNnf = true)
    (hg : g ∈ f.subformulas) : g.isNnf = true := by
  induction f with
  | prop p => simp_all [subformulas]
  | not a ih =>
    rcases List.mem_cons.1 hg with rfl | hg
    · exact hf
    · cases a <;> simp_all [isNnf, isProp, subformulas]
  | next a ih =>
    rcases List.mem_cons.1 hg with rfl | hg
    · exact hf
    · exact ih hf hg
  | and a b iha ihb | or a b iha ihb | «until» a b iha ihb | release a b iha ihb =>
    rcases List.mem_cons.1 hg with rfl | hg
    · exact hf
    · simp only [isNnf, Bool.and_eq_true] at hf
      rcases List.mem_append.1 hg with hg | hg
      · exact iha hf.1 hg
      · exact ihb hf.2 hg

theorem Formula.mem_propositions_of_mem_subformulas {f : Formula} {p : Proposition}
    (h : .prop p ∈ f.subformulas) : p ∈ f.propositions := by
  induction f with
  | prop q => simp_all [subformulas, propositions]
  | not a ih | next a ih => exact ih (by simpa [subformulas] using h)
  | and a b iha ihb | or a b iha ihb | «until» a b iha ihb | release a b iha ihb =>
    simp only [subformulas, List.mem_cons, reduceCtorEq, false_or, List.mem_append] at h
    exact List.mem_append.2 (h.imp iha ihb)

/-- The formula of a layer whose operands stand for formulas. -/
def Expr.toFormula {ι : Type} (g : ι → Formula) : Expr ι → Formula
  | .prop p => .prop p
  | .not a => .not (g a)
  | .next a => .next (g a)
  | .and a b => .and (g a) (g b)
  | .or a b => .or (g a) (g b)
  | .until a b => .until (g a) (g b)
  | .release a b => .release (g a) (g b)

theorem Arena.formula_eq (A : Arena) (i : Fin A.size) :
    A.formula i = (A.expr i).toFormula A.formula := by
  rw [formula]
  split <;> rename_i h <;> rw [h] <;> rfl

/-- An index stands for a formula: its entry is the outermost layer, over indices that stand for
the operands. -/
def Arena.Denotes (A : Arena) : Formula → Nat → Prop
  | .prop p, i => A.entries[i]? = some (.prop p)
  | .not a, i => ∃ j, A.entries[i]? = some (.not j) ∧ A.Denotes a j
  | .next a, i => ∃ j, A.entries[i]? = some (.next j) ∧ A.Denotes a j
  | .and a b, i => ∃ j k, A.entries[i]? = some (.and j k) ∧ A.Denotes a j ∧ A.Denotes b k
  | .or a b, i => ∃ j k, A.entries[i]? = some (.or j k) ∧ A.Denotes a j ∧ A.Denotes b k
  | .until a b, i => ∃ j k, A.entries[i]? = some (.until j k) ∧ A.Denotes a j ∧ A.Denotes b k
  | .release a b, i => ∃ j k, A.entries[i]? = some (.release j k) ∧ A.Denotes a j ∧ A.Denotes b k

/-- Every entry of `A` is in `B`, at the same index. -/
def Arena.Grows (A B : Arena) : Prop :=
  ∀ (i : Nat) (e : Expr Nat), A.entries[i]? = some e → B.entries[i]? = some e

theorem Arena.Grows.refl (A : Arena) : A.Grows A :=
  fun _ _ h => h

theorem Arena.Grows.trans {A B C : Arena} (h : A.Grows B) (hh : B.Grows C) : A.Grows C :=
  fun i e he => hh i e (h i e he)

theorem Arena.Denotes.mono {A B : Arena} {f : Formula} {i : Nat} (h : A.Denotes f i)
    (hg : A.Grows B) : B.Denotes f i := by
  induction f generalizing i with
  | prop p => exact hg i _ h
  | not a ih | next a ih =>
    obtain ⟨j, he, hj⟩ := h
    exact ⟨j, hg i _ he, ih hj⟩
  | and a b iha ihb | or a b iha ihb | «until» a b iha ihb | release a b iha ihb =>
    obtain ⟨j, k, he, hj, hk⟩ := h
    exact ⟨j, k, hg i _ he, iha hj, ihb hk⟩

theorem Arena.insert_grows (A : Arena) (e : Expr Nat) (h : ∀ c ∈ e.children, c < A.size) :
    A.Grows (A.insert e h).arena := by
  unfold insert
  split
  · exact Grows.refl A
  · intro i x hx
    have hi := (Array.getElem?_eq_some_iff.1 hx).1
    simpa [Array.getElem?_push, Nat.ne_of_lt hi] using hx

theorem Arena.insert_entry (A : Arena) (e : Expr Nat) (h : ∀ c ∈ e.children, c < A.size) :
    (A.insert e h).arena.entries[(A.insert e h).index.val]? = some e := by
  unfold insert
  split
  · rename_i i hi
    have he := (Array.finIdxOf?_eq_some_iff.1 hi).1
    simpa using he
  · simp [size]

theorem Arena.insert_new (A : Arena) (e : Expr Nat) (h : ∀ c ∈ e.children, c < A.size) (i : Nat) :
    A.size ≤ i → i < (A.insert e h).arena.size → i = (A.insert e h).index := by
  unfold insert
  split
  · intro h1 h2
    exact absurd h2 (Nat.not_lt.2 h1)
  · intro h1 h2
    have hi : i < A.size + 1 := by simpa [size] using h2
    exact Nat.le_antisymm (Nat.le_of_lt_succ hi) h1

/-- What interning `f` has to give: nothing is lost, the index stands for `f`, and each new entry
for a subformula of it. -/
structure Interned.StandsFor {A : Arena} (r : Interned A) (f : Formula) : Prop where
  grows : A.Grows r.arena
  denotes : r.arena.Denotes f r.index
  new : ∀ i, A.size ≤ i → i < r.arena.size → ∃ g ∈ f.subformulas, r.arena.Denotes g i

theorem Interned.StandsFor.over {A : Arena} {r : Interned A} {f : Formula} (hr : r.StandsFor f)
    {op : Nat → Expr Nat} {h : ∀ a, (op a).children = [a]} {F : Formula → Formula}
    (hF : ∀ (B : Arena) (i j : Nat), B.entries[i]? = some (op j) → B.Denotes f j → B.Denotes (F f) i)
    (hsub : (F f).subformulas = F f :: f.subformulas) : (r.over op h).StandsFor (F f) := by
  have hg := r.arena.insert_grows (op r.index) (by simp [h])
  have hd : (r.over op h).arena.Denotes (F f) (r.over op h).index :=
    hF _ _ _ (r.arena.insert_entry (op r.index) (by simp [h])) (hr.denotes.mono hg)
  refine ⟨hr.grows.trans hg, hd, ?_⟩
  intro i h1 h2
  by_cases hi : i < r.arena.size
  · obtain ⟨g, hm, hdg⟩ := hr.new i h1 hi
    exact ⟨g, by simp [hsub, hm], hdg.mono hg⟩
  · have he := r.arena.insert_new (op r.index) (by simp [h]) i (Nat.le_of_not_lt hi) h2
    exact ⟨F f, by simp [hsub], he ▸ hd⟩

theorem Interned.StandsFor.over₂ {A : Arena} {r : Interned A} {s : Interned r.arena}
    {f g : Formula} (hr : r.StandsFor f) (hs : s.StandsFor g) {op : Nat → Nat → Expr Nat}
    {h : ∀ a b, (op a b).children = [a, b]} {F : Formula → Formula → Formula}
    (hF : ∀ (B : Arena) (i j k : Nat), B.entries[i]? = some (op j k) → B.Denotes f j →
      B.Denotes g k → B.Denotes (F f g) i)
    (hsub : (F f g).subformulas = F f g :: (f.subformulas ++ g.subformulas)) :
    (r.over₂ s op h).StandsFor (F f g) := by
  have hc : ∀ c ∈ (op r.index s.index).children, c < s.arena.size := by
    have := s.size_le
    simp [h]
    omega
  have hg := s.arena.insert_grows (op r.index s.index) hc
  have hd : (r.over₂ s op h).arena.Denotes (F f g) (r.over₂ s op h).index :=
    hF _ _ _ _ (s.arena.insert_entry (op r.index s.index) hc)
      (hr.denotes.mono (hs.grows.trans hg)) (hs.denotes.mono hg)
  refine ⟨hr.grows.trans (hs.grows.trans hg), hd, ?_⟩
  intro i h1 h2
  by_cases hi : i < r.arena.size
  · obtain ⟨x, hm, hx⟩ := hr.new i h1 hi
    exact ⟨x, by simp [hsub, hm], hx.mono (hs.grows.trans hg)⟩
  · by_cases hj : i < s.arena.size
    · obtain ⟨x, hm, hx⟩ := hs.new i (Nat.le_of_not_lt hi) hj
      exact ⟨x, by simp [hsub, hm], hx.mono hg⟩
    · have he := s.arena.insert_new (op r.index s.index) hc i (Nat.le_of_not_lt hj) h2
      exact ⟨F f g, by simp [hsub], he ▸ hd⟩

theorem Arena.intern_standsFor (A : Arena) (f : Formula) : (A.intern f).StandsFor f := by
  induction f generalizing A with
  | prop p =>
    have he := A.insert_entry (.prop p) (by simp [Expr.children])
    refine ⟨A.insert_grows _ _, he, ?_⟩
    intro i h1 h2
    have hi := A.insert_new (.prop p) (by simp [Expr.children]) i h1 h2
    exact ⟨.prop p, Formula.mem_subformulas_self _, hi ▸ he⟩
  | not a ih => exact (ih A).over (fun _ _ j he hj => ⟨j, he, hj⟩) rfl
  | next a ih => exact (ih A).over (fun _ _ j he hj => ⟨j, he, hj⟩) rfl
  | and a b iha ihb | or a b iha ihb | «until» a b iha ihb | release a b iha ihb =>
    exact (iha A).over₂ (ihb _) (h := fun _ _ => rfl) (fun _ _ j k he hj hk => ⟨j, k, he, hj, hk⟩) rfl

def Expr.toNat {n : Nat} : Expr (Fin n) → Expr Nat
  | .prop p => .prop p
  | .not a => .not a
  | .next a => .next a
  | .and a b => .and a b
  | .or a b => .or a b
  | .until a b => .until a b
  | .release a b => .release a b

theorem Arena.entry_eq (A : Arena) (i : Fin A.size) :
    A.entries[i.val]? = some (A.expr i).toNat := by
  have hb : ∀ (n : Nat) (e : Expr Nat) (h : ∀ c ∈ e.children, c < n), (e.below n h).toNat = e := by
    intro n e h
    cases e <;> rfl
  simp [expr, hb]

theorem Arena.formula_of_denotes {A : Arena} {f : Formula} {i : Fin A.size}
    (h : A.Denotes f i) : A.formula i = f := by
  induction f generalizing i with
  | prop p =>
    have hp := (A.entry_eq i).symm.trans h
    cases he : A.expr i <;> simp [he, Expr.toNat] at hp
    rw [formula_eq, he, hp, Expr.toFormula]
  | not a ih | next a ih =>
    obtain ⟨j, hj, hd⟩ := h
    rw [entry_eq] at hj
    cases he : A.expr i <;> simp [he, Expr.toNat] at hj
    subst hj
    rw [formula_eq, he, Expr.toFormula, ih hd]
  | and a b iha ihb | or a b iha ihb | «until» a b iha ihb | release a b iha ihb =>
    obtain ⟨j, k, hj, hd, hd'⟩ := h
    rw [entry_eq] at hj
    cases he : A.expr i <;> simp [he, Expr.toNat] at hj
    obtain ⟨rfl, rfl⟩ := hj
    rw [formula_eq, he, Expr.toFormula, iha hd, ihb hd']

theorem Arena.formula_intern (A : Arena) (f : Formula) :
    (A.intern f).arena.formula (A.intern f).index = f :=
  formula_of_denotes (A.intern_standsFor f).denotes

theorem Arena.formula_mem_subformulas (f : Formula)
    (i : Fin (Arena.empty.intern f).arena.size) :
    (Arena.empty.intern f).arena.formula i ∈ f.subformulas := by
  obtain ⟨g, hg, hd⟩ := (Arena.empty.intern_standsFor f).new i (Nat.zero_le _) i.isLt
  rwa [formula_of_denotes hd]

theorem Arena.isNnf_formula_intern {f : Formula} (hf : f.isNnf = true)
    (i : Fin (Arena.empty.intern f).arena.size) :
    ((Arena.empty.intern f).arena.formula i).isNnf = true :=
  Formula.isNnf_of_mem_subformulas hf (formula_mem_subformulas f i)

theorem Arena.expr_prop_of_not {A : Arena} {i a : Fin A.size} (hn : (A.formula i).isNnf = true)
    (hi : A.expr i = .not a) : ∃ p, A.expr a = .prop p := by
  rw [formula_eq, hi, Expr.toFormula, Formula.isNnf, formula_eq] at hn
  cases ha : A.expr a with
  | prop p => exact ⟨p, rfl⟩
  | _ => simp [ha, Expr.toFormula, Formula.isProp] at hn

theorem Arena.nodup_insert {A : Arena} (hA : A.entries.toList.Nodup) (e : Expr Nat)
    (h : ∀ c ∈ e.children, c < A.size) : (A.insert e h).arena.entries.toList.Nodup := by
  unfold insert
  split
  · exact hA
  · rename_i hi
    have hn : ¬ e ∈ A.entries := Array.finIdxOf?_eq_none_iff.1 hi
    simp only [Array.toList_push]
    refine List.nodup_append.2 ⟨hA, by simp, ?_⟩
    intro x hx y hy
    rw [List.mem_singleton.1 hy]
    exact fun he => hn (he ▸ Array.mem_toList_iff.1 hx)

/-- No layer is interned twice. -/
theorem Arena.nodup_intern {A : Arena} (hA : A.entries.toList.Nodup) (f : Formula) :
    (A.intern f).arena.entries.toList.Nodup := by
  induction f generalizing A with
  | prop p => exact nodup_insert hA _ _
  | not a ih | next a ih => exact nodup_insert (ih hA) _ _
  | and a b iha ihb | or a b iha ihb | «until» a b iha ihb | release a b iha ihb =>
    exact nodup_insert (ihb (iha hA)) _ _

theorem Arena.expr_injective {A : Arena} (hA : A.entries.toList.Nodup) {i j : Fin A.size}
    (h : A.expr i = A.expr j) : i = j := by
  have he : A.entries.toList[i.val]? = A.entries.toList[j.val]? := by
    rw [Array.getElem?_toList, Array.getElem?_toList, A.entry_eq i, A.entry_eq j, h]
  exact Fin.ext ((List.getElem?_inj (by simp) hA).1 he)

theorem Expr.eq_of_toFormula_eq {ι : Type} {g : ι → Formula} {e e' : Expr ι}
    (hg : ∀ c ∈ e.children, ∀ d, g c = g d → c = d) (h : e.toFormula g = e'.toFormula g) :
    e = e' := by
  cases e with
  | prop p => cases e' <;> simp_all [toFormula]
  | not a | next a =>
    cases e' <;> simp [toFormula] at h
    rw [hg a (by simp [children]) _ h]
  | and a b | or a b | «until» a b | release a b =>
    cases e' <;> simp [toFormula] at h
    rw [hg a (by simp [children]) _ h.1, hg b (by simp [children]) _ h.2]

theorem Arena.formula_injective {A : Arena} (hA : A.entries.toList.Nodup) {i j : Fin A.size}
    (h : A.formula i = A.formula j) : i = j := by
  rw [A.formula_eq i, A.formula_eq j] at h
  exact expr_injective hA (Expr.eq_of_toFormula_eq (fun c _ d hd => formula_injective hA hd) h)
termination_by i.val
decreasing_by exact A.child_lt ‹_›

theorem Arena.Denotes.lt_size {A : Arena} {f : Formula} {i : Nat} (h : A.Denotes f i) :
    i < A.size := by
  have hentry : ∃ e, A.entries[i]? = some e := by
    cases f with
    | prop p => exact ⟨_, h⟩
    | not a | next a =>
      obtain ⟨j, he, _⟩ := h
      exact ⟨_, he⟩
    | and a b | or a b | «until» a b | release a b =>
      obtain ⟨j, k, he, _⟩ := h
      exact ⟨_, he⟩
  obtain ⟨e, he⟩ := hentry
  exact (Array.getElem?_eq_some_iff.1 he).1

theorem Arena.Denotes.exists_subformula {A : Arena} {f g : Formula} {i : Nat} (h : A.Denotes f i)
    (hg : g ∈ f.subformulas) : ∃ j, A.Denotes g j := by
  induction f generalizing i with
  | prop p => exact ⟨i, List.mem_singleton.1 hg ▸ h⟩
  | not a ih | next a ih =>
    rcases List.mem_cons.1 hg with rfl | hg
    · exact ⟨i, h⟩
    · obtain ⟨j, _, hj⟩ := h
      exact ih hj hg
  | and a b iha ihb | or a b iha ihb | «until» a b iha ihb | release a b iha ihb =>
    rcases List.mem_cons.1 hg with rfl | hg
    · exact ⟨i, h⟩
    · obtain ⟨j, k, _, hj, hk⟩ := h
      rcases List.mem_append.1 hg with hg | hg
      · exact iha hj hg
      · exact ihb hk hg

/-- The entries interned for a formula are its subformulas. -/
theorem Arena.exists_formula_iff {f g : Formula} :
    (∃ i, (Arena.empty.intern f).arena.formula i = g) ↔ g ∈ f.subformulas := by
  constructor
  · intro hh
    obtain ⟨i, rfl⟩ := hh
    exact formula_mem_subformulas f i
  · intro hg
    obtain ⟨j, hj⟩ := (Arena.empty.intern_standsFor f).denotes.exists_subformula hg
    exact ⟨⟨j, hj.lt_size⟩, formula_of_denotes hj⟩

end TemporalMonitor
