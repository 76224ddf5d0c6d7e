/-! Sets of indices below a bound, one bit for each index. Two sets with the same members are
equal, members are listed in rising order, and the bits read as a number measure the set: taking
out an index and putting in smaller ones makes the number smaller. -/

namespace TemporalMonitor

structure IndexSet (n : Nat) where
  bits : BitVec n
deriving DecidableEq

def IndexSet.contains {n : Nat} (s : IndexSet n) (i : Fin n) : Bool :=
  s.bits[i.val]

instance {n : Nat} : Membership (Fin n) (IndexSet n) :=
  ⟨fun s i => s.contains i = true⟩

instance {n : Nat} (i : Fin n) (s : IndexSet n) : Decidable (i ∈ s) :=
  inferInstanceAs (Decidable (s.contains i = true))

theorem IndexSet.mem_def {n : Nat} {s : IndexSet n} {i : Fin n} :
    i ∈ s ↔ s.bits[i.val] = true :=
  Iff.rfl

theorem IndexSet.contains_iff {n : Nat} {s : IndexSet n} {i : Fin n} :
    s.contains i = true ↔ i ∈ s :=
  Iff.rfl

theorem IndexSet.ext {n : Nat} {s t : IndexSet n} (h : ∀ i, i ∈ s ↔ i ∈ t) : s = t := by
  obtain ⟨a⟩ := s
  obtain ⟨b⟩ := t
  congr 1
  apply BitVec.eq_of_getElem_eq
  intro i hi
  exact Bool.eq_iff_iff.mpr (h ⟨i, hi⟩)

instance {n : Nat} : EmptyCollection (IndexSet n) :=
  ⟨⟨0#n⟩⟩

def IndexSet.insert {n : Nat} (i : Fin n) (s : IndexSet n) : IndexSet n :=
  ⟨s.bits ||| BitVec.twoPow n i.val⟩

instance {n : Nat} : Insert (Fin n) (IndexSet n) :=
  ⟨IndexSet.insert⟩

instance {n : Nat} : Singleton (Fin n) (IndexSet n) :=
  ⟨fun i => IndexSet.insert i ∅⟩

instance {n : Nat} : Union (IndexSet n) :=
  ⟨fun s t => ⟨s.bits ||| t.bits⟩⟩

instance {n : Nat} : SDiff (IndexSet n) :=
  ⟨fun s t => ⟨s.bits &&& ~~~t.bits⟩⟩

@[simp] theorem IndexSet.mem_empty {n : Nat} (i : Fin n) : ¬ i ∈ (∅ : IndexSet n) := by
  simp [mem_def, EmptyCollection.emptyCollection]

@[simp] theorem IndexSet.mem_insert {n : Nat} {i j : Fin n} {s : IndexSet n} :
    j ∈ Insert.insert i s ↔ j = i ∨ j ∈ s := by
  simp [mem_def, Insert.insert, IndexSet.insert, Fin.ext_iff, or_comm]

@[simp] theorem IndexSet.mem_singleton {n : Nat} {i j : Fin n} :
    j ∈ ({i} : IndexSet n) ↔ j = i := by
  show j ∈ Insert.insert i (∅ : IndexSet n) ↔ j = i
  simp

@[simp] theorem IndexSet.mem_union {n : Nat} {i : Fin n} {s t : IndexSet n} :
    i ∈ s ∪ t ↔ i ∈ s ∨ i ∈ t := by
  simp [mem_def, Union.union]

@[simp] theorem IndexSet.mem_sdiff {n : Nat} {i : Fin n} {s t : IndexSet n} :
    i ∈ s \ t ↔ i ∈ s ∧ ¬ i ∈ t := by
  simp [mem_def, SDiff.sdiff]

def IndexSet.ofList {n : Nat} (l : List (Fin n)) : IndexSet n :=
  l.foldr Insert.insert ∅

@[simp] theorem IndexSet.mem_ofList {n : Nat} {i : Fin n} {l : List (Fin n)} :
    i ∈ IndexSet.ofList l ↔ i ∈ l := by
  induction l with
  | nil => simp [ofList]
  | cons j l ih => simp_all [ofList]

def IndexSet.unions {n : Nat} (l : List (IndexSet n)) : IndexSet n :=
  l.foldr (· ∪ ·) ∅

@[simp] theorem IndexSet.mem_unions {n : Nat} {i : Fin n} {l : List (IndexSet n)} :
    i ∈ IndexSet.unions l ↔ ∃ s ∈ l, i ∈ s := by
  induction l with
  | nil => simp [unions]
  | cons s l ih => simp_all [unions]

/-- The indices of which `p` is true. -/
def IndexSet.select {n : Nat} (p : Fin n → Bool) : IndexSet n :=
  .ofList ((List.finRange n).filter p)

@[simp] theorem IndexSet.mem_select {n : Nat} {i : Fin n} {p : Fin n → Bool} :
    i ∈ IndexSet.select p ↔ p i = true := by
  simp [select, List.mem_finRange]

def IndexSet.filter {n : Nat} (p : Fin n → Bool) (s : IndexSet n) : IndexSet n :=
  .select fun i => s.contains i && p i

@[simp] theorem IndexSet.mem_filter {n : Nat} {i : Fin n} {p : Fin n → Bool} {s : IndexSet n} :
    i ∈ s.filter p ↔ i ∈ s ∧ p i = true := by
  simp [filter, contains_iff]

/-- The members in rising order. -/
def IndexSet.toList {n : Nat} (s : IndexSet n) : List (Fin n) :=
  (List.finRange n).filter s.contains

@[simp] theorem IndexSet.mem_toList {n : Nat} {i : Fin n} {s : IndexSet n} :
    i ∈ s.toList ↔ i ∈ s := by
  simp [toList, List.mem_finRange, contains_iff]

def IndexSet.size {n : Nat} (s : IndexSet n) : Nat :=
  s.toList.length

def IndexSet.isEmpty {n : Nat} (s : IndexSet n) : Bool :=
  s = ∅

theorem IndexSet.isEmpty_iff {n : Nat} {s : IndexSet n} :
    s.isEmpty = true ↔ ∀ i, ¬ i ∈ s := by
  simp only [isEmpty, decide_eq_true_eq]
  constructor
  · rintro rfl i
    exact mem_empty i
  · intro h
    exact ext fun i => by simp [h i]

def IndexSet.least? {n : Nat} (s : IndexSet n) : Option (Fin n) :=
  (List.finRange n).find? s.contains

theorem IndexSet.mem_of_least? {n : Nat} {s : IndexSet n} {i : Fin n} (h : s.least? = some i) :
    i ∈ s :=
  contains_iff.1 (List.find?_some h)

theorem IndexSet.least?_eq_some {n : Nat} {s : IndexSet n} {i : Fin n} (hi : i ∈ s)
    (hle : ∀ j ∈ s, i ≤ j) : s.least? = some i := by
  rw [least?, List.find?_eq_some_iff_getElem]
  refine ⟨contains_iff.2 hi, i.val, by simp, by simp, ?_⟩
  intro j hj
  simp only [List.getElem_finRange, Bool.not_eq_true', Bool.eq_false_iff, ne_eq, contains_iff]
  intro hm
  have hij : i.val ≤ j := hle _ hm
  omega

theorem IndexSet.least?_eq_none_iff {n : Nat} {s : IndexSet n} :
    s.least? = none ↔ ∀ i, ¬ i ∈ s := by
  simp [least?, List.mem_finRange, ← contains_iff]

/-- How many sets of indices below `n` there are. -/
def IndexSet.capacity (n : Nat) : Nat :=
  Nat.pow 2 n

/-- The bits as a number, the measure of a set. -/
def IndexSet.value {n : Nat} (s : IndexSet n) : Nat :=
  s.bits.toNat

theorem IndexSet.value_lt {n : Nat} (s : IndexSet n) : s.value < capacity n :=
  s.bits.isLt

theorem IndexSet.value_injective {n : Nat} {s t : IndexSet n} (h : s.value = t.value) : s = t := by
  obtain ⟨a⟩ := s
  obtain ⟨b⟩ := t
  congr 1
  exact BitVec.eq_of_toNat_eq h

theorem lt_of_top_bit {a b i : Nat} (ha : a.testBit i = false) (hb : b.testBit i = true)
    (h : ∀ j, i < j → a.testBit j = b.testBit j) : a < b := by
  have hd : a / 2 ^ (i + 1) = b / 2 ^ (i + 1) := by
    apply Nat.eq_of_testBit_eq
    intro j
    rw [Nat.testBit_div_two_pow, Nat.testBit_div_two_pow]
    exact h _ (by omega)
  have hq : a / 2 ^ i < b / 2 ^ i := by
    have h1 : a / 2 ^ i / 2 = b / 2 ^ i / 2 := by
      rw [Nat.div_div_eq_div_mul, Nat.div_div_eq_div_mul, ← Nat.pow_succ]
      exact hd
    have h2 : a / 2 ^ i % 2 = 0 := by
      have := Nat.testBit_div_two_pow (n := i) a 0
      rw [Nat.zero_add, ha, Nat.testBit_zero] at this
      simpa using this
    have h3 : b / 2 ^ i % 2 = 1 := by
      have := Nat.testBit_div_two_pow (n := i) b 0
      rw [Nat.zero_add, hb, Nat.testBit_zero] at this
      simpa using this
    omega
  exact Nat.lt_of_div_lt_div hq

/-- A member traded for smaller indices: the measure falls. -/
theorem IndexSet.value_lt_of_trade {n : Nat} {s t : IndexSet n} {i : Fin n} (hs : i ∈ s)
    (ht : ¬ i ∈ t) (h : ∀ j, i < j → (j ∈ t ↔ j ∈ s)) : t.value < s.value := by
  have bit : ∀ (u : IndexSet n) (j : Nat) (hj : j < n),
      u.value.testBit j = u.contains ⟨j, hj⟩ := fun u j hj => by
    simp [value, contains, BitVec.getElem_eq_testBit_toNat]
  apply lt_of_top_bit (i := i.val)
  · rw [bit t i.val i.isLt]
    exact Bool.eq_false_iff.2 ht
  · rw [bit s i.val i.isLt]
    exact hs
  · intro j hj
    by_cases hn : j < n
    · rw [bit t j hn, bit s j hn]
      exact Bool.eq_iff_iff.2 (h ⟨j, hn⟩ hj)
    · have hp : 2 ^ n ≤ 2 ^ j := Nat.pow_le_pow_right (by decide) (by omega)
      rw [Nat.testBit_lt_two_pow (Nat.lt_of_lt_of_le t.value_lt hp),
        Nat.testBit_lt_two_pow (Nat.lt_of_lt_of_le s.value_lt hp)]

end TemporalMonitor
