import TemporalMonitor.Formula
import TemporalMonitor.IndexSet

/-! Interned formulas. An arena holds each distinct subformula once, as one layer over the indices
of its operands, and operands always stand before the formulas built from them. -/

namespace TemporalMonitor

/-- One layer of a formula over operands of type `ι`. -/
inductive Expr (ι : Type)
  | prop (p : Proposition)
  | not (a : ι)
  | next (a : ι)
  | and (a b : ι)
  | or (a b : ι)
  | until (a b : ι)
  | release (a b : ι)
deriving DecidableEq

def Expr.children {ι : Type} : Expr ι → List ι
  | .prop _ => []
  | .not a | .next a => [a]
  | .and a b | .or a b | .until a b | .release a b => [a, b]

/-- The layer with its operands known to be below a bound. -/
def Expr.below (n : Nat) : (e : Expr Nat) → (∀ c ∈ e.children, c < n) → Expr (Fin n)
  | .prop p, _ => .prop p
  | .not a, h => .not ⟨a, h a (by simp [children])⟩
  | .next a, h => .next ⟨a, h a (by simp [children])⟩
  | .and a b, h => .and ⟨a, h a (by simp [children])⟩ ⟨b, h b (by simp [children])⟩
  | .or a b, h => .or ⟨a, h a (by simp [children])⟩ ⟨b, h b (by simp [children])⟩
  | .until a b, h => .until ⟨a, h a (by simp [children])⟩ ⟨b, h b (by simp [children])⟩
  | .release a b, h => .release ⟨a, h a (by simp [children])⟩ ⟨b, h b (by simp [children])⟩

theorem Expr.mem_children_below {n : Nat} {e : Expr Nat} {h : ∀ c ∈ e.children, c < n} {i : Fin n} :
    i ∈ (e.below n h).children ↔ i.val ∈ e.children := by
  cases e <;> simp [below, children, Fin.ext_iff]

structure Arena where
  entries : Array (Expr Nat)
  children_lt : ∀ (i : Nat) (h : i < entries.size), ∀ c ∈ entries[i].children, c < i

abbrev Arena.size (A : Arena) : Nat :=
  A.entries.size

def Arena.empty : Arena :=
  ⟨#[], by simp⟩

def Arena.isEmpty (A : Arena) : Bool :=
  A.size = 0

/-- An arena grown from `A`, and an index into it. -/
structure Interned (A : Arena) where
  arena : Arena
  index : Fin arena.size
  size_le : A.size ≤ arena.size

theorem Arena.children_lt_push {A : Arena} {e : Expr Nat} (h : ∀ c ∈ e.children, c < A.size)
    (i : Nat) (hi : i < (A.entries.push e).size) :
    ∀ c ∈ ((A.entries.push e)[i]).children, c < i := by
  intro c hc
  rw [Array.getElem_push] at hc
  split at hc
  · exact A.children_lt i _ c hc
  · have := h c hc
    simp only [size] at this
    simp only [Array.size_push] at hi
    omega

/-- The index of the layer, which is added if it is new. -/
def Arena.insert (A : Arena) (e : Expr Nat) (h : ∀ c ∈ e.children, c < A.size) : Interned A :=
  match A.entries.finIdxOf? e with
  | some i => ⟨A, i, Nat.le_refl _⟩
  | none =>
    ⟨⟨A.entries.push e, A.children_lt_push h⟩, ⟨A.size, by simp [size]⟩, by simp [size]⟩

/-- Two growths, one after the other. -/
def Interned.follow {A : Arena} (r : Interned A) (s : Interned r.arena) : Interned A :=
  ⟨s.arena, s.index, Nat.le_trans r.size_le s.size_le⟩

/-- Adds a layer over one operand. -/
def Interned.over {A : Arena} (r : Interned A) (op : Nat → Expr Nat)
    (h : ∀ a, (op a).children = [a]) : Interned A :=
  r.follow <| r.arena.insert (op r.index) (by simp [h])

/-- Adds a layer over two operands, the second interned after the first. -/
def Interned.over₂ {A : Arena} (r : Interned A) (s : Interned r.arena) (op : Nat → Nat → Expr Nat)
    (h : ∀ a b, (op a b).children = [a, b]) : Interned A :=
  r.follow <| s.follow <| s.arena.insert (op r.index s.index) (by
    have := s.size_le
    simp [h]
    omega)

/-- Interns a formula and all its subformulas, operands first and from left to right. -/
def Arena.intern (A : Arena) : Formula → Interned A
  | .prop p => A.insert (.prop p) (by simp [Expr.children])
  | .not a => (A.intern a).over .not fun _ => rfl
  | .next a => (A.intern a).over .next fun _ => rfl
  | .and a b => let r := A.intern a; r.over₂ (r.arena.intern b) .and fun _ _ => rfl
  | .or a b => let r := A.intern a; r.over₂ (r.arena.intern b) .or fun _ _ => rfl
  | .until a b => let r := A.intern a; r.over₂ (r.arena.intern b) .until fun _ _ => rfl
  | .release a b => let r := A.intern a; r.over₂ (r.arena.intern b) .release fun _ _ => rfl

def Arena.expr (A : Arena) (i : Fin A.size) : Expr (Fin A.size) :=
  A.entries[i].below A.size fun c hc =>
    Nat.lt_trans (A.children_lt i.val i.isLt c hc) i.isLt

theorem Arena.child_lt {A : Arena} {i c : Fin A.size} (h : c ∈ (A.expr i).children) : c < i :=
  A.children_lt i.val i.isLt c.val (Expr.mem_children_below.1 h)

/-- The formula an index stands for. -/
def Arena.formula (A : Arena) (i : Fin A.size) : Formula :=
  match _ : A.expr i with
  | .prop p => .prop p
  | .not a => .not (A.formula a)
  | .next a => .next (A.formula a)
  | .and a b => .and (A.formula a) (A.formula b)
  | .or a b => .or (A.formula a) (A.formula b)
  | .until a b => .until (A.formula a) (A.formula b)
  | .release a b => .release (A.formula a) (A.formula b)
termination_by i.val
decreasing_by all_goals exact A.child_lt (by simp [*, Expr.children])

def Arena.proposition? (A : Arena) (i : Fin A.size) : Option Proposition :=
  match A.expr i with
  | .prop p => some p
  | _ => none

def Arena.negated? (A : Arena) (i : Fin A.size) : Option Proposition :=
  match A.expr i with
  | .not a => A.proposition? a
  | _ => none

def Arena.isLiteral (A : Arena) (i : Fin A.size) : Bool :=
  (A.proposition? i).isSome || (A.negated? i).isSome

def Arena.isFalse (A : Arena) (i : Fin A.size) : Bool :=
  (A.proposition? i).any Proposition.isFalse

/-- The entries a formula is built from, itself included. -/
def Arena.support (A : Arena) (root : Fin A.size) : IndexSet A.size :=
  (List.finRange A.size).foldr
    (fun i s => if i ∈ s then s ∪ .ofList (A.expr i).children else s) {root}

end TemporalMonitor
