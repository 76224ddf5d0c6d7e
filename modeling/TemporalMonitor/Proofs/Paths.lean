import TemporalMonitor.Proofs.FairRuns

/-! Finite paths of an automaton labelled by events. The beginning of a run is a path, and a path can
be put before a run that starts where it ends. -/

namespace TemporalMonitor

/-- The events lead from one state to another: each enters a successor that it satisfies. -/
def Automaton.Path (A : Automaton) (G : Guards) : Fin A.size → List Event → Fin A.size → Prop
  | i, [], k => i = k
  | i, e :: es, k =>
    ∃ j, j ∈ (A.state i).out ∧ (A.state j).satisfiedBy G e = true ∧ A.Path G j es k

def Automaton.Reaches (A : Automaton) (G : Guards) (es : List Event) (i : Fin A.size) : Prop :=
  A.Path G A.initial es i

def Word.Extends (w : Word) (es : List Event) : Prop :=
  ∀ (i : Nat) (h : i < es.length), w i = es[i]

theorem Word.extends_cons {w : Word} {e : Event} {es : List Event} :
    w.Extends (e :: es) ↔ w 0 = e ∧ Word.Extends (fun n => w (n + 1)) es := by
  constructor
  · intro h
    exact ⟨h 0 (by simp), fun i hi => h (i + 1) (by simpa using hi)⟩
  · intro h i hi
    cases i with
    | zero => exact h.1
    | succ i => exact h.2 i (by simpa using hi)

section

variable {A : Automaton} {G : Guards}

theorem Automaton.path_append {i k : Fin A.size} {es es' : List Event} :
    A.Path G i (es ++ es') k ↔ ∃ j, A.Path G i es j ∧ A.Path G j es' k := by
  induction es generalizing i with
  | nil => simp [Path]
  | cons e es ih =>
    simp only [List.cons_append, Path, ih]
    constructor
    · intro hh
      obtain ⟨j, hj, he, l, hl, hk⟩ := hh
      exact ⟨l, ⟨j, hj, he, hl⟩, hk⟩
    · intro hh
      obtain ⟨l, ⟨j, hj, he, hl⟩, hk⟩ := hh
      exact ⟨j, hj, he, l, hl, hk⟩

theorem Automaton.reaches_append_singleton {es : List Event} {e : Event} {j : Fin A.size} :
    A.Reaches G (es ++ [e]) j ↔
      ∃ i, A.Reaches G es i ∧ j ∈ (A.state i).out ∧ (A.state j).satisfiedBy G e = true := by
  simp only [Reaches, path_append, Path]
  constructor
  · intro hh
    obtain ⟨i, hi, k, hk, he, hj⟩ := hh
    exact ⟨i, hi, hj ▸ hk, hj ▸ he⟩
  · intro hh
    obtain ⟨i, hi, hj, he⟩ := hh
    exact ⟨i, hi, j, hj, he, rfl⟩

theorem Automaton.IsRunFrom.tail {start : Fin A.size} {w : Word} {run : Nat → Fin A.size}
    (h : A.IsRunFrom G start w run) :
    A.IsRunFrom G (run 0) (fun n => w (n + 1)) fun n => run (n + 1) :=
  ⟨h.next 0, fun i => h.next (i + 1), fun i => h.satisfied (i + 1)⟩

theorem Automaton.IsRunFrom.path {start : Fin A.size} {w : Word} {run : Nat → Fin A.size}
    {e : Event} {es : List Event} (h : A.IsRunFrom G start w run) (hw : w.Extends (e :: es)) :
    A.Path G start (e :: es) (run es.length) := by
  have he : (A.state (run 0)).satisfiedBy G e = true := by
    have hs := h.satisfied 0
    rwa [(Word.extends_cons.1 hw).1] at hs
  induction es generalizing start w run e with
  | nil => exact ⟨run 0, h.first, he, rfl⟩
  | cons e' es ih =>
    have hw' := (Word.extends_cons.1 hw).2
    have he' : (A.state (run 1)).satisfiedBy G e' = true := by
      have hs := h.satisfied 1
      rwa [(Word.extends_cons.1 hw').1] at hs
    exact ⟨run 0, h.first, he, ih h.tail hw' he'⟩

def followedBy {α : Type} (i : α) (run : Nat → α) : Nat → α
  | 0 => i
  | n + 1 => run n

theorem Automaton.IsRunFrom.cons {start i : Fin A.size} {w : Word} {run : Nat → Fin A.size}
    (hi : i ∈ (A.state start).out) (he : (A.state i).satisfiedBy G (w 0) = true)
    (h : A.IsRunFrom G i (fun n => w (n + 1)) run) :
    A.IsRunFrom G start w (followedBy i run) := by
  refine ⟨hi, ?_, ?_⟩
  · intro n
    cases n with
    | zero => exact h.first
    | succ n => exact h.next n
  · intro n
    cases n with
    | zero => exact he
    | succ n => exact h.satisfied n

theorem Automaton.Path.exists_run {start i : Fin A.size} {es : List Event} {w : Word}
    {run : Nat → Fin A.size} (hp : A.Path G start es i) (hw : w.Extends es)
    (h : A.IsRunFrom G i (fun n => w (es.length + n)) run) :
    ∃ run', A.IsRunFrom G start w run' ∧ ∀ n, run' (es.length + n) = run n := by
  induction es generalizing start w with
  | nil =>
    have hs : start = i := hp
    simp only [List.length_nil, Nat.zero_add] at h ⊢
    exact ⟨run, hs ▸ h, fun _ => rfl⟩
  | cons e es ih =>
    obtain ⟨j, hj, he, hp⟩ := hp
    obtain ⟨h0, hw'⟩ := Word.extends_cons.1 hw
    have hshift : ∀ n, (e :: es).length + n = es.length + n + 1 := fun n => by
      simp only [List.length_cons]
      omega
    simp only [hshift] at h ⊢
    obtain ⟨run', hr, heq⟩ := ih hp hw' h
    exact ⟨followedBy j run', .cons hj (h0 ▸ he) hr, heq⟩

end

end TemporalMonitor
