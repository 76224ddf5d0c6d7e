import TemporalMonitor.Proofs.Settling

/-! A fresh monitor fed with an infinite word. Until its first verdict the segment of the monitor is
all it was fed with, so its states are ends of paths along the beginning of the word, and they are all
such ends if nothing was narrowed away. -/

namespace TemporalMonitor

def Word.take (w : Word) (n : Nat) : List Event :=
  (List.range n).map w

theorem Word.take_succ (w : Word) (n : Nat) : w.take (n + 1) = w.take n ++ [w n] := by
  simp [take, List.range_succ]

theorem Word.extends_take (w : Word) (n : Nat) : w.Extends (w.take n) := by
  intro i hi
  simp [take]

theorem exists_compile {σ : Type} [Sink σ] {f : Formula} (h : f.wellPlaced = true) (sink : σ) :
    ∃ c, compile f sink = .ok c :=
  ⟨_, if_pos h⟩

section

variable {A : Automaton} {σ : Type} {G : Guards}

def Monitor.Undecided (m : Monitor A σ) : Prop :=
  m.stats.accepted = 0 ∧ m.stats.rejected = 0

theorem Monitor.undecided_accept [Sink σ] {m : Monitor A σ} {e : Event} :
    (m.accept G e).monitor.Undecided ↔
      m.Undecided ∧ A.verdict (m.advance G e) = .ongoing := by
  cases hv : A.verdict (m.advance G e) <;>
    simp [Undecided, stats_accept, Statistics.count, hv]

theorem Automaton.verdict_eq_rejected_iff {s : IndexSet A.size} :
    A.verdict s = .rejected ↔ ∀ i, ¬ i ∈ s := by
  constructor
  · intro h
    exact IndexSet.isEmpty_iff.1 (isEmpty_of_verdict_eq_rejected h)
  · intro h
    have hfin : ¬ (s.toList.any fun i => (A.state i).isFinal) = true := by simp [h]
    rw [verdict, if_neg hfin, if_pos (IndexSet.isEmpty_iff.2 h)]

theorem Automaton.verdict_eq_ongoing_iff {s : IndexSet A.size} :
    A.verdict s = .ongoing ↔ (∃ i, i ∈ s) ∧ ∀ i ∈ s, (A.state i).isFinal = false := by
  constructor
  · intro h
    have hacc : ¬ A.verdict s = .accepted := by simp [h]
    have hrej : ¬ A.verdict s = .rejected := by simp [h]
    rw [verdict_eq_accepted_iff] at hacc
    rw [verdict_eq_rejected_iff] at hrej
    refine ⟨Classical.not_forall_not.1 hrej, ?_⟩
    intro i hi
    exact Bool.eq_false_iff.2 fun hf => hacc ⟨i, hi, hf⟩
  · intro hh
    obtain ⟨⟨i, hi⟩, hfin⟩ := hh
    cases hv : A.verdict s with
    | ongoing => rfl
    | accepted =>
      obtain ⟨j, hj, hf⟩ := verdict_eq_accepted_iff.1 hv
      simp [hfin j hj] at hf
    | rejected => exact absurd hi (verdict_eq_rejected_iff.1 hv i)

theorem Monitor.feed_take_succ [Sink σ] (m : Monitor A σ) (w : Word) (n : Nat) :
    m.feed G (w.take (n + 1)) = ((m.feed G (w.take n)).accept G (w n)).monitor := by
  rw [Word.take_succ, feed_append_singleton]

theorem Session.feed_take_succ [Sink σ] (s : Session A σ) (w : Word) (n : Nat) :
    s.feed G (w.take (n + 1)) = (s.feed G (w.take n)).accept G (w n) := by
  simp [feed, Word.take_succ]

theorem Session.monitor_feed_start [Sink σ] (sink : σ) (es : List Event) :
    ((Session.start A sink).feed G es).monitor = (Monitor.start A sink).feed G es :=
  monitor_feed _ es

theorem Session.segment_of_undecided [Sink σ] {sink : σ} {w : Word} {n : Nat}
    (h : ((Monitor.start A sink).feed G (w.take n)).Undecided) :
    ((Session.start A sink).feed G (w.take n)).segment = w.take n ∧
    ((∀ k, k < n → ((Monitor.start A sink).feed G (w.take k)).narrows G (w k) = false) →
      ((Session.start A sink).feed G (w.take n)).narrowed = false) := by
  induction n with
  | zero => exact ⟨rfl, fun _ => rfl⟩
  | succ n ih =>
    rw [Monitor.feed_take_succ, Monitor.undecided_accept] at h
    obtain ⟨hu, hv⟩ := h
    obtain ⟨hseg, hnar⟩ := ih hu
    have hm := monitor_feed_start (A := A) (G := G) sink (w.take n)
    let s := (Session.start A sink).feed G (w.take n)
    have hs : s.accept G (w n) = ⟨(s.monitor.accept G (w n)).monitor, s.segment ++ [w n],
        s.narrowed || s.monitor.narrows G (w n)⟩ := if_pos (hm ▸ hv)
    rw [feed_take_succ, hs]
    refine ⟨?_, ?_⟩
    · show s.segment ++ [w n] = w.take (n + 1)
      rw [hseg, Word.take_succ]
    · intro hn
      have h1 : s.narrowed = false := hnar fun k hk => hn k (by omega)
      have h2 : s.monitor.narrows G (w n) = false := hm ▸ hn n (by omega)
      exact Bool.or_eq_false_iff.2 ⟨h1, h2⟩

theorem Monitor.reaches_of_mem_advance [Sink σ] {sink : σ} {w : Word} {n : Nat} {i : Fin A.size}
    (h : ((Monitor.start A sink).feed G (w.take n)).Undecided)
    (hi : i ∈ ((Monitor.start A sink).feed G (w.take n)).advance G (w n)) :
    A.Reaches G (w.take (n + 1)) i := by
  have htr : ((Session.start A sink).feed G (w.take n)).Tracks G :=
    (Session.start_tracks A sink).feed _
  rw [← Session.monitor_feed_start] at hi
  have hr := htr.reaches_of_mem_advance hi
  rwa [(Session.segment_of_undecided h).1, ← Word.take_succ] at hr

theorem Monitor.mem_matching_of_reaches [Sink σ] {sink : σ} {w : Word} {n : Nat} {i : Fin A.size}
    (h : ((Monitor.start A sink).feed G (w.take n)).Undecided)
    (hn : ∀ k, k < n → ((Monitor.start A sink).feed G (w.take k)).narrows G (w k) = false)
    (hi : A.Reaches G (w.take (n + 1)) i) :
    i ∈ A.matching G (w n) (A.candidates ((Monitor.start A sink).feed G (w.take n)).current) := by
  have htr : ((Session.start A sink).feed G (w.take n)).Tracks G :=
    (Session.start_tracks A sink).feed _
  obtain ⟨hseg, hnar⟩ := Session.segment_of_undecided h
  rw [Word.take_succ, Automaton.reaches_append_singleton] at hi
  obtain ⟨j, hj, ho, hs⟩ := hi
  have hc := htr.current (hnar hn) j (hseg.symm ▸ hj)
  rw [Session.monitor_feed_start] at hc
  exact Automaton.mem_matching_candidates.2 ⟨j, hc, ho, hs⟩

theorem Monitor.counts_accept [Sink σ] {m : Monitor A σ} (h : m.Undecided) (e : Event) :
    (m.accept G e).monitor.stats.accepted =
        (if A.verdict (m.advance G e) = .accepted then 1 else 0) ∧
      (m.accept G e).monitor.stats.rejected =
        (if A.verdict (m.advance G e) = .rejected then 1 else 0) := by
  obtain ⟨ha, hr⟩ := h
  rw [stats_accept]
  simp [Statistics.count, ha, hr]

theorem Monitor.Undecided.of_le [Sink σ] {m : Monitor A σ} {w : Word} {k n : Nat}
    (h : (m.feed G (w.take n)).Undecided) (hk : k ≤ n) : (m.feed G (w.take k)).Undecided := by
  induction n with
  | zero => exact Nat.le_zero.1 hk ▸ h
  | succ n ih =>
    by_cases he : k = n + 1
    · exact he ▸ h
    · rw [feed_take_succ] at h
      exact ih (undecided_accept.1 h).1 (by omega)

theorem Monitor.undecided_or_first_verdict [Sink σ] (G : Guards) (sink : σ) (w : Word) :
    (∀ n, ((Monitor.start A sink).feed G (w.take n)).Undecided) ∨
    ∃ k, ((Monitor.start A sink).feed G (w.take k)).Undecided ∧
      A.verdict (((Monitor.start A sink).feed G (w.take k)).advance G (w k)) ≠ .ongoing := by
  by_cases hex : ∃ k, ((Monitor.start A sink).feed G (w.take k)).Undecided ∧
      A.verdict (((Monitor.start A sink).feed G (w.take k)).advance G (w k)) ≠ .ongoing
  · exact .inr hex
  · left
    intro n
    induction n with
    | zero => exact ⟨rfl, rfl⟩
    | succ n ih =>
      have hv : A.verdict (((Monitor.start A sink).feed G (w.take n)).advance G (w n)) =
          .ongoing := Classical.byContradiction fun hv => hex ⟨n, ih, hv⟩
      rw [feed_take_succ]
      exact undecided_accept.2 ⟨ih, hv⟩

end

end TemporalMonitor
