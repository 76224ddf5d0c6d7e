import TemporalMonitor.Compile
import TemporalMonitor.Proofs.Paths

/-! Monitors fed with events, and the segment of events since the last restart. The states a monitor
keeps are ends of paths labelled by the segment; they are all such ends as long as narrowing takes
none away. So an event that leaves no state, with nothing narrowed away before, rules out every word
that goes on from the segment. -/

namespace TemporalMonitor

section

variable {A : Automaton} {σ : Type} {G : Guards}

def Monitor.feed [Sink σ] (G : Guards) (m : Monitor A σ) (es : List Event) : Monitor A σ :=
  es.foldl (fun m e => (m.accept G e).monitor) m

theorem Monitor.feed_append_singleton [Sink σ] (m : Monitor A σ) (es : List Event) (e : Event) :
    m.feed G (es ++ [e]) = ((m.feed G es).accept G e).monitor := by
  simp [feed]

theorem Monitor.current_accept [Sink σ] (m : Monitor A σ) (e : Event) :
    (m.accept G e).monitor.current =
      if A.verdict (m.advance G e) = .ongoing then m.advance G e else {A.initial} := by
  simp only [accept]
  split <;> rfl

theorem Monitor.stats_accept [Sink σ] (m : Monitor A σ) (e : Event) :
    (m.accept G e).monitor.stats =
      m.stats.count (A.verdict (m.advance G e)) (m.accept G e).firings.length := by
  simp only [accept]
  split <;> rfl

theorem Monitor.accepted_accept [Sink σ] (m : Monitor A σ) (e : Event) :
    (m.accept G e).monitor.stats.accepted = m.stats.accepted + 1 ↔
      A.verdict (m.advance G e) = .accepted := by
  simp [stats_accept, Statistics.count]

theorem Monitor.rejected_accept [Sink σ] (m : Monitor A σ) (e : Event) :
    (m.accept G e).monitor.stats.rejected = m.stats.rejected + 1 ↔
      A.verdict (m.advance G e) = .rejected := by
  simp [stats_accept, Statistics.count]

theorem Monitor.accepted_feed_eq_zero_iff [Sink σ] (m : Monitor A σ) (es : List Event) :
    (m.feed G es).stats.accepted = 0 ↔ m.stats.accepted = 0 ∧
      ∀ past e rest, es = past ++ e :: rest →
        A.verdict ((m.feed G past).advance G e) ≠ .accepted := by
  induction es generalizing m with
  | nil =>
    have hnil : ∀ past (e : Event) rest, [] ≠ past ++ e :: rest := by simp
    exact ⟨fun h => ⟨h, fun past e rest he => absurd he (hnil past e rest)⟩, fun h => h.1⟩
  | cons x es ih =>
    have hx : (m.accept G x).monitor.stats.accepted = 0 ↔
        m.stats.accepted = 0 ∧ A.verdict (m.advance G x) ≠ .accepted := by
      simp [stats_accept, Statistics.count]
    have hh := ih (m.accept G x).monitor
    rw [hx] at hh
    refine hh.trans ⟨?_, ?_⟩
    · intro hh
      obtain ⟨⟨h0, h1⟩, h2⟩ := hh
      refine ⟨h0, fun past e rest he => ?_⟩
      cases past with
      | nil =>
        obtain ⟨rfl, _⟩ := List.cons.inj he
        exact h1
      | cons y past =>
        obtain ⟨rfl, hes⟩ := List.cons.inj he
        exact h2 past e rest hes
    · intro hh
      obtain ⟨h0, h1⟩ := hh
      refine ⟨⟨h0, h1 [] x es rfl⟩, fun past e rest he => ?_⟩
      exact h1 (x :: past) e rest (congrArg (x :: ·) he)

/-- Whether narrowing takes a state away on the event. -/
def Monitor.narrows (G : Guards) (m : Monitor A σ) (e : Event) : Bool :=
  m.advance G e ≠ A.matching G e (A.candidates m.current)

theorem Monitor.advance_eq_of_narrows_eq_false {m : Monitor A σ} {e : Event}
    (h : m.narrows G e = false) : m.advance G e = A.matching G e (A.candidates m.current) := by
  simpa [narrows] using h

end

section

variable {A : Automaton} {G : Guards}

theorem Automaton.mem_matching_candidates {current : IndexSet A.size} {e : Event} {j : Fin A.size} :
    j ∈ A.matching G e (A.candidates current) ↔
      ∃ i ∈ current, j ∈ (A.state i).out ∧ (A.state j).satisfiedBy G e = true := by
  simp only [matching, candidates, IndexSet.mem_filter, IndexSet.mem_unions, List.mem_map,
    IndexSet.mem_toList]
  constructor
  · intro hh
    obtain ⟨⟨_, ⟨i, hi, rfl⟩, hj⟩, he⟩ := hh
    exact ⟨i, hi, hj, he⟩
  · intro hh
    obtain ⟨i, hi, hj, he⟩ := hh
    exact ⟨⟨_, ⟨i, hi, rfl⟩, hj⟩, he⟩

theorem Automaton.mem_of_mem_narrow {s : IndexSet A.size} {i : Fin A.size} (h : i ∈ A.narrow s) :
    i ∈ s := by
  unfold narrow at h
  split at h
  · exact (IndexSet.mem_filter.1 h).1
  · exact h

theorem Automaton.verdict_eq_accepted_iff {s : IndexSet A.size} :
    A.verdict s = .accepted ↔ ∃ i ∈ s, (A.state i).isFinal = true := by
  unfold verdict
  split
  · rename_i h
    simpa [List.any_eq_true] using h
  · rename_i h
    have hn : ¬ ∃ i ∈ s, (A.state i).isFinal = true := by simpa [List.any_eq_true] using h
    split <;> simpa using hn

theorem Automaton.isEmpty_of_verdict_eq_rejected {s : IndexSet A.size}
    (h : A.verdict s = .rejected) : s.isEmpty = true := by
  unfold verdict at h
  split at h
  · simp at h
  · split at h
    · assumption
    · simp at h

theorem Automaton.initial_not_mem_out (f : Formula) (t : Tableau) (i : Fin t.size) :
    ¬ (ofTableau f t).initial ∈ ((ofTableau f t).state i).out := by
  rw [out_ofTableau]
  intro h
  exact absurd (Tableau.mem_out.1 h) List.not_mem_nil

theorem Monitor.initial_not_mem_advance {σ : Type} (hA : ∀ i, ¬ A.initial ∈ (A.state i).out)
    (m : Monitor A σ) (e : Event) : ¬ A.initial ∈ m.advance G e := by
  intro h
  obtain ⟨i, _, hi, _⟩ := Automaton.mem_matching_candidates.1 (Automaton.mem_of_mem_narrow h)
  exact hA i hi

end

/-- A monitor with the events since its last restart, and whether narrowing took a state away on
any of them. -/
structure Session (A : Automaton) (σ : Type) where
  monitor : Monitor A σ
  segment : List Event
  narrowed : Bool

section

variable {A : Automaton} {σ : Type} {G : Guards}

def Session.start (A : Automaton) (sink : σ) : Session A σ :=
  ⟨.start A sink, [], false⟩

def Session.accept [Sink σ] (G : Guards) (s : Session A σ) (e : Event) : Session A σ :=
  let r := s.monitor.accept G e
  if r.verdict = .ongoing then ⟨r.monitor, s.segment ++ [e], s.narrowed || s.monitor.narrows G e⟩
  else ⟨r.monitor, [], false⟩

def Session.feed [Sink σ] (G : Guards) (s : Session A σ) (es : List Event) : Session A σ :=
  es.foldl (Session.accept G) s

theorem Session.monitor_accept [Sink σ] (s : Session A σ) (e : Event) :
    (s.accept G e).monitor = (s.monitor.accept G e).monitor := by
  simp only [accept]
  split <;> rfl

theorem Session.monitor_feed [Sink σ] (s : Session A σ) (es : List Event) :
    (s.feed G es).monitor = s.monitor.feed G es := by
  induction es generalizing s with
  | nil => rfl
  | cons e es ih =>
    have hh := ih (s.accept G e)
    rwa [monitor_accept] at hh

/-- Every current state ends a path along the segment, and with nothing narrowed away every end of
such a path is current. -/
structure Session.Tracks (G : Guards) (s : Session A σ) : Prop where
  reaches : ∀ i ∈ s.monitor.current, A.Reaches G s.segment i
  current : s.narrowed = false → ∀ i, A.Reaches G s.segment i → i ∈ s.monitor.current

theorem Session.Tracks.reaches_of_mem_advance {s : Session A σ} (h : s.Tracks G) {e : Event}
    {j : Fin A.size} (hj : j ∈ s.monitor.advance G e) : A.Reaches G (s.segment ++ [e]) j := by
  have hm := Automaton.mem_of_mem_narrow hj
  obtain ⟨i, hi, ho, he⟩ := Automaton.mem_matching_candidates.1 hm
  exact Automaton.reaches_append_singleton.2 ⟨i, h.reaches i hi, ho, he⟩

theorem Session.Tracks.mem_advance_of_reaches {s : Session A σ} (h : s.Tracks G) {e : Event}
    (hs : s.narrowed = false) (hn : s.monitor.narrows G e = false) {j : Fin A.size}
    (hj : A.Reaches G (s.segment ++ [e]) j) : j ∈ s.monitor.advance G e := by
  obtain ⟨i, hi, ho, he⟩ := Automaton.reaches_append_singleton.1 hj
  rw [Monitor.advance_eq_of_narrows_eq_false hn]
  exact Automaton.mem_matching_candidates.2 ⟨i, h.current hs i hi, ho, he⟩

theorem Session.tracks_of_restarted {s : Session A σ} (hc : s.monitor.current = {A.initial})
    (hs : s.segment = []) : s.Tracks G := by
  refine ⟨?_, ?_⟩
  · intro i hi
    rw [hc] at hi
    rw [hs]
    exact (IndexSet.mem_singleton.1 hi).symm
  · intro _ i hi
    rw [hs] at hi
    rw [hc]
    exact IndexSet.mem_singleton.2 (Eq.symm hi)

theorem Session.Tracks.accept [Sink σ] {s : Session A σ} (h : s.Tracks G) (e : Event) :
    (s.accept G e).Tracks G := by
  have hc := s.monitor.current_accept (G := G) e
  by_cases hv : A.verdict (s.monitor.advance G e) = .ongoing
  · have hs : s.accept G e = ⟨(s.monitor.accept G e).monitor, s.segment ++ [e],
        s.narrowed || s.monitor.narrows G e⟩ := if_pos hv
    rw [if_pos hv] at hc
    rw [hs]
    refine ⟨?_, ?_⟩
    · intro i hi
      rw [hc] at hi
      exact h.reaches_of_mem_advance hi
    · intro hn i hi
      rw [hc]
      obtain ⟨h1, h2⟩ := Bool.or_eq_false_iff.1 hn
      exact h.mem_advance_of_reaches h1 h2 hi
  · have hs : s.accept G e = ⟨(s.monitor.accept G e).monitor, [], false⟩ := if_neg hv
    rw [if_neg hv] at hc
    rw [hs]
    exact tracks_of_restarted hc rfl

theorem Session.Tracks.feed [Sink σ] {s : Session A σ} (h : s.Tracks G) (es : List Event) :
    (s.feed G es).Tracks G := by
  induction es generalizing s with
  | nil => exact h
  | cons e es ih => exact ih (h.accept e)

theorem Session.start_tracks (A : Automaton) (sink : σ) : (Session.start A sink).Tracks G :=
  tracks_of_restarted rfl rfl

end

theorem Tableau.Unfolds.exists_reaches {t : Tableau} {f : Formula} (ht : t.Unfolds f) {G : Guards}
    {w : Word} {es : List Event} (h : f.HoldsAt G w 0) (hw : w.Extends es) :
    ∃ i, (Automaton.ofTableau f t).Reaches G es i := by
  obtain ⟨run, hr, _⟩ := ht.exists_fair_run h
  cases es with
  | nil => exact ⟨t.init, rfl⟩
  | cons e es => exact ⟨run es.length, hr.path hw⟩

/-- Subset simulation with narrowing against the states reached along the segment. The events of the
segment end with the one at hand. -/
theorem kept_refines_reaches {σ : Type} [Sink σ] (G : Guards) (f : Formula) (sink : σ)
    (es : List Event) (e : Event) :
    let A := Automaton.ofTableau f (.build f)
    let s := (Session.start A sink).feed G es
    (∀ i ∈ s.monitor.advance G e, A.Reaches G (s.segment ++ [e]) i) ∧
    (s.narrowed = false → s.monitor.narrows G e = false →
      (∀ i, i ∈ s.monitor.advance G e ↔ A.Reaches G (s.segment ++ [e]) i) ∧
      ((s.monitor.accept G e).monitor.stats.rejected = s.monitor.stats.rejected + 1 →
        ∀ w : Word, w.Extends (s.segment ++ [e]) → ¬ f.HoldsAt G w 0)) := by
  intro A s
  have htr : s.Tracks G := (Session.start_tracks A sink).feed es
  refine ⟨fun i hi => htr.reaches_of_mem_advance hi, ?_⟩
  intro hs hn
  have hiff : ∀ i, i ∈ s.monitor.advance G e ↔ A.Reaches G (s.segment ++ [e]) i :=
    fun i => ⟨htr.reaches_of_mem_advance, htr.mem_advance_of_reaches hs hn⟩
  refine ⟨hiff, ?_⟩
  intro hrej w hw hf
  have hempty := Automaton.isEmpty_of_verdict_eq_rejected ((s.monitor.rejected_accept e).1 hrej)
  obtain ⟨i, hi⟩ := (Tableau.buildWith_unfolds _ f).exists_reaches hf hw
  exact IndexSet.isEmpty_iff.1 hempty i ((hiff i).2 hi)

theorem rejected_rules_out_next :
    let p := Formula.prop ⟨.event "p", none, none, none⟩
    let f := p.and (.next (.prop ⟨.event "q", none, none, none⟩))
    let s := (Session.start (.ofTableau f (.build f)) ({} : NullSink)).feed (fun _ _ => true)
      [⟨"p", none, []⟩]
    s.narrowed = false ∧ s.monitor.narrows (fun _ _ => true) ⟨"p", none, []⟩ = false ∧
      ∀ w : Word, w.Extends (s.segment ++ [⟨"p", none, []⟩]) → ¬ f.HoldsAt (fun _ _ => true) w 0 := by
  intro p f s
  have hs : s.narrowed = false := by decide +kernel
  have hn : s.monitor.narrows (fun _ _ => true) ⟨"p", none, []⟩ = false := by decide +kernel
  have hh := (kept_refines_reaches (fun _ _ => true) f ({} : NullSink) [⟨"p", none, []⟩]
    ⟨"p", none, []⟩).2 hs hn
  exact ⟨hs, hn, hh.2 (by decide +kernel)⟩

end TemporalMonitor
