import TemporalMonitor.Proofs.FirstVerdict

/-! The timer of a monitor and the timer pending in its recorder, along every run of a host that
gives events, lets the timer expire and takes the calls recorded. The two stay the same, the pending
timer is the one started last, and a monitor back at its initial state has none. -/

namespace TemporalMonitor

/-- What a host does with a monitor. A timeout reaches the monitor only when a timer expires. -/
inductive HostStep
  | accept (e : Event) (h : e.isTimeout = false)
  | fireTimeout
  | drain

/-- A monitor with the calls that its recorder has handed over. -/
structure Hosted (A : Automaton) where
  monitor : Monitor A Recorder
  handed : List Call := []

def Hosted.step {A : Automaton} (G : Guards) (s : Hosted A) : HostStep → Hosted A
  | .accept e _ => { s with monitor := (s.monitor.accept G e).monitor }
  | .fireTimeout =>
    { s with monitor := ((s.monitor.fireTimeout G).map Reaction.monitor).getD s.monitor }
  | .drain =>
    let (calls, sink) := s.monitor.sink.drain
    ⟨{ s.monitor with sink := sink }, s.handed ++ calls⟩

def Hosted.run {A : Automaton} (G : Guards) (s : Hosted A) (steps : List HostStep) : Hosted A :=
  steps.foldl (Hosted.step G) s

def Call.started? : Call → Option (TimerId × Duration)
  | .schedule timer delay => some (timer, delay)
  | _ => none

def lastStarted (calls : List Call) : Option (TimerId × Duration) :=
  (calls.filterMap Call.started?).getLast?

theorem lastStarted_append (calls : List Call) (call : Call) :
    lastStarted (calls ++ [call]) = call.started?.or (lastStarted calls) := by
  cases h : call.started? <;> simp [lastStarted, h]

/-- The timer is the one pending, and with the calls handed over before it is the last started. -/
structure Recorder.Agrees (r : Recorder) (timer : Option TimerId) (handed : List Call) : Prop where
  timer_eq : timer = r.pending.map Prod.fst
  started : ∀ p ∈ r.pending, lastStarted (handed ++ r.calls) = some p

section

variable {r : Recorder} {timer : Option TimerId} {handed : List Call}

theorem Recorder.agrees_of_pending_eq_none (h : r.pending = none) : r.Agrees none handed := by
  refine ⟨?_, ?_⟩
  · rw [h]
    rfl
  · intro p hp
    simp [h] at hp

theorem Recorder.Agrees.record (h : r.Agrees timer handed) {call : Call}
    (hc : call.started? = none) : (r.record call).Agrees timer handed := by
  refine ⟨h.timer_eq, ?_⟩
  intro p hp
  show lastStarted (handed ++ (r.calls ++ [call])) = some p
  rw [← List.append_assoc, lastStarted_append, hc]
  exact h.started p hp

theorem Recorder.agrees_schedule (r : Recorder) (delay : Duration) (handed : List Call) :
    (Sink.schedule r delay).2.Agrees (some (Sink.schedule r delay).1) handed := by
  refine ⟨rfl, ?_⟩
  intro p hp
  show lastStarted (handed ++ (r.calls ++ [.schedule ⟨r.scheduled + 1⟩ delay])) = some p
  rw [← List.append_assoc, lastStarted_append]
  exact hp

theorem Recorder.pending_subscribe (shapes : List Shape) (r : Recorder) :
    (shapes.foldl Sink.subscribe r).pending = r.pending := by
  rw [foldl_subscribe]

theorem Recorder.Agrees.drain (h : r.Agrees timer handed) :
    r.drain.2.Agrees timer (handed ++ r.drain.1) := by
  refine ⟨h.timer_eq, ?_⟩
  intro p hp
  show lastStarted (handed ++ r.calls ++ []) = some p
  rw [List.append_nil]
  exact h.started p hp

end

section

variable {A : Automaton} {G : Guards} {handed : List Call}

def Progress.Agrees (p : Progress Recorder) (handed : List Call) : Prop :=
  p.sink.Agrees p.timer handed

theorem Progress.Agrees.fire {p : Progress Recorder} (h : p.Agrees handed) (ctx : Context)
    (t : Trigger) : (p.fire ctx t).Agrees handed := by
  cases t with
  | callback _ => exact h
  | effect e =>
    cases e with
    | startTimer delay => exact Recorder.agrees_schedule p.sink delay handed
    | apply selector action => exact h.record rfl

theorem Progress.Agrees.visit {p : Progress Recorder} (h : p.Agrees handed) (ctx : Context)
    (v : Visit A.size) : (p.visit ctx v).Agrees handed := by
  cases v with
  | mismatch _ => exact h
  | firing f =>
    have hn : (p.note (.firing (A.state f.state).name f.proposition)).Agrees handed := h
    exact hn.fire ctx f.trigger

theorem Progress.Agrees.foldl_visit {p : Progress Recorder} (h : p.Agrees handed) (ctx : Context)
    (vs : List (Visit A.size)) : (vs.foldl (Progress.visit ctx) p).Agrees handed := by
  induction vs generalizing p with
  | nil => exact h
  | cons v vs ih => exact ih (h.visit ctx v)

structure Hosted.InStep (s : Hosted A) : Prop where
  agrees : s.monitor.sink.Agrees s.monitor.timer s.handed
  underway : s.monitor.timer ≠ none → s.monitor.atInitial = false

theorem Hosted.inStep_of_timer_eq_none {s : Hosted A} (ht : s.monitor.timer = none)
    (hp : s.monitor.sink.pending = none) : s.InStep := by
  refine ⟨?_, fun h => absurd ht h⟩
  rw [ht]
  exact Recorder.agrees_of_pending_eq_none hp

theorem Monitor.inStep_accept (hA : ∀ i, ¬ A.initial ∈ (A.state i).out) {m : Monitor A Recorder}
    {e : Event} (h : m.sink.Agrees (if e.isTimeout then none else m.timer) handed) :
    Hosted.InStep ⟨(m.accept G e).monitor, handed⟩ := by
  let received : Progress Recorder :=
    ⟨m.sink, if e.isTimeout then none else m.timer, [.received e]⟩
  have hr : received.Agrees handed := h
  let progress := (A.visits G e (A.candidates m.current)).foldl
    (Progress.visit (m.memory.context e)) received
  have hp : progress.Agrees handed := hr.foldl_visit _ _
  by_cases hv : A.verdict (m.advance G e) = .ongoing
  · have hm : (m.accept G e).monitor = ⟨m.advance G e, m.memory.record e, progress.timer,
        m.stats.count _ (m.accept G e).firings.length, progress.sink⟩ := if_pos hv
    rw [hm]
    refine ⟨hp, fun _ => ?_⟩
    -- No edge leads back to the initial state, so the monitor has left it.
    have hne : m.advance G e ≠ {A.initial} := by
      intro he
      apply m.initial_not_mem_advance hA e
      rw [he]
      exact IndexSet.mem_singleton.2 rfl
    exact decide_eq_false hne
  · have hm : (m.accept G e).monitor = ⟨{A.initial}, m.memory, none,
        m.stats.count _ (m.accept G e).firings.length, Sink.cancel progress.sink⟩ := if_neg hv
    rw [hm]
    exact Hosted.inStep_of_timer_eq_none rfl rfl

theorem Hosted.InStep.step (hA : ∀ i, ¬ A.initial ∈ (A.state i).out) {s : Hosted A}
    (h : s.InStep) (a : HostStep) : (s.step G a).InStep := by
  cases a with
  | accept e he =>
    apply Monitor.inStep_accept hA
    rw [he]
    exact h.agrees
  | fireTimeout =>
    cases hp : s.monitor.sink.pending with
    | none =>
      have hn : s.monitor.fireTimeout G = none := by simp [Monitor.fireTimeout, Recorder.expire, hp]
      simpa [Hosted.step, hn] using h
    | some p =>
      -- The timer is spent on both sides before the timeout can start another.
      have hs : s.step G .fireTimeout = ⟨({ s.monitor with
          sink := s.monitor.sink.expire.2 }.accept G Event.timeout).monitor, s.handed⟩ := by
        simp [Hosted.step, Monitor.fireTimeout, Recorder.expire, hp]
      rw [hs]
      exact Monitor.inStep_accept hA (Recorder.agrees_of_pending_eq_none rfl)
  | drain => exact ⟨h.agrees.drain, h.underway⟩

theorem Hosted.InStep.run (hA : ∀ i, ¬ A.initial ∈ (A.state i).out) {s : Hosted A}
    (h : s.InStep) (steps : List HostStep) : (s.run G steps).InStep := by
  induction steps generalizing s with
  | nil => exact h
  | cons a steps ih => exact ih (h.step hA a)

end

/-- A recorder that starts with no timer pending keeps the timer of its monitor. -/
theorem timer_agrees_with_recorder (G : Guards) {f : Formula} {sink : Recorder}
    {c : Compiled Recorder} (hc : compile f sink = .ok c) (hs : sink.pending = none)
    (steps : List HostStep) :
    let s := Hosted.run G ⟨c.monitor, []⟩ steps
    s.monitor.timer = s.monitor.sink.pending.map Prod.fst ∧
    ∀ t, s.monitor.timer = some t →
      (lastStarted (s.handed ++ s.monitor.sink.calls)).map Prod.fst = some t ∧
      s.monitor.atInitial = false := by
  intro s
  obtain ⟨_, notes, rfl⟩ := compile_cases hc
  have hpending : (f.subscriptions.foldl Sink.subscribe sink).pending = none := by
    rw [Recorder.pending_subscribe, hs]
  have hrun : s.InStep := (Hosted.inStep_of_timer_eq_none rfl hpending).run
    (Automaton.initial_not_mem_out f _) steps
  refine ⟨hrun.agrees.timer_eq, ?_⟩
  intro t ht
  refine ⟨?_, hrun.underway (by simp [ht])⟩
  obtain ⟨p, hp, rfl⟩ := Option.map_eq_some_iff.1 (hrun.agrees.timer_eq.symm.trans ht)
  rw [hrun.agrees.started p hp]
  rfl

theorem timer_agrees_after_timeout :
    let go : Proposition := ⟨.event "go", none, some (.effect (.startTimer (.ofSeconds 1 0))), none⟩
    let late : Proposition := { Proposition.timeout with trigger := go.trigger }
    let f := (Formula.prop go).and (.next ((Formula.prop late).and (.next (.next (.prop go)))))
    ∃ c, compile f ({} : Recorder) = .ok c ∧
      let s := Hosted.run (fun _ _ => true) ⟨c.monitor, []⟩
        [.accept ⟨"go", none, []⟩ (by decide), .drain, .fireTimeout]
      s.monitor.timer = some ⟨2⟩ ∧ s.monitor.sink.pending.map Prod.fst = some ⟨2⟩ ∧
      (lastStarted (s.handed ++ s.monitor.sink.calls)).map Prod.fst = some ⟨2⟩ ∧
      s.monitor.atInitial = false := by
  intro go late f
  let steps : List HostStep := [.accept ⟨"go", none, []⟩ (by decide), .drain, .fireTimeout]
  have htimer : (match compile f ({} : Recorder) with
      | .ok c => (Hosted.run (fun _ _ => true) ⟨c.monitor, []⟩ steps).monitor.timer
      | .error _ => none) = some ⟨2⟩ := by decide +kernel
  obtain ⟨c, hc⟩ := exists_compile (f := f) (by decide) ({} : Recorder)
  rw [hc] at htimer
  have hh := timer_agrees_with_recorder (fun _ _ => true) hc rfl steps
  exact ⟨c, hc, htimer, hh.1.symm.trans htimer, hh.2 _ htimer⟩

end TemporalMonitor
