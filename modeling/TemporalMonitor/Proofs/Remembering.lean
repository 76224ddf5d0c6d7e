import TemporalMonitor.Proofs.Sessions

/-! What a monitor remembers, and what it hands to its triggers. An event is remembered when it is
counted neither as accepted nor as rejected; restarts forget nothing. The triggers of an event all see
the event and what was remembered before it, whatever becomes of the event. -/

namespace TemporalMonitor

theorem lookup_filter_ne {s k : Shape} (h : s ≠ k) (l : List (Shape × Event)) :
    (l.filter fun entry => entry.1 ≠ k).lookup s = l.lookup s := by
  induction l with
  | nil => rfl
  | cons entry l ih =>
    obtain ⟨shape, e⟩ := entry
    by_cases hk : shape = k
    · have hs : (s == shape) = false := by simpa [hk] using h
      rw [List.filter_cons_of_neg (by simpa using hk), ih, List.lookup_cons, hs]
    · rw [List.filter_cons_of_pos (by simpa using hk), List.lookup_cons, List.lookup_cons, ih]

theorem Memory.latestOf_record (mem : Memory) (e : Event) (s : Shape) :
    (mem.record e).latestOf s = if e.shape = s then some e else mem.latestOf s := by
  by_cases hs : e.shape = s
  · simp [latestOf, record, hs]
  · have hne : (s == e.shape) = false := by simpa using Ne.symm hs
    rw [if_neg hs, latestOf, record, List.lookup_cons, hne]
    exact lookup_filter_ne (Ne.symm hs) _

/-- The memory holds the latest of these events, and the latest of each shape. -/
structure Memory.Recalls (mem : Memory) (past : List Event) : Prop where
  latest : mem.latest = past.getLast?
  latestOf : ∀ s, mem.latestOf s = (past.filter fun x => x.shape = s).getLast?

theorem Memory.recalls_nil : ({} : Memory).Recalls [] :=
  ⟨rfl, fun _ => rfl⟩

theorem Memory.Recalls.record {mem : Memory} {past : List Event} (h : mem.Recalls past) (e : Event) :
    (mem.record e).Recalls (past ++ [e]) := by
  refine ⟨by simp [Memory.record], ?_⟩
  intro s
  rw [latestOf_record, List.filter_append]
  by_cases hs : e.shape = s
  · simp [hs]
  · simp [hs, h.latestOf s]

section

variable {A : Automaton} {σ : Type} [Sink σ] {G : Guards}

/-- The event is counted neither as accepted nor as rejected. -/
def Monitor.leftOpen (G : Guards) (m : Monitor A σ) (e : Event) : Bool :=
  (m.accept G e).monitor.stats.accepted = m.stats.accepted &&
    (m.accept G e).monitor.stats.rejected = m.stats.rejected

/-- Those of the events that are left open, in order. -/
def Monitor.remembered (G : Guards) (m : Monitor A σ) : List Event → List Event
  | [] => []
  | e :: es =>
    (if m.leftOpen G e then [e] else []) ++ Monitor.remembered G (m.accept G e).monitor es

theorem Monitor.leftOpen_iff {m : Monitor A σ} {e : Event} :
    m.leftOpen G e = true ↔ A.verdict (m.advance G e) = .ongoing := by
  cases hv : A.verdict (m.advance G e) <;>
    simp [leftOpen, stats_accept, Statistics.count, hv]

theorem Monitor.memory_accept (m : Monitor A σ) (e : Event) :
    (m.accept G e).monitor.memory = if m.leftOpen G e then m.memory.record e else m.memory := by
  by_cases hv : A.verdict (m.advance G e) = .ongoing
  · rw [if_pos (leftOpen_iff.2 hv)]
    simp only [accept, if_pos hv]
  · rw [if_neg (mt leftOpen_iff.1 hv)]
    simp only [accept, if_neg hv]

theorem Monitor.recalls_accept {m : Monitor A σ} {past : List Event} (h : m.memory.Recalls past)
    (e : Event) : (m.accept G e).monitor.memory.Recalls
      (past ++ if m.leftOpen G e then [e] else []) := by
  rw [memory_accept]
  split
  · exact h.record e
  · rwa [List.append_nil]

theorem Monitor.recalls_feed {m : Monitor A σ} {past : List Event} (h : m.memory.Recalls past)
    (es : List Event) : (m.feed G es).memory.Recalls (past ++ m.remembered G es) := by
  induction es generalizing m past with
  | nil => rwa [remembered, List.append_nil]
  | cons e es ih =>
    have hh := ih (recalls_accept (G := G) h e)
    rwa [List.append_assoc] at hh

end

/-- A trigger fires: what it does to a sink, and to the timer last started. A callback runs in the
host. -/
def Sink.serve {σ : Type} [Sink σ] (ctx : Context) (s : σ × Option TimerId) :
    Trigger → σ × Option TimerId
  | .callback _ => s
  | .effect (.startTimer delay) =>
    ((Sink.schedule s.1 delay).2, some (Sink.schedule s.1 delay).1)
  | .effect (.apply selector action) => (Sink.apply s.1 selector action ctx, s.2)

section

variable {A : Automaton} {σ : Type} [Sink σ] {G : Guards}

theorem Progress.serve_fire (ctx : Context) (p : Progress σ) (t : Trigger) :
    ((p.fire ctx t).sink, (p.fire ctx t).timer) = Sink.serve ctx (p.sink, p.timer) t := by
  cases t with
  | callback _ => rfl
  | effect e => cases e <;> rfl

theorem Progress.serve_foldl_visit (ctx : Context) (vs : List (Visit A.size)) (p : Progress σ) :
    ((vs.foldl (Progress.visit ctx) p).sink, (vs.foldl (Progress.visit ctx) p).timer) =
      ((vs.filterMap Visit.firing?).map Firing.trigger).foldl (Sink.serve ctx) (p.sink, p.timer) := by
  induction vs generalizing p with
  | nil => rfl
  | cons v vs ih =>
    cases v with
    | mismatch i => exact ih _
    | firing x =>
      have hfire := (p.note (.firing (A.state x.state).name x.proposition)).serve_fire ctx x.trigger
      rw [List.foldl_cons, ih]
      exact congrArg (((vs.filterMap Visit.firing?).map Firing.trigger).foldl (Sink.serve ctx)) hfire

/-- The sink and the timer after the triggers of an event, before any restart. -/
def Monitor.served (G : Guards) (m : Monitor A σ) (e : Event) (ctx : Context) :
    σ × Option TimerId :=
  ((m.accept G e).firings.map Firing.trigger).foldl (Sink.serve ctx)
    (m.sink, if e.isTimeout then none else m.timer)

theorem Monitor.served_accept (m : Monitor A σ) (e : Event) :
    ((m.accept G e).monitor.sink, (m.accept G e).monitor.timer) =
      if m.leftOpen G e then m.served G e (m.memory.context e)
      else (Sink.cancel (m.served G e (m.memory.context e)).1, none) := by
  have hserved := Progress.serve_foldl_visit (m.memory.context e)
    (A.visits G e (A.candidates m.current))
    ⟨m.sink, if e.isTimeout then none else m.timer, [.received e]⟩
  by_cases hv : A.verdict (m.advance G e) = .ongoing
  · rw [if_pos (leftOpen_iff.2 hv)]
    simp only [accept, if_pos hv]
    exact hserved
  · rw [if_neg (mt leftOpen_iff.1 hv)]
    simp only [accept, if_neg hv]
    exact congrArg (fun s => (Sink.cancel s.1, none)) hserved

theorem Monitor.sink_accept (m : Monitor A σ) (e : Event) :
    (m.accept G e).monitor.sink =
      if m.leftOpen G e then (m.served G e (m.memory.context e)).1
      else Sink.cancel (m.served G e (m.memory.context e)).1 :=
  (congrArg Prod.fst (m.served_accept e)).trans (apply_ite Prod.fst _ _ _)

theorem Monitor.timer_accept (m : Monitor A σ) (e : Event) :
    (m.accept G e).monitor.timer =
      if m.leftOpen G e then (m.served G e (m.memory.context e)).2 else none :=
  (congrArg Prod.snd (m.served_accept e)).trans (apply_ite Prod.snd _ _ _)

end

/-- The sink may be of any kind; that it ends as if it had served each trigger in turn with the
context `handed` says that this is the context every trigger was given. -/
theorem memory_of_run {σ : Type} [Sink σ] (G : Guards) (A : Automaton) (sink : σ) (es : List Event)
    (e : Event) :
    let start := Monitor.start A sink
    let past := start.remembered G es
    let m := start.feed G es
    let r := m.accept G e
    let handed : Context := ⟨e, (m.memory.latestOf e.shape).getD e, m.memory.latest.getD e⟩
    m.memory.latest = past.getLast? ∧
    (∀ s, m.memory.latestOf s = (past.filter fun x => x.shape = s).getLast?) ∧
    r.context = handed ∧
    r.monitor.sink =
      if m.leftOpen G e then (m.served G e handed).1 else Sink.cancel (m.served G e handed).1 := by
  intro start past m r handed
  have hrecalls : m.memory.Recalls past :=
    Monitor.recalls_feed (G := G) (m := start) Memory.recalls_nil es
  exact ⟨hrecalls.latest, hrecalls.latestOf, rfl, m.sink_accept e⟩

end TemporalMonitor
