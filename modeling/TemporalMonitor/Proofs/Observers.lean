import TemporalMonitor.Proofs.FirstVerdict
import TemporalMonitor.Proofs.Remembering

/-! A sink observes a monitor and does not steer it. All that a monitor takes from its sink is the
timers it hands out, so monitors on sinks that hand out the same timers stay alike. What a recorder
has kept accounts for the statistics: a cancelled timer for each restart, and a request or a callback
for each trigger fired. -/

namespace TemporalMonitor

def Trigger.callback? : Trigger → Option String
  | .callback name => some name
  | .effect _ => none

section

variable {A : Automaton} {σ τ : Type} {G : Guards}

/-- The callbacks run on an event, in order, each with what it is given. -/
def Reaction.invocations (r : Reaction A σ) : List (String × Context) :=
  ((r.firings.map Firing.trigger).filterMap Trigger.callback?).map fun name => (name, r.context)

def Monitor.invocations [Sink σ] (G : Guards) (m : Monitor A σ) : List Event → List (String × Context)
  | [] => []
  | e :: es => (m.accept G e).invocations ++ Monitor.invocations G (m.accept G e).monitor es

/-- Sinks related by `R` hand out the same timers, and are still related after any request. -/
structure Sink.Alike [Sink σ] [Sink τ] (R : σ → τ → Prop) : Prop where
  timer : ∀ {s t}, R s t → ∀ delay, (Sink.schedule s delay).1 = (Sink.schedule t delay).1
  schedule : ∀ {s t}, R s t → ∀ delay, R (Sink.schedule s delay).2 (Sink.schedule t delay).2
  cancel : ∀ {s t}, R s t → R (Sink.cancel s) (Sink.cancel t)
  apply : ∀ {s t}, R s t → ∀ selector action ctx,
    R (Sink.apply s selector action ctx) (Sink.apply t selector action ctx)

structure Monitor.Alike (R : σ → τ → Prop) (m : Monitor A σ) (n : Monitor A τ) : Prop where
  current : m.current = n.current
  memory : m.memory = n.memory
  timer : m.timer = n.timer
  stats : m.stats = n.stats
  sink : R m.sink n.sink

variable [Sink σ] [Sink τ] {R : σ → τ → Prop}

theorem Sink.Alike.foldl_serve (hR : Sink.Alike R) (ctx : Context) (ts : List Trigger)
    {s : σ × Option TimerId} {t : τ × Option TimerId} (hs : R s.1 t.1) (ht : s.2 = t.2) :
    R (ts.foldl (Sink.serve ctx) s).1 (ts.foldl (Sink.serve ctx) t).1 ∧
      (ts.foldl (Sink.serve ctx) s).2 = (ts.foldl (Sink.serve ctx) t).2 := by
  induction ts generalizing s t with
  | nil => exact ⟨hs, ht⟩
  | cons trigger ts ih =>
    cases trigger with
    | callback name => exact ih hs ht
    | effect e =>
      cases e with
      | startTimer delay => exact ih (hR.schedule hs delay) (congrArg some (hR.timer hs delay))
      | apply selector action => exact ih (hR.apply hs selector action ctx) ht

variable {m : Monitor A σ} {n : Monitor A τ}

theorem Monitor.Alike.firings_eq (h : m.Alike R n) (e : Event) :
    (m.accept G e).firings = (n.accept G e).firings := by
  show (A.visits G e (A.candidates m.current)).filterMap Visit.firing? = _
  rw [h.current]
  rfl

theorem Monitor.Alike.invocations_eq (h : m.Alike R n) (e : Event) :
    (m.accept G e).invocations = (n.accept G e).invocations := by
  have hctx : (m.accept G e).context = (n.accept G e).context :=
    congrArg (fun mem => Memory.context mem e) h.memory
  rw [Reaction.invocations, Reaction.invocations, h.firings_eq, hctx]

theorem Monitor.Alike.accept (hR : Sink.Alike R) (h : m.Alike R n) (e : Event) :
    (m.accept G e).monitor.Alike R (n.accept G e).monitor := by
  have hadv : m.advance G e = n.advance G e := by rw [advance, advance, h.current]
  have hopen : m.leftOpen G e = n.leftOpen G e := by
    rw [Bool.eq_iff_iff, leftOpen_iff, leftOpen_iff, hadv]
  let ctx := m.memory.context e
  have hctx : n.memory.context e = ctx := by rw [← h.memory]
  have hserved : R (m.served G e ctx).1 (n.served G e ctx).1 ∧
      (m.served G e ctx).2 = (n.served G e ctx).2 := by
    rw [served, served, h.firings_eq, h.timer]
    exact hR.foldl_serve ctx _ h.sink rfl
  refine ⟨?_, ?_, ?_, ?_, ?_⟩
  · rw [current_accept, current_accept, hadv]
  · rw [memory_accept, memory_accept, hopen, h.memory]
  · rw [timer_accept, timer_accept, hopen, hctx, hserved.2]
  · rw [stats_accept, stats_accept, h.stats, hadv, h.firings_eq]
  · rw [sink_accept, sink_accept, hopen, hctx]
    split
    · exact hserved.1
    · exact hR.cancel hserved.1

theorem Monitor.Alike.feed (hR : Sink.Alike R) (h : m.Alike R n) (es : List Event) :
    (m.feed G es).Alike R (n.feed G es) ∧ m.invocations G es = n.invocations G es := by
  induction es generalizing m n with
  | nil => exact ⟨h, rfl⟩
  | cons e es ih =>
    obtain ⟨hfeed, hinv⟩ := ih (h.accept (G := G) hR e)
    exact ⟨hfeed, by rw [invocations, invocations, h.invocations_eq, hinv]⟩

end

/-- As many timers started on one as on the other. -/
def NullSink.KeepsCount (s : NullSink) (r : Recorder) : Prop :=
  s.scheduled = r.scheduled

theorem NullSink.alike_recorder : Sink.Alike NullSink.KeepsCount where
  timer h _ := congrArg (fun k => TimerId.mk (k + 1)) h
  schedule h _ := congrArg (· + 1) h
  cancel h := h
  apply h _ _ _ := h

theorem NullSink.foldl_subscribe (shapes : List Shape) (s : NullSink) :
    shapes.foldl Sink.subscribe s = s := by
  induction shapes with
  | nil => rfl
  | cons shape shapes ih => exact ih

theorem Monitor.alike_start (A : Automaton) (shapes : List Shape) :
    (Monitor.start A (shapes.foldl Sink.subscribe ({} : NullSink))).Alike NullSink.KeepsCount
      (Monitor.start A (shapes.foldl Sink.subscribe ({} : Recorder))) := by
  rw [NullSink.foldl_subscribe, Recorder.foldl_subscribe]
  exact ⟨rfl, rfl, rfl, rfl, rfl⟩

inductive CallKind
  | subscribe
  | schedule
  | cancel
  | apply
deriving DecidableEq

def Call.kind : Call → CallKind
  | .subscribe _ => .subscribe
  | .schedule _ _ => .schedule
  | .cancel _ => .cancel
  | .apply _ _ _ => .apply

def tally (kind : CallKind) (log : List Call) : Nat :=
  log.countP fun call => call.kind = kind

theorem tally_append (kind : CallKind) (log new : List Call) :
    tally kind (log ++ new) = tally kind log + tally kind new :=
  List.countP_append

theorem tally_map_subscribe {kind : CallKind} (h : kind ≠ .subscribe) (shapes : List Shape) :
    tally kind (shapes.map Call.subscribe) = 0 := by
  apply List.countP_eq_zero.2
  intro call hc
  obtain ⟨shape, _, rfl⟩ := List.mem_map.1 hc
  exact fun hk => h (of_decide_eq_true hk).symm

/-- The requests made by `fired` triggers of which `invoked` were callbacks, and by restarts. -/
structure Accounts (log : List Call) (restarts fired invoked : Nat) : Prop where
  cancels : tally .cancel log = restarts
  requests : tally .schedule log + tally .apply log + invoked = fired
  subscribes : tally .subscribe log = 0

theorem Accounts.append {log log' : List Call} {restarts restarts' fired fired' invoked invoked' : Nat}
    (h : Accounts log restarts fired invoked) (h' : Accounts log' restarts' fired' invoked') :
    Accounts (log ++ log') (restarts + restarts') (fired + fired') (invoked + invoked') := by
  have hcancels := h.cancels
  have hcancels' := h'.cancels
  have hrequests := h.requests
  have hrequests' := h'.requests
  have hsubscribes := h.subscribes
  have hsubscribes' := h'.subscribes
  refine ⟨?_, ?_, ?_⟩
  all_goals
    simp only [tally_append]
    omega

theorem Recorder.exists_serve (ctx : Context) (s : Recorder × Option TimerId) (t : Trigger) :
    ∃ new, (Sink.serve ctx s t).1.calls = s.1.calls ++ new ∧
      Accounts new 0 1 ([t].filterMap Trigger.callback?).length := by
  cases t with
  | callback name => exact ⟨[], (List.append_nil _).symm, rfl, rfl, rfl⟩
  | effect e =>
    cases e with
    | startTimer delay => exact ⟨[_], rfl, rfl, rfl, rfl⟩
    | apply selector action => exact ⟨[_], rfl, rfl, rfl, rfl⟩

theorem Recorder.exists_foldl_serve (ctx : Context) (ts : List Trigger)
    (s : Recorder × Option TimerId) :
    ∃ new, (ts.foldl (Sink.serve ctx) s).1.calls = s.1.calls ++ new ∧
      Accounts new 0 ts.length (ts.filterMap Trigger.callback?).length := by
  induction ts generalizing s with
  | nil => exact ⟨[], (List.append_nil _).symm, rfl, rfl, rfl⟩
  | cons t ts ih =>
    obtain ⟨new, hcalls, hnew⟩ := exists_serve ctx s t
    obtain ⟨rest, hcalls', hrest⟩ := ih (Sink.serve ctx s t)
    refine ⟨new ++ rest, ?_, ?_⟩
    · rw [List.foldl_cons, hcalls', hcalls, List.append_assoc]
    · have hh := hnew.append hrest
      rw [← List.length_append, ← List.filterMap_append, Nat.add_comm 1] at hh
      exact hh

section

variable {A : Automaton} {G : Guards}

theorem Monitor.exists_calls_accept (m : Monitor A Recorder) (e : Event) :
    ∃ new, (m.accept G e).monitor.sink.calls = m.sink.calls ++ new ∧
      Accounts new (if m.leftOpen G e then 0 else 1) (m.accept G e).firings.length
        (m.accept G e).invocations.length := by
  obtain ⟨new, hcalls, hnew⟩ := Recorder.exists_foldl_serve (m.memory.context e)
    ((m.accept G e).firings.map Firing.trigger) (m.sink, if e.isTimeout then none else m.timer)
  have hsink := m.sink_accept (G := G) e
  rw [List.length_map] at hnew
  rw [Reaction.invocations, List.length_map]
  by_cases ho : m.leftOpen G e = true
  · rw [if_pos ho] at hsink ⊢
    exact ⟨new, (congrArg Recorder.calls hsink).trans hcalls, hnew⟩
  · rw [if_neg ho] at hsink ⊢
    let served := (m.served G e (m.memory.context e)).1
    have hcancel : Accounts [.cancel (served.pending.map Prod.fst)] 1 0 0 := ⟨rfl, rfl, rfl⟩
    refine ⟨new ++ [.cancel (served.pending.map Prod.fst)], ?_, ?_⟩
    · rw [hsink, ← List.append_assoc, ← hcalls]
      rfl
    · have hh := hnew.append hcancel
      rwa [Nat.zero_add] at hh

/-- The calls in `log`, those since the subscriptions, account for the statistics. -/
structure Monitor.Balanced (m : Monitor A Recorder) (log : List Call) (invoked : Nat) : Prop where
  accounts : Accounts log (m.stats.accepted + m.stats.rejected) m.stats.triggersFired invoked
  restarts_le : m.stats.accepted + m.stats.rejected ≤ m.stats.events

theorem Monitor.restarts_accept {σ : Type} [Sink σ] (m : Monitor A σ) (e : Event) :
    (m.accept G e).monitor.stats.accepted + (m.accept G e).monitor.stats.rejected =
      m.stats.accepted + m.stats.rejected + if m.leftOpen G e then 0 else 1 := by
  cases hv : A.verdict (m.advance G e) with
  | ongoing =>
    rw [if_pos (leftOpen_iff.2 hv), stats_accept, hv]
    rfl
  | accepted | rejected =>
    have ho : ¬ m.leftOpen G e = true := by simp [leftOpen_iff, hv]
    rw [if_neg ho, stats_accept, hv]
    simp only [Statistics.count, reduceCtorEq, if_true, if_false]
    omega

theorem Monitor.Balanced.accept {m : Monitor A Recorder} {past log : List Call} {invoked : Nat}
    (h : m.Balanced log invoked) (hlog : m.sink.calls = past ++ log) (e : Event) :
    ∃ log', (m.accept G e).monitor.sink.calls = past ++ log' ∧
      (m.accept G e).monitor.Balanced log' (invoked + (m.accept G e).invocations.length) := by
  obtain ⟨new, hcalls, hnew⟩ := m.exists_calls_accept (G := G) e
  refine ⟨log ++ new, ?_, ?_, ?_⟩
  · rw [hcalls, hlog, List.append_assoc]
  · rw [restarts_accept, stats_accept]
    exact h.accounts.append hnew
  · have hle := h.restarts_le
    have hevents : (m.accept G e).monitor.stats.events = m.stats.events + 1 := by
      rw [stats_accept]
      rfl
    rw [restarts_accept, hevents]
    split <;> omega

theorem Monitor.Balanced.feed {m : Monitor A Recorder} {past log : List Call} {invoked : Nat}
    (h : m.Balanced log invoked) (hlog : m.sink.calls = past ++ log) (es : List Event) :
    ∃ log', (m.feed G es).sink.calls = past ++ log' ∧
      (m.feed G es).Balanced log' (invoked + (m.invocations G es).length) := by
  induction es generalizing m log invoked with
  | nil => exact ⟨log, hlog, h⟩
  | cons e es ih =>
    obtain ⟨log', hlog', hbal⟩ := h.accept (G := G) hlog e
    obtain ⟨log'', hlog'', hbal'⟩ := ih hbal hlog'
    rw [Nat.add_assoc, ← List.length_append] at hbal'
    exact ⟨log'', hlog'', hbal'⟩

theorem Monitor.exists_log_feed (A : Automaton) (shapes : List Shape) (es : List Event) :
    let n := Monitor.start A (shapes.foldl Sink.subscribe ({} : Recorder))
    ∃ log, (n.feed G es).sink.calls = shapes.map Call.subscribe ++ log ∧
      (n.feed G es).Balanced log (n.invocations G es).length := by
  intro n
  have hstart : n.Balanced [] 0 := ⟨⟨rfl, rfl, rfl⟩, Nat.le_refl 0⟩
  have hcalls : n.sink.calls = shapes.map Call.subscribe ++ [] := by
    rw [List.append_nil]
    exact congrArg Recorder.calls (Recorder.foldl_subscribe shapes {})
  obtain ⟨log, hlog, hbal⟩ := hstart.feed (G := G) hcalls es
  rw [Nat.zero_add] at hbal
  exact ⟨log, hlog, hbal⟩

theorem Monitor.events_feed {σ : Type} [Sink σ] (m : Monitor A σ) (es : List Event) :
    (m.feed G es).stats.events = m.stats.events + es.length := by
  induction es generalizing m with
  | nil => rfl
  | cons e es ih =>
    have hh := ih (m.accept G e).monitor
    rw [stats_accept] at hh
    simp only [Statistics.count] at hh
    rw [List.length_cons, Nat.add_comm es.length, ← Nat.add_assoc]
    exact hh

end

theorem sink_only_observes (G : Guards) {f : Formula} {c : Compiled NullSink}
    (hc : compile f ({} : NullSink) = .ok c) :
    ∃ (n : Monitor c.automaton Recorder) (notes : List Note),
      compile f ({} : Recorder) = .ok ⟨c.automaton, n, notes⟩ ∧
      ∀ es : List Event,
        let a := c.monitor.feed G es
        let b := n.feed G es
        let log := b.sink.calls
        (a.current = b.current ∧ a.stats = b.stats ∧ a.memory.latest = b.memory.latest ∧
          (∀ s, a.memory.latestOf s = b.memory.latestOf s) ∧ a.timer = b.timer ∧
          c.monitor.invocations G es = n.invocations G es) ∧
        tally .cancel log = b.stats.accepted + b.stats.rejected ∧
        tally .schedule log + tally .apply log + (n.invocations G es).length =
          b.stats.triggersFired ∧
        b.stats.events = es.length ∧ b.stats.accepted + b.stats.rejected ≤ b.stats.events ∧
        ∃ first rest, log = first ++ rest ∧ (∀ call ∈ first, call.kind = .subscribe) ∧
          ∀ call ∈ rest, call.kind ≠ .subscribe := by
  obtain ⟨hw, notes, rfl⟩ := compile_cases hc
  obtain ⟨d, hd⟩ := exists_compile hw ({} : Recorder)
  obtain ⟨_, notes', rfl⟩ := compile_cases hd
  refine ⟨_, notes', hd, ?_⟩
  intro es a b log
  obtain ⟨halike, hinv⟩ := (Monitor.alike_start (.ofTableau f (.build f)) f.subscriptions).feed
    (G := G) NullSink.alike_recorder es
  obtain ⟨rest, hlog, hbal⟩ := Monitor.exists_log_feed (G := G) (.ofTableau f (.build f))
    f.subscriptions es
  have htally : ∀ kind, kind ≠ .subscribe → tally kind log = tally kind rest := by
    intro kind hk
    rw [show log = _ from hlog, tally_append, tally_map_subscribe hk, Nat.zero_add]
  refine ⟨⟨halike.current, halike.stats, congrArg Memory.latest halike.memory,
    fun s => congrArg (Memory.latestOf · s) halike.memory, halike.timer, hinv⟩, ?_, ?_, ?_,
    hbal.restarts_le, _, rest, hlog, ?_, ?_⟩
  · rw [htally .cancel (by decide)]
    exact hbal.accounts.cancels
  · rw [htally .schedule (by decide), htally .apply (by decide)]
    exact hbal.accounts.requests
  · rw [Monitor.events_feed]
    exact Nat.zero_add _
  · intro call hc
    obtain ⟨shape, _, rfl⟩ := List.mem_map.1 hc
    rfl
  · intro call hc hk
    exact List.countP_eq_zero.1 hbal.accounts.subscribes call hc (decide_eq_true hk)

/-- Three triggers up to an acceptance, one more up to a rejection; of the four one is a callback. -/
theorem sink_only_observes_twice :
    let go : Proposition := ⟨.event "go", none, some (.effect (.startTimer (.ofSeconds 1 0))), none⟩
    let tick : Proposition := ⟨.event "tick", none, some (.callback "ring"), none⟩
    let late : Proposition :=
      { Proposition.timeout with trigger := some (.effect (.apply "#a" (.addClass "on"))) }
    let f := (Formula.prop go).and (.next ((Formula.prop tick).and (.next (.prop late))))
    let G : Guards := fun _ _ => true
    let es : List Event :=
      [⟨"go", none, []⟩, ⟨"tick", none, []⟩, Event.timeout, ⟨"go", none, []⟩, ⟨"go", none, []⟩]
    ∃ c, compile f ({} : NullSink) = .ok c ∧ (c.monitor.feed G es).stats = ⟨5, 1, 1, 4⟩ ∧
      ∃ (n : Monitor c.automaton Recorder) (notes : List Note),
        compile f ({} : Recorder) = .ok ⟨c.automaton, n, notes⟩ ∧
        (n.feed G es).stats = ⟨5, 1, 1, 4⟩ ∧ (n.invocations G es).length = 1 ∧
        tally .cancel (n.feed G es).sink.calls = 2 ∧
        tally .schedule (n.feed G es).sink.calls + tally .apply (n.feed G es).sink.calls = 3 := by
  intro go tick late f G es
  have hrun : (match compile f ({} : NullSink) with
      | .ok c => ((c.monitor.feed G es).stats, (c.monitor.invocations G es).length)
      | .error _ => ({}, 0)) = (⟨5, 1, 1, 4⟩, 1) := by decide +kernel
  obtain ⟨c, hc⟩ := exists_compile (f := f) (by decide) ({} : NullSink)
  rw [hc] at hrun
  obtain ⟨hstats, hinvoked⟩ := Prod.ext_iff.1 hrun
  obtain ⟨n, notes, hn, hall⟩ := sink_only_observes G hc
  obtain ⟨⟨_, hsame, _, _, _, hinv⟩, hcancels, hrequests, _⟩ := hall es
  have hstats' : (n.feed G es).stats = ⟨5, 1, 1, 4⟩ := hsame.symm.trans hstats
  have hinvoked' : (n.invocations G es).length = 1 := hinv ▸ hinvoked
  rw [hstats'] at hcancels hrequests
  rw [hinvoked'] at hrequests
  exact ⟨c, hc, hstats, n, notes, hn, hstats', hinvoked', hcancels, Nat.succ.inj hrequests⟩

end TemporalMonitor
