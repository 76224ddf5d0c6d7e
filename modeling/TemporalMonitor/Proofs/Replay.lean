import TemporalMonitor.Proofs.FirstVerdict

/-! A monitor that has started over against a fresh one. What survives a restart (the memory, the
statistics, the calls recorded and the number of timers started) plays no part in what comes after:
fed alike, the two stand in the same states, give the same verdicts and fire the same triggers, and
their recorders keep the same calls, up to the numbers of timers and to how far the pointer moved. -/

namespace TemporalMonitor

def TimerId.shift (k : Nat) (t : TimerId) : TimerId :=
  ⟨t.number + k⟩

/-- The call with its timer numbered as if `k` timers had been started before. How far the pointer
moved is left out. -/
def Call.shift (k : Nat) : Call → Call
  | .subscribe shape => .subscribe shape
  | .schedule timer delay => .schedule (timer.shift k) delay
  | .cancel timer => .cancel (timer.map (TimerId.shift k))
  | .apply selector action _ => .apply selector action none

/-- `r` is `k` timers ahead of `r₀`, and both have recorded the same since `past` and `past₀`. -/
structure Recorder.Repeats (k : Nat) (past past₀ : List Call) (r r₀ : Recorder) : Prop where
  pending : r.pending = r₀.pending.map fun p => (p.1.shift k, p.2)
  scheduled : r.scheduled = r₀.scheduled + k
  calls : ∃ new new₀, r.calls = past ++ new ∧ r₀.calls = past₀ ++ new₀ ∧
    new.map (Call.shift 0) = new₀.map (Call.shift k)

section

variable {k : Nat} {past past₀ : List Call} {r r₀ : Recorder}

theorem Recorder.Repeats.rebase (h : r.Repeats k past past₀ r₀) :
    r.Repeats k r.calls r₀.calls r₀ :=
  ⟨h.pending, h.scheduled, [], [], by simp, by simp, rfl⟩

theorem Recorder.Repeats.record (h : r.Repeats k past past₀ r₀) {call call₀ : Call}
    (hc : call.shift 0 = call₀.shift k) :
    (r.record call).Repeats k past past₀ (r₀.record call₀) := by
  obtain ⟨new, new₀, hr, hr₀, hnew⟩ := h.calls
  refine ⟨h.pending, h.scheduled, new ++ [call], new₀ ++ [call₀], ?_, ?_, ?_⟩
  · rw [Recorder.record, hr, List.append_assoc]
  · rw [Recorder.record, hr₀, List.append_assoc]
  · simp [hnew, hc]

theorem Recorder.Repeats.expire (h : r.Repeats k past past₀ r₀) :
    r.expire.2.Repeats k past past₀ r₀.expire.2 :=
  ⟨rfl, h.scheduled, h.calls⟩

theorem Recorder.Repeats.schedule (h : r.Repeats k past past₀ r₀) (delay : Duration) :
    (Sink.schedule r delay).1 = (Sink.schedule r₀ delay).1.shift k ∧
      (Sink.schedule r delay).2.Repeats k past past₀ (Sink.schedule r₀ delay).2 := by
  let timer : TimerId := ⟨r.scheduled + 1⟩
  let timer₀ : TimerId := ⟨r₀.scheduled + 1⟩
  have hn : r.scheduled + 1 = r₀.scheduled + 1 + k := by
    have hs := h.scheduled
    omega
  have ht : timer = timer₀.shift k := congrArg TimerId.mk hn
  have hpending : some (timer, delay) =
      (some (timer₀, delay)).map fun p => (p.1.shift k, p.2) := by
    rw [ht]
    rfl
  have hs : Recorder.Repeats k past past₀ ⟨r.calls, some (timer, delay), r.scheduled + 1⟩
      ⟨r₀.calls, some (timer₀, delay), r₀.scheduled + 1⟩ := ⟨hpending, hn, h.calls⟩
  have hcall : (Call.schedule timer delay).shift 0 = (Call.schedule timer₀ delay).shift k := by
    rw [ht]
    rfl
  exact ⟨ht, hs.record hcall⟩

theorem Recorder.Repeats.cancel (h : r.Repeats k past past₀ r₀) :
    Recorder.Repeats k past past₀ (Sink.cancel r) (Sink.cancel r₀) := by
  have hs : Recorder.Repeats k past past₀ { r with pending := none } { r₀ with pending := none } :=
    ⟨rfl, h.scheduled, h.calls⟩
  have hcall : (Call.cancel (r.pending.map Prod.fst)).shift 0 =
      (Call.cancel (r₀.pending.map Prod.fst)).shift k := by
    rw [h.pending]
    cases r₀.pending <;> rfl
  exact hs.record hcall

end

def Progress.Repeats (k : Nat) (past past₀ : List Call) (p p₀ : Progress Recorder) : Prop :=
  p.timer = p₀.timer.map (TimerId.shift k) ∧ p.sink.Repeats k past past₀ p₀.sink

structure Monitor.Repeats {A : Automaton} (k : Nat) (past past₀ : List Call)
    (m m₀ : Monitor A Recorder) : Prop where
  current : m.current = m₀.current
  timer : m.timer = m₀.timer.map (TimerId.shift k)
  sink : m.sink.Repeats k past past₀ m₀.sink

section

variable {A : Automaton} {G : Guards} {k : Nat} {past past₀ : List Call}

theorem Progress.Repeats.fire {p p₀ : Progress Recorder} (h : p.Repeats k past past₀ p₀)
    (ctx ctx₀ : Context) (t : Trigger) : (p.fire ctx t).Repeats k past past₀ (p₀.fire ctx₀ t) := by
  cases t with
  | callback _ => exact h
  | effect e =>
    cases e with
    | startTimer delay =>
      obtain ⟨ht, hs⟩ := h.2.schedule delay
      exact ⟨congrArg some ht, hs⟩
    | apply selector action => exact ⟨h.1, h.2.record rfl⟩

theorem Progress.Repeats.visit {p p₀ : Progress Recorder} (h : p.Repeats k past past₀ p₀)
    (ctx ctx₀ : Context) (v : Visit A.size) :
    (p.visit ctx v).Repeats k past past₀ (p₀.visit ctx₀ v) := by
  cases v with
  | mismatch _ => exact h
  | firing x =>
    have hn : (p.note (.firing (A.state x.state).name x.proposition)).Repeats k past past₀
        (p₀.note (.firing (A.state x.state).name x.proposition)) := h
    exact hn.fire ctx ctx₀ x.trigger

theorem Progress.Repeats.foldl_visit {p p₀ : Progress Recorder} (h : p.Repeats k past past₀ p₀)
    (ctx ctx₀ : Context) (vs : List (Visit A.size)) :
    (vs.foldl (Progress.visit ctx) p).Repeats k past past₀ (vs.foldl (Progress.visit ctx₀) p₀) := by
  induction vs generalizing p p₀ with
  | nil => exact h
  | cons v vs ih => exact ih (h.visit ctx ctx₀ v)

variable {m m₀ : Monitor A Recorder}

theorem Monitor.Repeats.accept (h : m.Repeats k past past₀ m₀) (e : Event) :
    (m.accept G e).monitor.Repeats k past past₀ (m₀.accept G e).monitor ∧
      (m.accept G e).verdict = (m₀.accept G e).verdict ∧
      (m.accept G e).firings = (m₀.accept G e).firings := by
  let visits := A.visits G e (A.candidates m.current)
  have hvisits : visits = A.visits G e (A.candidates m₀.current) := by rw [← h.current]
  have hadv : m.advance G e = m₀.advance G e := by rw [advance, advance, h.current]
  have hstart : Progress.Repeats k past past₀
      ⟨m.sink, if e.isTimeout then none else m.timer, [.received e]⟩
      ⟨m₀.sink, if e.isTimeout then none else m₀.timer, [.received e]⟩ := by
    refine ⟨?_, h.sink⟩
    by_cases ht : e.isTimeout = true
    · simp [ht]
    · simp [ht, h.timer]
  have hend := hstart.foldl_visit (A := A) (m.memory.context e) (m₀.memory.context e) visits
  refine ⟨?_, congrArg A.verdict hadv, congrArg (List.filterMap Visit.firing?) hvisits⟩
  simp only [Monitor.accept, ← hadv, ← hvisits]
  by_cases hv : A.verdict (m.advance G e) = .ongoing
  · rw [if_pos hv, if_pos hv]
    exact ⟨rfl, hend.1, hend.2⟩
  · rw [if_neg hv, if_neg hv]
    exact ⟨rfl, rfl, hend.2.cancel⟩

end

/-- What a host gives a monitor: an event, or the word that the pending timer has expired. -/
inductive Stimulus
  | event (e : Event)
  | expiry

section

variable {A : Automaton} {G : Guards}

/-- How the monitor takes the stimulus; it does nothing when no timer is there to expire. -/
def Monitor.react (G : Guards) (m : Monitor A Recorder) : Stimulus → Option (Reaction A Recorder)
  | .event e => some (m.accept G e)
  | .expiry => m.fireTimeout G

def Monitor.after (G : Guards) (m : Monitor A Recorder) (a : Stimulus) : Monitor A Recorder :=
  ((m.react G a).map Reaction.monitor).getD m

def Monitor.run (G : Guards) (m : Monitor A Recorder) (as : List Stimulus) : Monitor A Recorder :=
  as.foldl (Monitor.after G) m

theorem Monitor.fireTimeout_eq (m : Monitor A Recorder) :
    (m.sink.pending = none ∧ m.fireTimeout G = none) ∨
    ∃ p notes, m.sink.pending = some p ∧ m.fireTimeout G = some
      { Monitor.accept G { m with sink := m.sink.expire.2 } Event.timeout with notes := notes } := by
  cases hp : m.sink.pending with
  | none => exact .inl ⟨rfl, by simp [fireTimeout, Recorder.expire, hp]⟩
  | some p => exact .inr ⟨p, _, rfl, by simp [fireTimeout, Recorder.expire, hp]; rfl⟩

variable {k : Nat} {past past₀ : List Call} {m m₀ : Monitor A Recorder}

theorem Monitor.Repeats.react (h : m.Repeats k past past₀ m₀) (a : Stimulus) :
    (m.after G a).Repeats k past past₀ (m₀.after G a) ∧
      (m.react G a).map Reaction.verdict = (m₀.react G a).map Reaction.verdict ∧
      (m.react G a).map Reaction.firings = (m₀.react G a).map Reaction.firings := by
  cases a with
  | event e =>
    obtain ⟨hm, hv, hf⟩ := h.accept (G := G) e
    exact ⟨hm, congrArg some hv, congrArg some hf⟩
  | expiry =>
    have hpending := h.sink.pending
    rcases m₀.fireTimeout_eq (G := G) with ⟨hp₀, hn₀⟩ | ⟨p₀, notes₀, hp₀, hs₀⟩
    · rcases m.fireTimeout_eq (G := G) with ⟨_, hn⟩ | ⟨p, _, hp, _⟩
      · rw [Monitor.after, Monitor.after, Monitor.react, Monitor.react, hn, hn₀]
        exact ⟨h, rfl, rfl⟩
      · simp [hp₀, hp] at hpending
    · rcases m.fireTimeout_eq (G := G) with ⟨hp, _⟩ | ⟨p, notes, hp, hs⟩
      · simp [hp₀, hp] at hpending
      · -- Both timers expire, and both monitors accept the same timeout.
        have hexp : Monitor.Repeats k past past₀ { m with sink := m.sink.expire.2 }
            { m₀ with sink := m₀.sink.expire.2 } := ⟨h.current, h.timer, h.sink.expire⟩
        obtain ⟨hm, hv, hf⟩ := hexp.accept (G := G) Event.timeout
        rw [Monitor.after, Monitor.after, Monitor.react, Monitor.react, hs, hs₀]
        exact ⟨hm, congrArg some hv, congrArg some hf⟩

theorem Monitor.Repeats.run (h : m.Repeats k past past₀ m₀) (as : List Stimulus) :
    (m.run G as).Repeats k past past₀ (m₀.run G as) := by
  induction as generalizing m m₀ with
  | nil => exact h
  | cons a as ih => exact ih (h.react a).1

theorem Monitor.repeats_of_restarted {e : Event} (hv : A.verdict (m.advance G e) ≠ .ongoing)
    (m₀ : Monitor A Recorder) (hc : m₀.current = {A.initial}) (ht : m₀.timer = none)
    (hp : m₀.sink.pending = none) (hs : m₀.sink.scheduled = 0) :
    (m.accept G e).monitor.Repeats (m.accept G e).monitor.sink.scheduled
      (m.accept G e).monitor.sink.calls m₀.sink.calls m₀ := by
  have hcur : (m.accept G e).monitor.current = {A.initial} := by rw [current_accept, if_neg hv]
  have htimer : (m.accept G e).monitor.timer = none := by simp only [accept, if_neg hv]
  have hpending : (m.accept G e).monitor.sink.pending = none := by
    simp only [accept, if_neg hv]
    rfl
  refine ⟨hcur.trans hc.symm, ?_, ?_, ?_, [], [], ?_, ?_, rfl⟩
  · rw [htimer, ht]
    rfl
  · rw [hpending, hp]
    rfl
  · rw [hs, Nat.zero_add]
  · simp
  · simp

theorem Monitor.exists_accept_of_react {a : Stimulus} {r : Reaction A Recorder}
    (h : m.react G a = some r) :
    ∃ (m' : Monitor A Recorder) (e : Event), m'.stats = m.stats ∧
      r.monitor = (m'.accept G e).monitor := by
  cases a with
  | event e =>
    obtain rfl := Option.some.inj h
    exact ⟨m, e, rfl, rfl⟩
  | expiry =>
    rcases m.fireTimeout_eq (G := G) with ⟨_, hn⟩ | ⟨_, _, _, hs⟩
    · rw [react, hn] at h
      cases h
    · rw [react, hs] at h
      obtain rfl := Option.some.inj h
      exact ⟨{ m with sink := m.sink.expire.2 }, Event.timeout, rfl, rfl⟩

end

/-- `m` may be in any state, whatever it was fed with; `r` is what it does when it starts over. -/
theorem replay_equals_fresh_run (G : Guards) {f : Formula} {c : Compiled Recorder}
    (hc : compile f ({} : Recorder) = .ok c) {m : Monitor c.automaton Recorder} {b : Stimulus}
    {r : Reaction c.automaton Recorder} (hr : m.react G b = some r)
    (hv : r.monitor.stats.accepted = m.stats.accepted + 1 ∨
      r.monitor.stats.rejected = m.stats.rejected + 1)
    (steps : List Stimulus) (a : Stimulus) :
    let before := r.monitor.run G steps
    let fresh := c.monitor.run G steps
    (before.after G a).current = (fresh.after G a).current ∧
    (before.react G a).map Reaction.verdict = (fresh.react G a).map Reaction.verdict ∧
    (before.react G a).map Reaction.firings = (fresh.react G a).map Reaction.firings ∧
    ∃ new new₀, (before.after G a).sink.calls = before.sink.calls ++ new ∧
      (fresh.after G a).sink.calls = fresh.sink.calls ++ new₀ ∧
      new.map (Call.shift 0) = new₀.map (Call.shift r.monitor.sink.scheduled) := by
  intro before fresh
  obtain ⟨m', e, hstats, hm⟩ := Monitor.exists_accept_of_react hr
  have hverdict : c.automaton.verdict (m'.advance G e) ≠ .ongoing := by
    rw [hm, ← hstats, Monitor.accepted_accept, Monitor.rejected_accept] at hv
    rcases hv with hv | hv <;> simp [hv]
  obtain ⟨_, notes, rfl⟩ := compile_cases hc
  have hsink := Recorder.foldl_subscribe f.subscriptions {}
  have hstart := Monitor.repeats_of_restarted (G := G) hverdict (.start _ _) rfl rfl
    (congrArg Recorder.pending hsink) (congrArg Recorder.scheduled hsink)
  rw [← hm] at hstart
  have hrun := hstart.run (G := G) steps
  have hnow : before.Repeats r.monitor.sink.scheduled before.sink.calls fresh.sink.calls fresh :=
    ⟨hrun.current, hrun.timer, hrun.sink.rebase⟩
  obtain ⟨hafter, hverdicts, hfirings⟩ := hnow.react (G := G) a
  exact ⟨hafter.current, hverdicts, hfirings, hafter.sink.calls⟩

/-- A timer is started and the next event is rejected; then a timer is started again and expires. -/
theorem replay_equals_fresh_run_timeout :
    let go : Proposition := ⟨.event "go", none, some (.effect (.startTimer (.ofSeconds 1 0))), none⟩
    let late : Proposition :=
      { Proposition.timeout with trigger := some (.effect (.apply "#a" (.addClass "on"))) }
    let f := (Formula.prop go).and (.next (.prop late))
    let G : Guards := fun _ _ => true
    ∃ c, compile f ({} : Recorder) = .ok c ∧
      let m := c.monitor.after G (.event ⟨"go", none, []⟩)
      let r := m.accept G ⟨"go", none, []⟩
      m.react G (.event ⟨"go", none, []⟩) = some r ∧
      r.monitor.stats.rejected = m.stats.rejected + 1 ∧ r.monitor.sink.scheduled = 1 ∧
      let before := r.monitor.run G [.event ⟨"go", none, []⟩]
      let fresh := c.monitor.run G [.event ⟨"go", none, []⟩]
      (fresh.react G .expiry).map Reaction.verdict = some .accepted ∧
      (before.react G .expiry).map Reaction.verdict = some .accepted ∧
      ∃ new new₀, (before.after G .expiry).sink.calls = before.sink.calls ++ new ∧
        (fresh.after G .expiry).sink.calls = fresh.sink.calls ++ new₀ ∧
        new.map (Call.shift 0) = new₀.map (Call.shift 1) := by
  intro go late f G
  let played (c : Compiled Recorder) : Nat × Nat × Nat × Option Verdict :=
    let m := c.monitor.after G (.event ⟨"go", none, []⟩)
    let r := m.accept G ⟨"go", none, []⟩
    (m.stats.rejected, r.monitor.stats.rejected, r.monitor.sink.scheduled,
      ((c.monitor.run G [.event ⟨"go", none, []⟩]).react G .expiry).map Reaction.verdict)
  have hrun : (match compile f ({} : Recorder) with
      | .ok c => played c
      | .error _ => (0, 0, 0, none)) = (0, 1, 1, some .accepted) := by decide +kernel
  obtain ⟨c, hc⟩ := exists_compile (f := f) (by decide) ({} : Recorder)
  rw [hc] at hrun
  simp only [played, Prod.mk.injEq] at hrun
  obtain ⟨h0, h1, hk, hfresh⟩ := hrun
  have hv := h1.trans (congrArg (· + 1) h0).symm
  have hh := replay_equals_fresh_run G hc (b := .event ⟨"go", none, []⟩) rfl (.inr hv)
    [.event ⟨"go", none, []⟩] .expiry
  refine ⟨c, hc, rfl, hv, hk, hfresh, hh.2.1.trans hfresh, ?_⟩
  have hcalls := hh.2.2.2
  rw [hk] at hcalls
  exact hcalls

end TemporalMonitor
