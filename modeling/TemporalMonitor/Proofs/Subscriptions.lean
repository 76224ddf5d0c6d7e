import TemporalMonitor.Proofs.Firings

/-! What a monitor subscribes to, and what it cannot tell apart. The subscriptions are the shapes of
the propositions of the formula as written, constants and timeouts left out. Every literal of a state
is one of these propositions, so an event that no subscription takes in and that is no timeout makes
each literal as true as a constant: it fires nothing, and all such events do the same. -/

namespace TemporalMonitor

theorem filterMap_subscription_cons {known : List Shape} {p : Proposition} {ps : List Proposition}
    {new : Option Shape} (h : (p.hostShape.filter fun s => !known.contains s) = new) :
    (bindings known (p :: ps)).filterMap Binding.subscription =
      new.toList ++ (bindings (known ++ new.toList) ps).filterMap Binding.subscription := by
  rw [bindings, h]
  cases new <;> rfl

theorem filterMap_subscription_bindings (known : List Shape) (ps : List Proposition) :
    (bindings known ps).filterMap Binding.subscription =
      ((ps.filterMap Proposition.hostShape).filter fun s => !known.contains s).eraseDups := by
  induction ps generalizing known with
  | nil => rfl
  | cons p ps ih =>
    cases hp : p.hostShape with
    | none =>
      have hnew : (p.hostShape.filter fun s => !known.contains s) = none := by simp [hp]
      rw [filterMap_subscription_cons hnew, ih, List.filterMap_cons_none hp]
      simp
    | some shape =>
      rw [List.filterMap_cons_some hp]
      by_cases hk : shape ∈ known
      · have hdrop : ¬ (!known.contains shape) = true := by simp [hk]
        have hnew : (p.hostShape.filter fun s => !known.contains s) = none := by simp [hp, hk]
        rw [filterMap_subscription_cons hnew, ih, List.filter_cons, if_neg hdrop]
        simp
      · have hkeep : (!known.contains shape) = true := by simp [hk]
        have hsame : ∀ s, (!(known ++ [shape]).contains s) = (!s == shape && !known.contains s) := by
          intro s
          by_cases hs : s = shape <;> simp [hs]
        have hnew : (p.hostShape.filter fun s => !known.contains s) = some shape := by
          simp [hp, hk]
        rw [filterMap_subscription_cons hnew, ih, List.filter_cons, if_pos hkeep,
          List.eraseDups_cons, List.filter_filter]
        simp only [Option.toList, hsame, List.cons_append, List.nil_append]

/-- The distinct shapes of the propositions, other than constants and plain timeouts, in the order of
their first appearance. -/
def Formula.hostShapes (f : Formula) : List Shape :=
  (((f.propositions.filter fun p => !p.isConstant).map Proposition.shape).filter
    fun s => s ≠ Event.timeout.shape).eraseDups

theorem filterMap_hostShape (ps : List Proposition) : ps.filterMap Proposition.hostShape =
    ((ps.filter fun p => !p.isConstant).map Proposition.shape).filter
      fun s => s ≠ Event.timeout.shape := by
  induction ps with
  | nil => rfl
  | cons p ps ih =>
    by_cases hc : p.isConstant = true
    · simp [Proposition.hostShape, hc, ih]
    · by_cases ht : p.shape = Event.timeout.shape
      · simp [Proposition.hostShape, hc, ht, ih]
      · simp [Proposition.hostShape, hc, ht, ih]

theorem Formula.subscriptions_eq (f : Formula) : f.subscriptions = f.hostShapes := by
  rw [subscriptions, Formula.bindings, filterMap_subscription_bindings, filterMap_hostShape]
  simp [hostShapes]

theorem nodup_eraseDups {α : Type} [BEq α] [LawfulBEq α] (l : List α) : l.eraseDups.Nodup := by
  match l with
  | [] => simp
  | a :: l =>
    have hlt : (l.filter fun b => !b == a).length < l.length + 1 :=
      Nat.lt_succ_of_le (List.length_filter_le _ _)
    rw [List.eraseDups_cons, List.nodup_cons]
    refine ⟨?_, nodup_eraseDups _⟩
    simp [List.mem_eraseDups]
termination_by l.length

/-- A subscription to the shape takes in the event; a shape without a selector takes in any. -/
def Shape.covers (s : Shape) (e : Event) : Bool :=
  e.name = s.name && s.selector.all fun selector => e.selector = some selector

/-- The formula has subscribed to nothing that takes in the event, and the event is no timeout. -/
def Formula.Foreign (f : Formula) (e : Event) : Prop :=
  e.name ≠ Event.timeout.name ∧ ∀ s ∈ f.hostShapes, s.covers e = false

theorem Proposition.holds_eq_isTrue {f : Formula} {e : Event} (h : f.Foreign e) {p : Proposition}
    (hp : p ∈ f.propositions) (G : Guards) : p.holds G e = p.isTrue := by
  cases hs : p.subject with
  | truth => simp [holds, isTrue, hs]
  | falsity => simp [holds, isTrue, hs]
  | event name =>
    have ht : p.isTrue = false := by simp [isTrue, hs]
    have hconst : p.isConstant = false := by simp [isConstant, isTrue, isFalse, hs]
    rw [ht]
    apply Bool.eq_false_iff.2
    intro hh
    simp only [holds, hs, Bool.and_eq_true, decide_eq_true_eq] at hh
    obtain ⟨⟨hname, hsel⟩, _⟩ := hh
    have hpname : p.name = name := by rw [Proposition.name, hs, Subject.name]
    have hshape : p.shape ≠ Event.timeout.shape := by
      intro he
      have hpt : p.name = Event.timeout.name := congrArg Shape.name he
      exact h.1 (hname.trans (hpname.symm.trans hpt))
    have hmem : p.shape ∈ f.hostShapes := by
      apply List.mem_eraseDups.2
      refine List.mem_filter.2 ⟨List.mem_map_of_mem (List.mem_filter.2 ⟨hp, ?_⟩), ?_⟩
      · rw [hconst]
        rfl
      · exact decide_eq_true hshape
    have hcov : p.shape.covers e = true := by
      simp only [Shape.covers, shape, hpname, hname, decide_true, Bool.true_and]
      exact hsel
    exact absurd hcov (by simp [h.2 _ hmem])

section

variable {f : Formula}

theorem Tableau.mem_propositions_of_expr {u : Fin (Tableau.build f).arena.size} {p : Proposition}
    (h : (Tableau.build f).arena.expr u = .prop p) : p ∈ f.propositions := by
  have hform : (Tableau.build f).arena.formula u = .prop p := by
    rw [Arena.formula_eq, h]
    rfl
  have hsub : .prop p ∈ f.nnf.subformulas := hform ▸ Arena.formula_mem_subformulas f.nnf u
  rw [← f.propositions_nnf_negNnf.1]
  exact Formula.mem_propositions_of_mem_subformulas hsub

variable {i : Fin (Tableau.build f).size} {G : Guards} {e : Event}

/-- An event that is foreign to the formula enters the states that ask for nothing and do not exclude
the true constant. -/
theorem Automaton.satisfiedBy_of_foreign (h : f.Foreign e) :
    ((ofTableau f (.build f)).state i).satisfiedBy G e = true ↔
      ((ofTableau f (.build f)).state i).propositions = [] ∧
        ∀ p ∈ ((ofTableau f (.build f)).state i).negated, p.isTrue = false := by
  have hneg : ∀ p ∈ (Tableau.build f).negated i, p.holds G e = p.isTrue := by
    intro p hp
    obtain ⟨u, _, a, _, ha⟩ := Tableau.mem_negated_iff.1 hp
    exact p.holds_eq_isTrue h (Tableau.mem_propositions_of_expr ha) G
  have hpos : ∀ p ∈ (Tableau.build f).propositions i, p.holds G e = false := by
    intro p hp
    obtain ⟨ht, u, _, hu⟩ := Tableau.mem_propositions_iff.1 hp
    rw [p.holds_eq_isTrue h (Tableau.mem_propositions_of_expr hu) G, ht]
  rw [State.satisfiedBy, negated_ofTableau, propositions_ofTableau, Bool.and_eq_true, and_comm]
  refine and_congr ?_ ?_
  · rw [List.all_eq_true, List.eq_nil_iff_forall_not_mem]
    constructor
    · intro hall p hp
      have hh := hall p hp
      rw [hpos p hp] at hh
      cases hh
    · intro hnil p hp
      exact absurd hp (hnil p)
  · rw [Bool.not_eq_true', List.any_eq_false]
    constructor
    · intro hall p hp
      rw [← hneg p hp]
      exact Bool.eq_false_iff.2 (hall p hp)
    · intro hall p hp
      rw [hneg p hp, hall p hp]
      exact Bool.false_ne_true

end

section

variable {A : Automaton} {σ : Type} [Sink σ] {G : Guards}

theorem Progress.foldl_visit_of_silent {vs : List (Visit A.size)}
    (h : vs.filterMap Visit.firing? = []) (ctx : Context) (p : Progress σ) :
    (vs.foldl (Progress.visit ctx) p).sink = p.sink ∧
      (vs.foldl (Progress.visit ctx) p).timer = p.timer := by
  induction vs generalizing p with
  | nil => exact ⟨rfl, rfl⟩
  | cons v vs ih =>
    cases v with
    | mismatch i => exact ih h _
    | firing x => simp [Visit.firing?] at h

theorem Monitor.accept_of_silent {m : Monitor A σ} {e : Event} (h : (m.accept G e).firings = []) :
    (m.accept G e).monitor.sink =
        (if A.verdict (m.advance G e) = .ongoing then m.sink else Sink.cancel m.sink) ∧
      (m.accept G e).monitor.timer = (if A.verdict (m.advance G e) = .ongoing then
        if e.isTimeout then none else m.timer else none) := by
  have hp := Progress.foldl_visit_of_silent h (m.memory.context e)
    ⟨m.sink, if e.isTimeout then none else m.timer, [.received e]⟩
  simp only [accept]
  split
  · exact hp
  · exact ⟨congrArg Sink.cancel hp.1, rfl⟩

end

section

variable {f : Formula} {σ : Type} {G : Guards} {e e' : Event}
  {m : Monitor (.ofTableau f (.build f)) σ}

theorem Monitor.entered_of_foreign (h : f.Foreign e) (h' : f.Foreign e') :
    m.entered G e = m.entered G e' := by
  apply IndexSet.ext
  intro i
  have hi := Automaton.satisfiedBy_of_foreign (i := i) (G := G) h
  have hi' := Automaton.satisfiedBy_of_foreign (i := i) (G := G) h'
  rw [entered, entered, Automaton.matching, Automaton.matching, IndexSet.mem_filter,
    IndexSet.mem_filter]
  exact and_congr_right fun _ => hi.trans hi'.symm

theorem Monitor.firings_of_foreign [Sink σ] (h : f.Foreign e) : (m.accept G e).firings = [] := by
  rw [List.eq_nil_iff_forall_not_mem]
  intro x hx
  obtain ⟨hent, hprop, _⟩ := mem_firings_accept.1 hx
  have hs := (IndexSet.mem_filter.1 hent).2
  rw [((Automaton.satisfiedBy_of_foreign h).1 hs).1] at hprop
  cases hprop

end

/-- What a formula subscribes to, and that events outside it and other than timeouts cannot be told
apart: none of them fires a trigger, and each takes a monitor in any state to the same one. -/
theorem subscriptions_complete (G : Guards) {f : Formula} {sink : Recorder} {c : Compiled Recorder}
    (hc : compile f sink = .ok c) :
    c.monitor.sink.calls = sink.calls ++ f.hostShapes.map Call.subscribe ∧ f.hostShapes.Nodup ∧
    ∀ (m : Monitor c.automaton Recorder) (e : Event), f.Foreign e →
      (m.accept G e).firings = [] ∧
      ∀ e', f.Foreign e' →
        (m.accept G e).monitor.current = (m.accept G e').monitor.current ∧
        (m.accept G e).monitor.stats = (m.accept G e').monitor.stats ∧
        (m.accept G e).monitor.timer = (m.accept G e').monitor.timer ∧
        (m.accept G e).monitor.sink.calls = (m.accept G e').monitor.sink.calls := by
  obtain ⟨_, notes, rfl⟩ := compile_cases hc
  refine ⟨?_, nodup_eraseDups _, ?_⟩
  · rw [← f.subscriptions_eq]
    exact congrArg Recorder.calls (Recorder.foldl_subscribe f.subscriptions sink)
  intro m e he
  have hfire : (m.accept G e).firings = [] := Monitor.firings_of_foreign he
  refine ⟨hfire, ?_⟩
  intro e' he'
  have hfire' : (m.accept G e').firings = [] := Monitor.firings_of_foreign he'
  have hadv : m.advance G e = m.advance G e' :=
    congrArg (Automaton.narrow _) (Monitor.entered_of_foreign he he')
  have htimeout : ∀ x, f.Foreign x → x.isTimeout = false := by
    intro x hx
    apply decide_eq_false
    intro hs
    exact hx.1 (congrArg Shape.name hs)
  obtain ⟨hsink, htimer⟩ := Monitor.accept_of_silent hfire
  obtain ⟨hsink', htimer'⟩ := Monitor.accept_of_silent hfire'
  refine ⟨?_, ?_, ?_, ?_⟩
  · rw [Monitor.current_accept, Monitor.current_accept, hadv]
  · rw [Monitor.stats_accept, Monitor.stats_accept, hfire, hfire', hadv]
  · rw [htimer, htimer', htimeout e he, htimeout e' he', hadv]
  · rw [hsink, hsink', hadv]

theorem subscriptions_complete_hover :
    let enter : Proposition :=
      ⟨.event "enter", some "#target", some (.effect (.startTimer (.ofSeconds 1 0))), none⟩
    let late : Proposition := { Proposition.timeout with trigger := some (.callback "ring") }
    let f := (Formula.prop enter).and (.next (.eventually
      ((Formula.prop late).or (.prop { enter with trigger := none }))))
    let G : Guards := fun _ _ => true
    let move : Event := ⟨"move", some "#target", []⟩
    let away : Event := ⟨"enter", some "#other", []⟩
    f.Foreign move ∧ f.Foreign away ∧
    ∃ c, compile f ({} : Recorder) = .ok c ∧
      c.monitor.sink.calls = [.subscribe ⟨"enter", some "#target"⟩] ∧
      let m := c.monitor.feed G [⟨"enter", some "#target", []⟩]
      m.atInitial = false ∧ (m.accept G move).firings = [] ∧
      (m.accept G move).monitor.current = (m.accept G away).monitor.current := by
  intro enter late f G move away
  have hshapes : f.hostShapes = [⟨"enter", some "#target"⟩] := by decide +kernel
  have hforeign : ∀ e : Event, e.name ≠ Event.timeout.name →
      (Shape.mk "enter" (some "#target")).covers e = false → f.Foreign e := by
    intro e hn hs
    refine ⟨hn, ?_⟩
    intro s hm
    rw [hshapes, List.mem_singleton] at hm
    rw [hm, hs]
  have hmove : f.Foreign move := hforeign move (by decide) (by decide)
  have haway : f.Foreign away := hforeign away (by decide) (by decide)
  have hrun : (match compile f ({} : Recorder) with
      | .ok c => (c.monitor.feed G [⟨"enter", some "#target", []⟩]).atInitial
      | .error _ => true) = false := by decide +kernel
  obtain ⟨c, hc⟩ := exists_compile (f := f) (by decide) ({} : Recorder)
  rw [hc] at hrun
  obtain ⟨hcalls, _, hh⟩ := subscriptions_complete G hc
  rw [hshapes] at hcalls
  have hm := hh (c.monitor.feed G [⟨"enter", some "#target", []⟩]) move hmove
  exact ⟨hmove, haway, c, hc, hcalls, hrun, hm.1, (hm.2 away haway).1⟩

end TemporalMonitor
