import TemporalMonitor.Automaton
import TemporalMonitor.Sink

/-! Monitors run an automaton over events. A monitor keeps a set of current states, remembers the
events that left it in progress, fires the triggers of every state an event enters, and starts
over when an event is accepted or rejected. -/

namespace TemporalMonitor

structure Statistics where
  events : Nat := 0
  accepted : Nat := 0
  rejected : Nat := 0
  triggersFired : Nat := 0
deriving DecidableEq

def Statistics.count (s : Statistics) (v : Verdict) (fired : Nat) : Statistics where
  events := s.events + 1
  accepted := s.accepted + if v = .accepted then 1 else 0
  rejected := s.rejected + if v = .rejected then 1 else 0
  triggersFired := s.triggersFired + fired

structure Monitor (A : Automaton) (σ : Type) where
  current : IndexSet A.size
  memory : Memory
  timer : Option TimerId
  stats : Statistics
  sink : σ

def Monitor.start {σ : Type} (A : Automaton) (sink : σ) : Monitor A σ :=
  ⟨{A.initial}, {}, none, {}, sink⟩

def Monitor.atInitial {A : Automaton} {σ : Type} (m : Monitor A σ) : Bool :=
  m.current = {A.initial}

def Monitor.currentNames {A : Automaton} {σ : Type} (m : Monitor A σ) : List NodeName :=
  m.current.toList.map fun i => (A.state i).name

/-- A trigger that fires, with the state and the proposition it belongs to. -/
structure Firing (n : Nat) where
  state : Fin n
  proposition : Proposition
  trigger : Trigger
deriving DecidableEq

/-- What happens at a candidate state: the event does not match, or a trigger fires. -/
inductive Visit (n : Nat)
  | mismatch (state : Fin n)
  | firing (f : Firing n)
deriving DecidableEq

def Visit.firing? {n : Nat} : Visit n → Option (Firing n)
  | .mismatch _ => none
  | .firing f => some f

/-- The firings of a state that an event enters, in the order of its propositions. -/
def Automaton.firings (A : Automaton) (i : Fin A.size) : List (Firing A.size) :=
  (A.state i).propositions.filterMap fun p => p.trigger.map fun t => ⟨i, p, t⟩

def Automaton.visits (A : Automaton) (G : Guards) (e : Event) (candidates : IndexSet A.size) :
    List (Visit A.size) :=
  candidates.toList.flatMap fun i =>
    if (A.state i).satisfiedBy G e then (A.firings i).map .firing else [.mismatch i]

/-- The part of a monitor that triggers act on, and the notes taken meanwhile, latest first. -/
structure Progress (σ : Type) where
  sink : σ
  timer : Option TimerId
  notes : List Note

def Progress.fire {σ : Type} [Sink σ] (p : Progress σ) (ctx : Context) : Trigger → Progress σ
  | .callback _ => p
  | .effect (.startTimer delay) =>
    let (timer, sink) := Sink.schedule p.sink delay
    ⟨sink, some timer, .started timer delay :: Sink.replacement p.sink timer ++ p.notes⟩
  | .effect (.apply selector action) =>
    { p with sink := Sink.apply p.sink selector action ctx }

def Progress.note {σ : Type} (p : Progress σ) (note : Note) : Progress σ :=
  { p with notes := note :: p.notes }

def Progress.visit {A : Automaton} {σ : Type} [Sink σ] (ctx : Context) (p : Progress σ) :
    Visit A.size → Progress σ
  | .mismatch i => p.note (.mismatch (A.state i).name ctx.event)
  | .firing f => (p.note (.firing (A.state f.state).name f.proposition)).fire ctx f.trigger

/-- What an event did: the monitor after it, the verdict, the triggers fired in order with what
they saw, and the notes taken. -/
structure Reaction (A : Automaton) (σ : Type) where
  monitor : Monitor A σ
  verdict : Verdict
  context : Context
  firings : List (Firing A.size)
  notes : List Note

/-- The states an event leaves a monitor in, before any restart. -/
def Monitor.advance {A : Automaton} {σ : Type} (G : Guards) (m : Monitor A σ) (e : Event) :
    IndexSet A.size :=
  A.narrow (A.matching G e (A.candidates m.current))

def Verdict.notes (e : Event) : Verdict → List Note
  | .accepted => [.accepted e]
  | .rejected => [.rejected e]
  | .ongoing => []

/-- Moves a monitor on by one event. A timeout spends the timer before any trigger can start
another; a restart cancels the timer and keeps the memory. -/
def Monitor.accept {A : Automaton} {σ : Type} [Sink σ] (G : Guards) (m : Monitor A σ) (e : Event) :
    Reaction A σ :=
  let context := m.memory.context e
  let visits := A.visits G e (A.candidates m.current)
  let firings := visits.filterMap Visit.firing?
  let progress := visits.foldl (Progress.visit context)
    ⟨m.sink, if e.isTimeout then none else m.timer, [.received e]⟩
  let kept := m.advance G e
  let verdict := A.verdict kept
  let stats := m.stats.count verdict firings.length
  let after : Monitor A σ :=
    if verdict = .ongoing then ⟨kept, m.memory.record e, progress.timer, stats, progress.sink⟩
    else ⟨{A.initial}, m.memory, none, stats, Sink.cancel progress.sink⟩
  { monitor := after
    verdict := verdict
    context := context
    firings := firings
    notes := progress.notes.reverse ++ verdict.notes e ++ [.standing after.currentNames] }

/-- Lets the pending timer of the sink expire and accepts the timeout; nothing happens if there is
none. -/
def Monitor.fireTimeout {A : Automaton} (G : Guards) (m : Monitor A Recorder) :
    Option (Reaction A Recorder) :=
  match m.sink.expire with
  | (none, _) => none
  | (some e, sink) =>
    let r := Monitor.accept G { m with sink := sink } e
    some { r with notes := m.sink.expiry ++ r.notes }

end TemporalMonitor
