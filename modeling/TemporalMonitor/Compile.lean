import TemporalMonitor.Monitor

/-! Compiling a formula: its triggers are checked, its automaton is built, and a sink is told
which events the formula is about. -/

namespace TemporalMonitor

inductive FormulaError
  | misplacedTrigger (formula : Formula)
deriving DecidableEq

def FormulaError.message : FormulaError → String
  | .misplacedTrigger f => "misplaced trigger in formula " ++ f.text

/-- A proposition of a formula, and the shape to subscribe to on its account. -/
structure Binding where
  proposition : Proposition
  subscription : Option Shape
deriving DecidableEq

/-- Constants and timeouts come from no host event. -/
def Proposition.hostShape (p : Proposition) : Option Shape :=
  if p.isConstant ∨ p.shape = Event.timeout.shape then none else some p.shape

def bindings (known : List Shape) : List Proposition → List Binding
  | [] => []
  | p :: ps =>
    let new := p.hostShape.filter fun shape => !known.contains shape
    ⟨p, new⟩ :: bindings (known ++ new.toList) ps

def Binding.notes (b : Binding) : List Note :=
  (match b.proposition.trigger with
    | some (.effect e) => [.bound b.proposition e]
    | _ => []) ++
  (b.subscription.map Note.subscribing).toList

def Formula.bindings (f : Formula) : List Binding :=
  TemporalMonitor.bindings [] f.propositions

/-- The shapes of the events a formula is about, in the order of their first appearance. -/
def Formula.subscriptions (f : Formula) : List Shape :=
  f.bindings.filterMap Binding.subscription

/-- A monitor with its automaton, and the notes taken while it was made. -/
structure Compiled (σ : Type) where
  automaton : Automaton
  monitor : Monitor automaton σ
  notes : List Note

/-- The monitor of a tableau that is there already; nothing is checked or subscribed to. -/
def Compiled.ofTableau {σ : Type} (f : Formula) (t : Tableau) (sink : σ) : Compiled σ :=
  let A := Automaton.ofTableau f t
  ⟨A, .start A sink, [A.summary]⟩

/-- Compiles a formula and subscribes to its events, unless its triggers are misplaced. -/
def compile {σ : Type} [Sink σ] (f : Formula) (sink : σ) : Except FormulaError (Compiled σ) :=
  if f.wellPlaced then
    let t := Tableau.build f
    let c := Compiled.ofTableau f t (f.subscriptions.foldl Sink.subscribe sink)
    .ok ⟨c.automaton, c.monitor,
      .compiling f :: t.notes ++ c.notes ++ f.bindings.flatMap Binding.notes⟩
  else .error (.misplacedTrigger f)

end TemporalMonitor
