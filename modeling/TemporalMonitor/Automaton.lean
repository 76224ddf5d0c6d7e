import TemporalMonitor.Tableau

/-! Automata: one state for each node of a tableau, edges turned forward. A state is final when it
can step into a state that asks for nothing and only loops. -/

namespace TemporalMonitor

structure State (n : Nat) where
  name : NodeName
  out : IndexSet n
  propositions : List Proposition
  negated : List Proposition
  isFinal : Bool
deriving DecidableEq

/-- Whether an event has to match something to enter the state. -/
def State.hasObligations {n : Nat} (s : State n) : Bool :=
  !s.propositions.isEmpty

def State.satisfiedBy {n : Nat} (G : Guards) (s : State n) (e : Event) : Bool :=
  !s.negated.any (·.holds G e) && s.propositions.all (·.holds G e)

/-- The texts of the literals; a negated one has a `!` before it. -/
def State.literals {n : Nat} (s : State n) : List String :=
  s.propositions.map Proposition.text ++ s.negated.map fun p => "!" ++ p.text

structure Automaton where
  formula : Formula
  size : Nat
  states : Vector (State size) size
  initial : Fin size

def Automaton.state (A : Automaton) (i : Fin A.size) : State A.size :=
  A.states[i]

def Automaton.find? (A : Automaton) (name : String) : Option (Fin A.size) :=
  (List.finRange A.size).find? fun i => (A.state i).name.text = name

/-- The propositions met at a node, other than the true constant. -/
def Tableau.propositions (t : Tableau) (i : Fin t.size) : List Proposition :=
  ((t.node i).satisfied.toList.filterMap t.arena.proposition?).filter fun p => !p.isTrue

def Tableau.negated (t : Tableau) (i : Fin t.size) : List Proposition :=
  (t.node i).satisfied.toList.filterMap t.arena.negated?

def Tableau.out (t : Tableau) (i : Fin t.size) : IndexSet t.size :=
  .select fun j => (t.node j).incoming.contains i.val

/-- Nothing is asked here, and the only way on is to stay. -/
def Tableau.isSeed (t : Tableau) (i : Fin t.size) : Bool :=
  (t.propositions i).isEmpty && (t.negated i).isEmpty && t.out i = {i}

def Tableau.seeds (t : Tableau) : IndexSet t.size :=
  .select t.isSeed

/-- The automaton of a tableau, labelled with a formula. -/
def Automaton.ofTableau (f : Formula) (t : Tableau) : Automaton :=
  let seeds := t.seeds
  { formula := f
    size := t.size
    states := .ofFn fun i =>
      let out := t.out i
      ⟨(t.node i).name, out, t.propositions i, t.negated i, out.toList.any seeds.contains⟩
    initial := t.init }

def Automaton.finals (A : Automaton) : List (Fin A.size) :=
  (List.finRange A.size).filter fun i => (A.state i).isFinal

def Automaton.summary (A : Automaton) : Note :=
  .compiled A.size A.finals.length A.formula

/-- The states one step after any of `current`. -/
def Automaton.candidates (A : Automaton) (current : IndexSet A.size) : IndexSet A.size :=
  .unions (current.toList.map fun i => (A.state i).out)

/-- The states of a set that an event may enter. -/
def Automaton.matching (A : Automaton) (G : Guards) (e : Event) (s : IndexSet A.size) :
    IndexSet A.size :=
  s.filter fun i => (A.state i).satisfiedBy G e

/-- States with something to match drive out those without. -/
def Automaton.narrow (A : Automaton) (s : IndexSet A.size) : IndexSet A.size :=
  if s.toList.any fun i => (A.state i).hasObligations then
    s.filter fun i => (A.state i).hasObligations
  else s

inductive Verdict
  | accepted
  | rejected
  | ongoing
deriving DecidableEq

def Automaton.verdict (A : Automaton) (s : IndexSet A.size) : Verdict :=
  if s.toList.any fun i => (A.state i).isFinal then .accepted
  else if s.isEmpty then .rejected
  else .ongoing

end TemporalMonitor
