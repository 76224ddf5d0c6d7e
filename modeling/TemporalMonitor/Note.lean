import TemporalMonitor.Formula

/-! How nodes, states and timers are referred to, and the notes taken while formulas are compiled and
monitors run, each with its level and its text. -/

namespace TemporalMonitor

def nodeText (id : Nat) : String :=
  "n" ++ toString id

def stateText (id : Nat) : String :=
  "s" ++ toString id

structure TimerId where
  number : Nat
deriving DecidableEq

def TimerId.text (t : TimerId) : String :=
  "timer#" ++ toString t.number

/-- The initial node, and the others numbered in the order in which they are named. -/
inductive NodeName
  | init
  | numbered (k : Nat)
deriving DecidableEq

def NodeName.text : NodeName → String
  | .init => "init"
  | .numbered k => "Node_" ++ toString k

inductive LookupError
  | outOfRange (size index : Nat)
deriving DecidableEq

def LookupError.message : LookupError → String
  | .outOfRange size index =>
    "index out of bounds: the len is " ++ toString size ++ " but the index is " ++ toString index

/-- The id as an index below `size`. -/
def lookup (size id : Nat) : Except LookupError (Fin size) :=
  if h : id < size then .ok ⟨id, h⟩ else .error (.outOfRange size id)

inductive Level
  | debug
  | trace
deriving DecidableEq

def Level.text : Level → String
  | .debug => "DEBUG"
  | .trace => "TRACE"

/-- Whether a journal kept at a level shows a note: at `trace` all are shown. -/
def Level.shows : Level → Level → Bool
  | .trace, _ => true
  | .debug, l => l = .debug

inductive Note
  | unfolding (formula : Formula) (subformulas : Nat)
  | contradiction (node : NodeName)
  | forked (first second : NodeName)
  | folded (node target : NodeName)
  | elementary (node : NodeName) (satisfied deferred : Nat) (successor : NodeName)
  | unfolded (nodes : Nat)
  | compiling (formula : Formula)
  | compiled (states final : Nat) (formula : Formula)
  | bound (p : Proposition) (effect : Effect)
  | subscribing (shape : Shape)
  | received (event : Event)
  | mismatch (state : NodeName) (event : Event)
  | firing (state : NodeName) (p : Proposition)
  | started (timer : TimerId) (delay : Duration)
  | replaced (old new : TimerId)
  | expired (timer : TimerId) (delay : Duration)
  | accepted (event : Event)
  | rejected (event : Event)
  | standing (states : List NodeName)

def Note.level : Note → Level
  | .contradiction .. | .forked .. | .bound .. | .mismatch .. | .firing .. => .trace
  | _ => .debug

def Note.text : Note → String
  | .unfolding f n => "create_graph(" ++ f.text ++ ") with " ++ toString n ++ " subformulas"
  | .contradiction node => node.text ++ ": contradiction, branch dropped"
  | .forked first second => "fork into " ++ first.text ++ " and " ++ second.text
  | .folded node target => node.text ++ " folds into " ++ target.text
  | .elementary node s d successor =>
    node.text ++ " is elementary (" ++ toString s ++ " satisfied, " ++ toString d ++
      " deferred), successor " ++ successor.text
  | .unfolded n => "create_graph: " ++ toString n ++ " nodes"
  | .compiling f => "compiling " ++ f.text
  | .compiled n k f =>
    "compiled " ++ toString n ++ " states (" ++ toString k ++ " final) for " ++ f.text
  | .bound p e => p.text ++ " bound to " ++ e.inspect
  | .subscribing shape => "subscribing to " ++ shape.text
  | .received e => "received " ++ e.text
  | .mismatch state e => state.text ++ " does not match " ++ e.text
  | .firing state p => state.text ++ ": firing trigger of " ++ p.text
  | .started timer delay => "started " ++ timer.text ++ " (" ++ delay.text ++ ")"
  | .replaced old new => old.text ++ " replaced by " ++ new.text
  | .expired timer delay => timer.text ++ " expired after " ++ delay.text
  | .accepted e => e.text ++ " reached a final state, reset"
  | .rejected e => e.text ++ " rejected, reset"
  | .standing states => "current states: " ++ quotedList (states.map NodeName.text)

end TemporalMonitor
