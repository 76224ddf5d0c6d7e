import TemporalMonitor.Monitor

/-! Plain listings of tableaux, automata and running monitors, and drawings of them in the DOT
language. -/

namespace TemporalMonitor

def joined (parts : List String) : String :=
  ", ".intercalate parts

def lines (l : List String) : String :=
  String.join (l.map (· ++ "\n"))

structure NodeInfo where
  id : Nat
  name : String
  incoming : List String

def NodeInfo.text (info : NodeInfo) : String :=
  "\x7b name: " ++ info.name ++ ", incoming : \x7b" ++ joined info.incoming ++ "\x7d \x7d"

def Tableau.info (t : Tableau) (i : Fin t.size) : NodeInfo where
  id := i
  name := (t.node i).name.text
  incoming := (t.node i).incoming.filterMap fun k =>
    if h : k < t.size then some (t.node ⟨k, h⟩).name.text else none

/-- One line for each node, in the order in which they were found. -/
def Tableau.listing (t : Tableau) : String :=
  lines ((List.finRange t.size).map fun i => (t.info i).text)

structure StateInfo where
  id : Nat
  name : String
  literals : List String
  out : List String
  isFinal : Bool
  isInitial : Bool
  isCurrent : Bool

def StateInfo.flags (info : StateInfo) : List String :=
  (if info.isInitial then ["initial"] else []) ++ (if info.isFinal then ["final"] else []) ++
    (if info.isCurrent then ["current"] else [])

def StateInfo.text (info : StateInfo) : String :=
  info.name ++ (if info.flags.isEmpty then "" else " (" ++ joined info.flags ++ ")") ++
    " [" ++ joined info.literals ++ "] -> \x7b" ++ joined info.out ++ "\x7d"

def Monitor.info {A : Automaton} {σ : Type} (m : Monitor A σ) (i : Fin A.size) : StateInfo where
  id := i
  name := (A.state i).name.text
  literals := (A.state i).literals
  out := (A.state i).out.toList.map fun j => (A.state j).name.text
  isFinal := (A.state i).isFinal
  isInitial := i = A.initial
  isCurrent := i ∈ m.current

/-- One line for each state under a title. -/
def Monitor.listing {A : Automaton} {σ : Type} (m : Monitor A σ) : String :=
  lines (("Automaton for " ++ A.formula.text ++ " (states=" ++ toString A.size ++ "):") ::
    (List.finRange A.size).map fun i => "  " ++ (m.info i).text)

def Statistics.text (s : Statistics) : String :=
  "Events: " ++ toString s.events ++ ", accepted: " ++ toString s.accepted ++
    ", rejected: " ++ toString s.rejected ++ ", triggers fired: " ++ toString s.triggersFired

def Monitor.dump {A : Automaton} {σ : Type} (m : Monitor A σ) : String :=
  lines (["=== Monitor State ===",
    "Current: " ++ quotedList (m.currentNames.map NodeName.text),
    "Last event: " ++ (match m.memory.latest with | some e => e.text | none => "none")] ++
    (m.timer.map fun timer => "Pending: " ++ timer.text).toList ++
    [m.stats.text])

end TemporalMonitor

namespace TemporalMonitor.Dot

def escapeChar (c : Char) : List Char :=
  if c = '\\' ∨ c = '"' then ['\\', c] else [c]

/-- Text for the inside of a quoted string. -/
def escape (s : String) : String :=
  String.ofList (s.toList.flatMap escapeChar)

structure Style where
  stateShape : String := "circle"
  finalShape : String := "doublecircle"
  currentFill : String := "lightgrey"
  showLiterals : Bool := true
  highlightCurrent : Bool := true

/-- The name, and below it the literals. -/
def label {n : Nat} (style : Style) (s : State n) : String :=
  escape s.name.text ++
    if style.showLiterals && !s.literals.isEmpty then
      "\\n" ++ joined (s.literals.map escape)
    else ""

def statement {A : Automaton} {σ : Type} (style : Style) (m : Monitor A σ) (i : Fin A.size) :
    String :=
  toString i.val ++ " [shape=" ++
    (if (A.state i).isFinal then style.finalShape else style.stateShape) ++
    ", label=\"" ++ label style (A.state i) ++ "\"" ++
    (if style.highlightCurrent && m.current.contains i then
      ", style=filled, fillcolor=" ++ style.currentFill else "") ++
    "];"

def edge (source target : Nat) : String :=
  toString source ++ " -> " ++ toString target ++ ";"

/-- The automaton of a monitor with its current states filled. -/
def ofMonitor {A : Automaton} {σ : Type} (style : Style) (m : Monitor A σ) : String :=
  lines (["digraph \x7b", "label=\"" ++ escape A.formula.text ++ "\";",
      "start [shape=point, style=invis];"] ++
    (List.finRange A.size).map (statement style m) ++
    ["start -> " ++ toString A.initial.val ++ ";"] ++
    ((List.finRange A.size).flatMap fun i =>
      (A.state i).out.toList.map fun j => edge i.val j.val) ++
    ["\x7d"])

def box (t : Tableau) (i : Fin t.size) : String :=
  toString i.val ++ " [label=\"" ++ escape (t.node i).name.text ++ "\\n" ++
    "\\n".intercalate ((t.node i).satisfied.toList.map fun k =>
      escape (t.arena.formula k).text) ++ "\"];"

/-- The nodes of a tableau with the formulas met at each. -/
def ofTableau (t : Tableau) : String :=
  lines (["digraph \x7b", "node [shape=box];"] ++
    (List.finRange t.size).map (box t) ++
    ((List.finRange t.size).flatMap fun i =>
      (t.node i).incoming.map fun k => edge k i.val) ++
    ["\x7d"])

end TemporalMonitor.Dot
