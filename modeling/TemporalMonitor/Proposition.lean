import TemporalMonitor.Effect
import TemporalMonitor.Event

/-! Propositions: the atoms of a formula. A proposition is about events of a name, or a constant,
and may be narrowed by a selector and a guard and carry a trigger. It names its guard; what each guard
means is given apart, so that two propositions have the same guard only by naming the same one. -/

namespace TemporalMonitor

abbrev GuardId := Nat

/-- What the guards mean: any predicate of an event for each of them. -/
abbrev Guards := GuardId → Event → Bool

inductive Comparison
  | lt | le | eq | ne | gt | ge
deriving DecidableEq

def Comparison.holds (c : Comparison) (a b : Float) : Bool :=
  match c with
  | .lt => a < b
  | .le => a ≤ b
  | .eq => a == b
  | .ne => a != b
  | .gt => b < a
  | .ge => b ≤ a

/-- Ready-made predicates for guards. A comparison reads a missing field as the default, and is
false when there is none. -/
inductive Condition
  | const (value : Bool)
  | has (key : String)
  | compare (key : String) (comparison : Comparison) (value : Float) (default : Option Float)

def Condition.holds (e : Event) : Condition → Bool
  | .const b => b
  | .has key => (e.field? key).isSome
  | .compare key c value default =>
    ((e.field? key).or default).any fun x => c.holds x value

/-- The guards of a table, numbered by position; a guard outside it lets every event pass. -/
def Guards.ofConditions (table : Array Condition) : Guards :=
  fun g e => (table[g]?).all (Condition.holds e)

/-- Callbacks are known by name and run by the host; effects go through a sink. -/
inductive Trigger
  | callback (name : String)
  | effect (e : Effect)
deriving DecidableEq

inductive Subject
  | truth
  | falsity
  | event (name : String)
deriving DecidableEq

def Subject.name : Subject → String
  | .truth => "true"
  | .falsity => "false"
  | .event name => name

structure Proposition where
  subject : Subject
  selector : Option String := none
  trigger : Option Trigger := none
  guard : Option GuardId := none
deriving DecidableEq

/-- Refuses the empty name and the names of the two constants. -/
def Proposition.named (name : String) : Except NameError Proposition :=
  if name = "" then .error .emptyProposition
  else if name = Subject.truth.name ∨ name = Subject.falsity.name then .error (.reserved name)
  else .ok ⟨.event name, none, none, none⟩

def Proposition.truth : Proposition :=
  ⟨.truth, none, none, none⟩

def Proposition.falsity : Proposition :=
  ⟨.falsity, none, none, none⟩

def Proposition.timeout : Proposition :=
  ⟨.event Event.timeout.name, none, none, none⟩

def Proposition.name (p : Proposition) : String :=
  p.subject.name

def Proposition.shape (p : Proposition) : Shape :=
  ⟨p.name, p.selector⟩

def Proposition.isTrue (p : Proposition) : Bool :=
  p.subject = .truth

def Proposition.isFalse (p : Proposition) : Bool :=
  p.subject = .falsity

def Proposition.isConstant (p : Proposition) : Bool :=
  p.isTrue || p.isFalse

def Proposition.hasTrigger (p : Proposition) : Bool :=
  p.trigger.isSome

/-- Whether an event satisfies the proposition. Selector and guard of a constant play no part. -/
def Proposition.holds (G : Guards) (p : Proposition) (e : Event) : Bool :=
  match p.subject with
  | .truth => true
  | .falsity => false
  | .event name =>
    e.name = name && p.selector.all (fun s => e.selector = some s) && p.guard.all (G · e)

def Proposition.text (p : Proposition) : String :=
  match p.subject with
  | .truth => "True"
  | .falsity => "False"
  | .event name =>
    name ++ (match p.selector with | some s => ":" ++ s | none => "") ++
      (if p.hasTrigger then ":Trigger" else "")

def Trigger.inspect : Trigger → String
  | .callback name => "Callback(" ++ quoted name ++ ")"
  | .effect e => "Effect(" ++ e.inspect ++ ")"

def Proposition.inspect (p : Proposition) : String :=
  "Proposition \x7b name: " ++ quoted p.name ++ ", selector: " ++ quotedOption p.selector ++
    ", trigger: " ++ (match p.trigger with | some t => "Some(" ++ t.inspect ++ ")" | none => "None") ++
    ", guard: " ++ (if p.guard.isSome then "true" else "false") ++ " \x7d"

end TemporalMonitor
