/-! Events, their shapes, what a monitor remembers of past events, and what a trigger sees when it
fires: the event at hand and the events remembered before it. -/

namespace TemporalMonitor

/-- The kind of an event: its name and where it comes from. -/
structure Shape where
  name : String
  selector : Option String
deriving DecidableEq

def Shape.text (s : Shape) : String :=
  match s.selector with
  | some selector => "(" ++ s.name ++ ", " ++ selector ++ ")"
  | none => "(" ++ s.name ++ ", -)"

/-- By name, then by selector; a shape without a selector stands before all with one. -/
def Shape.le (s t : Shape) : Bool :=
  if s.name = t.name then
    match s.selector, t.selector with
    | none, _ => true
    | some _, none => false
    | some a, some b => a ≤ b
  else s.name ≤ t.name

def Shape.sorted (l : List Shape) : List Shape :=
  l.eraseDups.mergeSort Shape.le

/-- Why a name cannot be used. -/
inductive NameError
  | emptyEvent
  | emptyProposition
  | reserved (name : String)
deriving DecidableEq

def NameError.message : NameError → String
  | .emptyEvent => "Event name must not be empty"
  | .emptyProposition => "Proposition name must not be empty"
  | .reserved name => "Proposition name '" ++ name ++ "' is reserved"

/-- A named occurrence with numeric fields, kept in the order of their keys. Two events are
`==` when their fields are equal as numbers, so a NaN field makes an event differ from itself. -/
structure Event where
  name : String
  selector : Option String := none
  fields : List (String × Float) := []
deriving BEq

def Event.named (name : String) : Except NameError Event :=
  if name = "" then .error .emptyEvent else .ok ⟨name, none, []⟩

def Event.timeout : Event :=
  ⟨"timeout", none, []⟩

def Event.on (e : Event) (selector : String) : Event :=
  { e with selector := some selector }

def insertField (key : String) (value : Float) : List (String × Float) → List (String × Float)
  | [] => [(key, value)]
  | (k, v) :: rest =>
    if key < k then (key, value) :: (k, v) :: rest
    else if key = k then (key, value) :: rest
    else (k, v) :: insertField key value rest

def Event.withField (e : Event) (key : String) (value : Float) : Event :=
  { e with fields := insertField key value e.fields }

def Event.field? (e : Event) (key : String) : Option Float :=
  e.fields.lookup key

def Event.shape (e : Event) : Shape :=
  ⟨e.name, e.selector⟩

def Event.isTimeout (e : Event) : Bool :=
  e.shape = Event.timeout.shape

def Event.text (e : Event) : String :=
  match e.selector with
  | some selector => selector ++ ":" ++ e.name
  | none => e.name

/-- What a trigger can observe when it fires. -/
structure Context where
  event : Event
  previousSame : Event
  previousAny : Event

def Event.change (now before : Event) (key : String) : Option Float :=
  match now.field? key, before.field? key with
  | some a, some b => some (a - b)
  | _, _ => none

def Context.delta (ctx : Context) (key : String) : Option Float :=
  ctx.event.change ctx.previousAny key

def Context.deltaSameShape (ctx : Context) (key : String) : Option Float :=
  ctx.event.change ctx.previousSame key

def Context.keys (ctx : Context) : List String :=
  ([ctx.event, ctx.previousSame, ctx.previousAny].flatMap fun e => e.fields.map Prod.fst)
    |>.eraseDups.mergeSort (· ≤ ·)

/-- The latest event, and the latest of each shape. -/
structure Memory where
  latest : Option Event := none
  byShape : List (Shape × Event) := []

def Memory.latestOf (m : Memory) (shape : Shape) : Option Event :=
  m.byShape.lookup shape

def Memory.record (m : Memory) (e : Event) : Memory :=
  ⟨some e, (e.shape, e) :: m.byShape.filter fun entry => entry.1 ≠ e.shape⟩

/-- What triggers see on an event; with nothing to compare it with, the event is its own past. -/
def Memory.context (m : Memory) (e : Event) : Context :=
  ⟨e, (m.latestOf e.shape).getD e, m.latest.getD e⟩

end TemporalMonitor
