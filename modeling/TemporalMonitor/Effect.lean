/-! Effects: what a trigger asks of the host, as data, with the texts they are shown by. Texts are put
in double quotes on one line. Lengths of time are in whole nanoseconds, and written in the largest of
the units s, ms, µs and ns that they reach, with their exact fraction and no trailing zeros. -/

namespace TemporalMonitor

/-- Quotes, backslashes and control characters are escaped. Nothing is done about other characters
without an image of their own, such as combining marks, soft hyphens, spaces of no width and code
points not assigned: a fuller rule would escape these as well, here they are kept. -/
def quotedChar (c : Char) : List Char :=
  match c with
  | '"' => ['\\', '"']
  | '\\' => ['\\', '\\']
  | '\n' => ['\\', 'n']
  | '\t' => ['\\', 't']
  | '\r' => ['\\', 'r']
  | c =>
    if c.toNat = 0 then ['\\', '0']
    else if c.toNat < 32 ∨ (127 ≤ c.toNat ∧ c.toNat < 160) then
      ['\\', 'u', '\x7b'] ++ Nat.toDigits 16 c.toNat ++ ['\x7d']
    else [c]

def quoted (s : String) : String :=
  "\"" ++ String.ofList (s.toList.flatMap quotedChar) ++ "\""

def quotedOption : Option String → String
  | none => "None"
  | some s => "Some(" ++ quoted s ++ ")"

def quotedList (l : List String) : String :=
  "[" ++ ", ".intercalate (l.map quoted) ++ "]"

structure Duration where
  nanoseconds : Nat
deriving DecidableEq

def Duration.ofSeconds (seconds nanoseconds : Nat) : Duration :=
  ⟨seconds * 1000000000 + nanoseconds⟩

def Duration.seconds (d : Duration) : Nat :=
  d.nanoseconds / 1000000000

def Duration.subsecond (d : Duration) : Nat :=
  d.nanoseconds % 1000000000

/-- The decimals of a part of a unit that has the given number of places, trailing zeros left
out. -/
def decimals (part places : Nat) : List Char :=
  (((Nat.toDigits 10 part).leftpad places '0').reverse.dropWhile (· == '0')).reverse

/-- `n` in units of `places` decimal places; the point appears only before a decimal. -/
def scaled (n places : Nat) : String :=
  let unit := Nat.pow 10 places
  match decimals (n % unit) places with
  | [] => toString (n / unit)
  | ds => toString (n / unit) ++ "." ++ String.ofList ds

def Duration.text (d : Duration) : String :=
  if 1000000000 ≤ d.nanoseconds then scaled d.nanoseconds 9 ++ "s"
  else if 1000000 ≤ d.nanoseconds then scaled d.nanoseconds 6 ++ "ms"
  else if 1000 ≤ d.nanoseconds then scaled d.nanoseconds 3 ++ "µs"
  else toString d.nanoseconds ++ "ns"

/-- What is done to whatever a selector designates. -/
inductive Action
  | addClass (name : String)
  | removeClass (name : String)
  | toggleClass (name : String)
  | trackMovement (container : String)
deriving DecidableEq

def Action.text : Action → String
  | .addClass c => "add-class " ++ c
  | .removeClass c => "remove-class " ++ c
  | .toggleClass c => "toggle-class " ++ c
  | .trackMovement c => "track-movement in " ++ c

def Action.inspect : Action → String
  | .addClass c => "AddClass(" ++ quoted c ++ ")"
  | .removeClass c => "RemoveClass(" ++ quoted c ++ ")"
  | .toggleClass c => "ToggleClass(" ++ quoted c ++ ")"
  | .trackMovement c => "TrackMovement \x7b container: " ++ quoted c ++ " \x7d"

inductive Effect
  | startTimer (delay : Duration)
  | apply (selector : String) (action : Action)
deriving DecidableEq

def Effect.inspect : Effect → String
  | .startTimer delay => "StartTimer(" ++ delay.text ++ ")"
  | .apply selector action =>
    "Apply \x7b selector: " ++ quoted selector ++ ", kind: " ++ action.inspect ++ " \x7d"

end TemporalMonitor
