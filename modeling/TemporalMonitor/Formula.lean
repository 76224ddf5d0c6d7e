import TemporalMonitor.Proposition

/-! Temporal formulas over propositions, their derived operators and their text. In negation normal
form negations stand directly above propositions only; a negated constant stays as it is. Triggers may
not stand anywhere: each formula has the steps, counted from the event that starts it, on which its
triggers can fire, and the two sides of a conjunction must not share one. -/

namespace TemporalMonitor

inductive Formula
  | prop (p : Proposition)
  | not (a : Formula)
  | next (a : Formula)
  | and (a b : Formula)
  | or (a b : Formula)
  | until (a b : Formula)
  | release (a b : Formula)
deriving DecidableEq

def Formula.truth : Formula :=
  .prop .truth

def Formula.falsity : Formula :=
  .prop .falsity

def Formula.eventually (a : Formula) : Formula :=
  .until .truth a

def Formula.always (a : Formula) : Formula :=
  .release .falsity a

def Formula.implies (a b : Formula) : Formula :=
  .or (.not a) b

def Formula.text : Formula → String
  | .prop p => p.text
  | .not a => "Not(" ++ a.text ++ ")"
  | .next a => "Next(" ++ a.text ++ ")"
  | .and a b => "(" ++ a.text ++ " And " ++ b.text ++ ")"
  | .or a b => "(" ++ a.text ++ " Or " ++ b.text ++ ")"
  | .until a b => "(" ++ a.text ++ " Until " ++ b.text ++ ")"
  | .release a b => "(" ++ a.text ++ " Release " ++ b.text ++ ")"

/-- The propositions of a formula as written, from left to right. -/
def Formula.propositions : Formula → List Proposition
  | .prop p => [p]
  | .not a | .next a => a.propositions
  | .and a b | .or a b | .until a b | .release a b => a.propositions ++ b.propositions

def Formula.hasTrigger : Formula → Bool
  | .prop p => p.hasTrigger
  | .not a | .next a => a.hasTrigger
  | .and a b | .or a b | .until a b | .release a b => a.hasTrigger || b.hasTrigger

def Formula.isProp : Formula → Bool
  | .prop _ => true
  | _ => false

/-- A proposition, or one directly under a negation. -/
def Formula.isLiteral : Formula → Bool
  | .prop _ => true
  | .not a => a.isProp
  | _ => false

mutual

def Formula.nnf : Formula → Formula
  | .prop p => .prop p
  | .not a => a.negNnf
  | .next a => .next a.nnf
  | .and a b => .and a.nnf b.nnf
  | .or a b => .or a.nnf b.nnf
  | .until a b => .until a.nnf b.nnf
  | .release a b => .release a.nnf b.nnf

/-- The normal form of the negation. -/
def Formula.negNnf : Formula → Formula
  | .prop p => .not (.prop p)
  | .not a => a.nnf
  | .next a => .next a.negNnf
  | .and a b => .or a.negNnf b.negNnf
  | .or a b => .and a.negNnf b.negNnf
  | .until a b => .release a.negNnf b.negNnf
  | .release a b => .until a.negNnf b.negNnf

end

def Formula.isNnf : Formula → Bool
  | .prop _ => true
  | .not a => a.isProp
  | .next a => a.isNnf
  | .and a b | .or a b | .until a b | .release a b => a.isNnf && b.isNnf

/-- The steps of `exact`, and every step from `onward` on. -/
structure TriggerSteps where
  exact : List Nat := []
  onward : Option Nat := none
deriving DecidableEq

def TriggerSteps.never : TriggerSteps :=
  ⟨[], none⟩

def TriggerSteps.atOnce : TriggerSteps :=
  ⟨[0], none⟩

def TriggerSteps.shifted (s : TriggerSteps) : TriggerSteps :=
  ⟨s.exact.map (· + 1), s.onward.map (· + 1)⟩

def earliest : Option Nat → Option Nat → Option Nat
  | some a, some b => some (min a b)
  | some a, none => some a
  | none, b => b

def TriggerSteps.union (s t : TriggerSteps) : TriggerSteps :=
  ⟨s.exact ++ t.exact, earliest s.onward t.onward⟩

/-- Every step from the first one on. -/
def TriggerSteps.unbounded (s : TriggerSteps) : TriggerSteps :=
  ⟨[], earliest s.exact.min? s.onward⟩

def TriggerSteps.covers (s : TriggerSteps) (k : Nat) : Bool :=
  s.exact.contains k || s.onward.any (· ≤ k)

def TriggerSteps.overlaps (s t : TriggerSteps) : Bool :=
  (s.onward.isSome && t.onward.isSome) || s.exact.any t.covers || t.exact.any s.covers

def Formula.triggerSteps : Formula → TriggerSteps
  | .prop p => if p.hasTrigger then .atOnce else .never
  | .not a => a.triggerSteps
  | .next a => a.triggerSteps.shifted
  | .and a b | .or a b => a.triggerSteps.union b.triggerSteps
  | .until a b | .release a b => (a.triggerSteps.union b.triggerSteps).unbounded

/-- A negated proposition carries no trigger, at most one side of an until or a release has
triggers, and the two sides of a conjunction never fire on the same step. -/
def Formula.wellPlaced : Formula → Bool
  | .prop _ => true
  | .not (.prop p) => !p.hasTrigger
  | .not a => a.wellPlaced
  | .next a => a.wellPlaced
  | .and a b =>
    !a.triggerSteps.overlaps b.triggerSteps && a.wellPlaced && b.wellPlaced
  | .or a b => a.wellPlaced && b.wellPlaced
  | .until a b | .release a b =>
    (!b.hasTrigger && a.wellPlaced) || (!a.hasTrigger && b.wellPlaced)

end TemporalMonitor
