import TemporalMonitor.Note

/-! The host's side of a monitor: timers, effects and subscriptions are asked of a sink. At most
one timer is pending at a time. -/

namespace TemporalMonitor

class Sink (σ : Type) where
  /-- Starts a timer, in place of the one pending. -/
  schedule : σ → Duration → TimerId × σ
  cancel : σ → σ
  apply : σ → String → Action → Context → σ
  subscribe : σ → Shape → σ
  /-- The timer the sink knows to be pending. -/
  pending? : σ → Option (TimerId × Duration)

/-- Starting a timer replaces the one that the sink has pending. -/
def Sink.replacement {σ : Type} [Sink σ] (sink : σ) (timer : TimerId) : List Note :=
  ((Sink.pending? sink).map fun old => Note.replaced old.1 timer).toList

/-- Ignores every request, and hands out timers that never expire. -/
structure NullSink where
  scheduled : Nat := 0
deriving DecidableEq

instance : Sink NullSink where
  schedule s _ := (⟨s.scheduled + 1⟩, ⟨s.scheduled + 1⟩)
  cancel s := s
  apply s _ _ _ := s
  subscribe s _ := s
  pending? _ := none

/-- A request as a recorder keeps it. -/
inductive Call
  | subscribe (shape : Shape)
  | schedule (timer : TimerId) (delay : Duration)
  | cancel (timer : Option TimerId)
  | apply (selector : String) (action : Action) (delta : Option (Float × Float))

/-- Keeps every request and the pending timer. -/
structure Recorder where
  calls : List Call := []
  pending : Option (TimerId × Duration) := none
  scheduled : Nat := 0

def Recorder.record (r : Recorder) (call : Call) : Recorder :=
  { r with calls := r.calls ++ [call] }

/-- How far the pointer moved since the previous event, if both events say where it was. -/
def Context.movement (ctx : Context) : Option (Float × Float) :=
  match ctx.delta "x", ctx.delta "y" with
  | some dx, some dy => some (dx, dy)
  | _, _ => none

instance : Sink Recorder where
  schedule r delay :=
    let timer : TimerId := ⟨r.scheduled + 1⟩
    (timer, { r with pending := some (timer, delay), scheduled := r.scheduled + 1 }.record
      (.schedule timer delay))
  cancel r := { r with pending := none }.record (.cancel (r.pending.map Prod.fst))
  apply r selector action ctx := r.record (.apply selector action ctx.movement)
  subscribe r shape := r.record (.subscribe shape)
  pending? r := r.pending

/-- Treats the pending timer as expired; the event is the one to deliver. -/
def Recorder.expire (r : Recorder) : Option Event × Recorder :=
  (r.pending.map fun _ => Event.timeout, { r with pending := none })

def Recorder.expiry (r : Recorder) : List Note :=
  (r.pending.map fun timer => Note.expired timer.1 timer.2).toList

/-- Hands over the calls and forgets them. -/
def Recorder.drain (r : Recorder) : List Call × Recorder :=
  (r.calls, { r with calls := [] })

def Call.subscription? : Call → Option Shape
  | .subscribe shape => some shape
  | _ => none

def Recorder.subscriptions (r : Recorder) : List Shape :=
  r.calls.filterMap Call.subscription?

end TemporalMonitor
