import Mathlib.Data.List.Nodup
import Mathlib.Data.List.Induction
import TemporalMonitor.Sink

/-! A recorder under any sequence of operations. Timers are numbered in the order in which they are
asked for. The last of them is pending as long as no operation ends it, and one that has ended is
never pending again, so it is cancelled at most once. What has been handed over and what is still
kept are together all the requests made, in order. -/

namespace TemporalMonitor

inductive Operation
  | schedule (delay : Duration)
  | cancel
  | apply (selector : String) (action : Action) (ctx : Context)
  | subscribe (shape : Shape)
  | expire
  | drain

inductive Answer
  | done
  | timer (t : TimerId)
  | event (e : Option Event)
  | drained (calls : List Call)

def Recorder.perform (r : Recorder) : Operation → Answer × Recorder
  | .schedule delay => (.timer (Sink.schedule r delay).1, (Sink.schedule r delay).2)
  | .cancel => (.done, Sink.cancel r)
  | .apply selector action ctx => (.done, Sink.apply r selector action ctx)
  | .subscribe shape => (.done, Sink.subscribe r shape)
  | .expire => (.event r.expire.1, r.expire.2)
  | .drain => (.drained r.drain.1, r.drain.2)

def Recorder.run (r : Recorder) (ops : List Operation) : Recorder :=
  ops.foldl (fun r op => (r.perform op).2) r

def Recorder.answers (r : Recorder) : List Operation → List Answer
  | [] => []
  | op :: ops => (r.perform op).1 :: (r.perform op).2.answers ops

def Answer.timer? : Answer → Option TimerId
  | .timer t => some t
  | _ => none

/-- The calls handed over with an answer. -/
def Answer.handed : Answer → List Call
  | .drained calls => calls
  | _ => []

inductive Ending
  | replaced
  | cancelled
  | expired
deriving DecidableEq

/-- How an operation ends the timer that is pending. -/
def Operation.ending? : Operation → Option Ending
  | .schedule _ => some .replaced
  | .cancel => some .cancelled
  | .expire => some .expired
  | _ => none

def Operation.asksTimer : Operation → Bool
  | .schedule _ => true
  | _ => false

def timersAsked (ops : List Operation) : Nat :=
  ops.countP Operation.asksTimer

/-- The timer asked for last, unless it was cancelled or expired since. -/
def openTimer (ops : List Operation) : Option (TimerId × Duration) :=
  match ops.reverse.find? fun op => op.ending?.isSome with
  | some (.schedule delay) => some (⟨timersAsked ops⟩, delay)
  | _ => none

/-- The request that an operation makes after those before it. -/
def Operation.call? (before : List Operation) : Operation → Option Call
  | .schedule delay => some (.schedule ⟨timersAsked before + 1⟩ delay)
  | .cancel => some (.cancel ((openTimer before).map Prod.fst))
  | .apply selector action ctx => some (.apply selector action ctx.movement)
  | .subscribe shape => some (.subscribe shape)
  | .expire | .drain => none

def requestsAfter (before : List Operation) : List Operation → List Call
  | [] => []
  | op :: ops => (op.call? before).toList ++ requestsAfter (before ++ [op]) ops

/-- All the requests made, in order. -/
def requests (ops : List Operation) : List Call :=
  requestsAfter [] ops

def Call.cancelled? : Call → Option TimerId
  | .cancel t => t
  | _ => none

theorem timersAsked_append (ops ops' : List Operation) :
    timersAsked (ops ++ ops') = timersAsked ops + timersAsked ops' :=
  List.countP_append

theorem timersAsked_eq_zero {ops : List Operation} (h : ∀ op ∈ ops, op.ending? = none) :
    timersAsked ops = 0 := by
  apply List.countP_eq_zero.2
  intro op hop
  have he := h op hop
  cases op <;> simp_all [Operation.ending?, Operation.asksTimer]

theorem openTimer_append_singleton (ops : List Operation) (op : Operation) :
    openTimer (ops ++ [op]) = match op with
      | .schedule delay => some (⟨timersAsked ops + 1⟩, delay)
      | .cancel | .expire => none
      | .apply .. | .subscribe _ | .drain => openTimer ops := by
  cases op <;> simp [openTimer, Operation.ending?, timersAsked, Operation.asksTimer]

theorem openTimer_of_ending?_eq_none {op : Operation} (ops : List Operation)
    (h : op.ending? = none) : openTimer (ops ++ [op]) = openTimer ops := by
  rw [openTimer_append_singleton]
  cases op <;> simp_all [Operation.ending?]

theorem openTimer_eq_some_iff_find {ops : List Operation} {t : TimerId} {delay : Duration} :
    openTimer ops = some (t, delay) ↔
      (ops.reverse.find? fun op => op.ending?.isSome) = some (.schedule delay) ∧
        t = ⟨timersAsked ops⟩ := by
  rw [openTimer]
  cases ops.reverse.find? fun op => op.ending?.isSome with
  | none => simp
  | some op => cases op <;> simp [and_comm, eq_comm (a := t)]

theorem timersAsked_of_last {before since : List Operation} {delay : Duration}
    (h : ∀ op ∈ since, op.ending? = none) :
    timersAsked (before ++ .schedule delay :: since) = timersAsked before + 1 := by
  have hcons : timersAsked (.schedule delay :: since) = timersAsked since + 1 :=
    List.countP_cons_of_pos rfl
  rw [timersAsked_append, hcons, timersAsked_eq_zero h]

theorem openTimer_eq_some_iff {ops : List Operation} {t : TimerId} {delay : Duration} :
    openTimer ops = some (t, delay) ↔ ∃ before since, ops = before ++ .schedule delay :: since ∧
      t = ⟨timersAsked before + 1⟩ ∧ ∀ op ∈ since, op.ending? = none := by
  rw [openTimer_eq_some_iff_find, List.find?_eq_some_iff_append]
  constructor
  · intro hh
    obtain ⟨⟨_, since, before, hrev, hs⟩, rfl⟩ := hh
    have hops : ops = before.reverse ++ .schedule delay :: since.reverse := by
      simpa using congrArg List.reverse hrev
    have hquiet : ∀ op ∈ since.reverse, op.ending? = none := by
      intro op hop
      simpa using hs op (List.mem_reverse.1 hop)
    exact ⟨before.reverse, since.reverse, hops, by rw [hops, timersAsked_of_last hquiet], hquiet⟩
  · intro hh
    obtain ⟨before, since, rfl, rfl, hs⟩ := hh
    refine ⟨⟨rfl, since.reverse, before.reverse, by simp, ?_⟩, by rw [timersAsked_of_last hs]⟩
    intro op hop
    simp [hs op (List.mem_reverse.1 hop)]

/-- A timer that has ended is not pending again. -/
theorem openTimer_ne_of_ended {before since : List Operation} {op : Operation} {t : TimerId}
    {delay delay' : Duration} (hb : openTimer before = some (t, delay)) (ho : op.ending? ≠ none) :
    openTimer (before ++ op :: since) ≠ some (t, delay') := by
  intro he
  have htb : t = ⟨timersAsked before⟩ := (openTimer_eq_some_iff_find.1 hb).2
  obtain ⟨first, quiet, hops, htf, hq⟩ := openTimer_eq_some_iff.1 he
  have hcount : timersAsked before = timersAsked first + 1 :=
    TimerId.mk.inj (htb.symm.trans htf)
  -- The timer was asked for before the operation that ended it, so that operation came since.
  rcases List.append_eq_append_iff.1 hops with ⟨rest, rfl, _⟩ | ⟨rest, rfl, hrest⟩
  · rw [timersAsked_append] at hcount
    omega
  · cases rest with
    | nil => simp at hcount
    | cons x rest =>
      obtain ⟨rfl, rfl⟩ := List.cons.inj hrest
      exact ho (hq op (by simp))

section

variable {r : Recorder} {handed : List Call} {ops : List Operation}

theorem requests_append_singleton (ops : List Operation) (op : Operation) :
    requests (ops ++ [op]) = requests ops ++ (op.call? ops).toList := by
  have hafter : ∀ before : List Operation, requestsAfter before (ops ++ [op]) =
      requestsAfter before ops ++ (op.call? (before ++ ops)).toList := by
    induction ops with
    | nil => simp [requestsAfter]
    | cons x ops ih =>
      intro before
      simp [requestsAfter, ih]
  exact hafter []

theorem Recorder.run_append_singleton (r : Recorder) (ops : List Operation) (op : Operation) :
    r.run (ops ++ [op]) = ((r.run ops).perform op).2 :=
  List.foldl_concat ..

theorem Recorder.answers_append (r : Recorder) (ops ops' : List Operation) :
    r.answers (ops ++ ops') = r.answers ops ++ (r.run ops).answers ops' := by
  induction ops generalizing r with
  | nil => rfl
  | cons op ops ih =>
    simp only [List.cons_append, answers, ih]
    rfl

theorem Recorder.length_answers (r : Recorder) (ops : List Operation) :
    (r.answers ops).length = ops.length := by
  induction ops generalizing r with
  | nil => rfl
  | cons op ops ih => simp [answers, ih]

/-- The recorder and the calls it has handed over are what the operations so far make them. -/
structure Recorder.Keeps (r : Recorder) (handed : List Call) (ops : List Operation) : Prop where
  scheduled : r.scheduled = timersAsked ops
  pending : r.pending = openTimer ops
  history : handed ++ r.calls = requests ops

theorem Recorder.Keeps.perform (h : r.Keeps handed ops) (op : Operation) :
    (r.perform op).2.Keeps (handed ++ (r.perform op).1.handed) (ops ++ [op]) := by
  refine ⟨?_, ?_, ?_⟩
  · rw [timersAsked_append, ← h.scheduled]
    cases op <;> rfl
  · rw [openTimer_append_singleton, ← h.pending, ← h.scheduled]
    cases op <;> rfl
  · rw [requests_append_singleton, ← h.history, List.append_assoc, List.append_assoc]
    congr 1
    cases op with
    | schedule delay =>
      rw [Operation.call?, ← h.scheduled]
      rfl
    | cancel =>
      rw [Operation.call?, ← h.pending]
      rfl
    | apply | subscribe | drain => rfl
    | expire => exact (List.append_nil r.calls).symm

theorem Recorder.keeps_run (ops : List Operation) :
    (Recorder.run {} ops).Keeps ((Recorder.answers {} ops).flatMap Answer.handed) ops := by
  induction ops using List.reverseRecOn with
  | nil => exact ⟨rfl, rfl, rfl⟩
  | append_singleton ops op ih =>
    rw [run_append_singleton, answers_append, List.flatMap_append]
    simpa [answers] using ih.perform op

theorem Recorder.timers_answers (ops : List Operation) :
    (Recorder.answers {} ops).filterMap Answer.timer? =
      (List.range' 1 (timersAsked ops)).map TimerId.mk := by
  induction ops using List.reverseRecOn with
  | nil => rfl
  | append_singleton ops op ih =>
    have hs := (keeps_run ops).scheduled
    rw [answers_append, List.filterMap_append, ih, timersAsked_append]
    cases op with
    | schedule delay =>
      have hone : timersAsked [.schedule delay] = 1 := rfl
      rw [hone, List.range'_1_concat, List.map_append, ← hs, Nat.add_comm 1]
      rfl
    | _ => exact List.append_nil _

theorem Operation.call?_eq_cancel {op : Operation} {t : TimerId}
    (h : op.call? ops = some (.cancel (some t))) :
    op = .cancel ∧ ∃ delay, openTimer ops = some (t, delay) := by
  cases op with
  | cancel =>
    have ht : (openTimer ops).map Prod.fst = some t := Call.cancel.inj (Option.some.inj h)
    obtain ⟨⟨_, delay⟩, ho, rfl⟩ := Option.map_eq_some_iff.1 ht
    exact ⟨rfl, delay, ho⟩
  | _ => simp [call?] at h

theorem exists_of_cancelled {t : TimerId} (h : .cancel (some t) ∈ requests ops) :
    ∃ before since delay, ops = before ++ .cancel :: since ∧
      openTimer before = some (t, delay) := by
  induction ops using List.reverseRecOn with
  | nil => simp [requests, requestsAfter] at h
  | append_singleton ops op ih =>
    rw [requests_append_singleton, List.mem_append, Option.mem_toList] at h
    rcases h with h | h
    · obtain ⟨before, since, delay, rfl, ho⟩ := ih h
      exact ⟨before, since ++ [op], delay, by simp, ho⟩
    · obtain ⟨rfl, delay, ho⟩ := Operation.call?_eq_cancel h
      exact ⟨ops, [], delay, rfl, ho⟩

theorem Call.cancelled?_eq_some_iff {call : Call} {t : TimerId} :
    call.cancelled? = some t ↔ call = .cancel (some t) := by
  cases call <;> simp [cancelled?]

theorem nodup_cancelled (ops : List Operation) :
    ((requests ops).filterMap Call.cancelled?).Nodup := by
  induction ops using List.reverseRecOn with
  | nil => simp [requests, requestsAfter]
  | append_singleton ops op ih =>
    rw [requests_append_singleton, List.filterMap_append]
    refine ih.append ?_ ?_
    · cases op.call? ops with
      | none => exact List.nodup_nil
      | some call => cases hc : call.cancelled? <;> simp [hc]
    · intro t ht ht'
      simp only [List.mem_filterMap, Call.cancelled?_eq_some_iff, exists_eq_right,
        Option.mem_toList] at ht ht'
      obtain ⟨before, since, delay, rfl, ho⟩ := exists_of_cancelled ht
      obtain ⟨_, delay', ho'⟩ := Operation.call?_eq_cancel ht'
      exact openTimer_ne_of_ended ho (by simp [Operation.ending?]) ho'

end

/-- The operation at position `k` ends the timer `t`, which was pending until then. -/
def EndsAt (ops : List Operation) (k : Nat) (t : TimerId) (way : Ending) : Prop :=
  (Recorder.run {} (ops.take k)).pending.map Prod.fst = some t ∧
    ops[k]?.bind Operation.ending? = some way

section

variable {ops : List Operation} {t : TimerId} {k l : Nat} {way way' : Ending}

theorem pending_run_map_eq_some_iff :
    (Recorder.run {} ops).pending.map Prod.fst = some t ↔
      ∃ delay, openTimer ops = some (t, delay) := by
  rw [(Recorder.keeps_run ops).pending]
  simp

theorem EndsAt.not_lt (h : EndsAt ops k t way) (h' : EndsAt ops l t way') : ¬ k < l := by
  intro hlt
  obtain ⟨delay, ho⟩ := pending_run_map_eq_some_iff.1 h.1
  obtain ⟨delay', ho'⟩ := pending_run_map_eq_some_iff.1 h'.1
  obtain ⟨op, hop, hend⟩ := Option.bind_eq_some_iff.1 h.2
  obtain ⟨m, rfl⟩ := Nat.exists_eq_add_of_lt hlt
  have hdrop : ops.drop k = op :: ops.drop (k + 1) := by
    obtain ⟨hk, rfl⟩ := List.getElem?_eq_some_iff.1 hop
    exact List.drop_eq_getElem_cons hk
  rw [Nat.add_assoc, List.take_add, hdrop, List.take_succ_cons] at ho'
  exact openTimer_ne_of_ended ho (by simp [hend]) ho'

theorem exists_endsAt_iff : (∃ way, EndsAt ops k t way) ↔
    (Recorder.run {} (ops.take k)).pending.map Prod.fst = some t ∧
      (Recorder.run {} (ops.take (k + 1))).pending.map Prod.fst ≠ some t := by
  rw [List.take_add_one]
  cases hop : ops[k]? with
  | none => simp [EndsAt, hop]
  | some op =>
    simp only [EndsAt, hop, Option.bind_some, Option.toList_some, ne_eq, pending_run_map_eq_some_iff]
    cases hend : op.ending? with
    | none => simp [openTimer_of_ending?_eq_none _ hend]
    | some way =>
      constructor
      · intro hh
        obtain ⟨_, ⟨delay, ho⟩, _⟩ := hh
        refine ⟨⟨delay, ho⟩, ?_⟩
        rintro ⟨delay', ho'⟩
        exact openTimer_ne_of_ended ho (by simp [hend]) ho'
      · intro hh
        exact ⟨way, hh.1, rfl⟩

end

/-- A new recorder under any operations: how timers are numbered, which is pending, how each of them
ends, which are recorded as cancelled, what an expiry yields, and what is recorded in all. -/
theorem recorder_keeps_single_timer (ops : List Operation) :
    let r := Recorder.run {} ops
    let answers := Recorder.answers {} ops
    let history := answers.flatMap Answer.handed ++ r.calls
    answers.filterMap Answer.timer? = (List.range' 1 (timersAsked ops)).map TimerId.mk ∧
    r.pending = openTimer ops ∧
    (∀ t delay, openTimer ops = some (t, delay) ↔
      ∃ before since, ops = before ++ .schedule delay :: since ∧ t = ⟨timersAsked before + 1⟩ ∧
        ∀ op ∈ since, op.ending? = none) ∧
    (∀ t k, (∃ way, EndsAt ops k t way) ↔
      (Recorder.run {} (ops.take k)).pending.map Prod.fst = some t ∧
        (Recorder.run {} (ops.take (k + 1))).pending.map Prod.fst ≠ some t) ∧
    (∀ t k l way way', EndsAt ops k t way → EndsAt ops l t way' → k = l ∧ way = way') ∧
    (history.filterMap Call.cancelled?).Nodup ∧
    (∀ t, .cancel (some t) ∈ history → ∃ before since delay, ops = before ++ .cancel :: since ∧
      openTimer before = some (t, delay)) ∧
    (∀ before since, ops = before ++ .expire :: since → answers[before.length]? =
      some (.event (if (openTimer before).isSome then some Event.timeout else none))) ∧
    history = requests ops := by
  intro r answers history
  have hkeeps := Recorder.keeps_run ops
  have hhistory : history = requests ops := hkeeps.history
  refine ⟨Recorder.timers_answers ops, hkeeps.pending, fun _ _ => openTimer_eq_some_iff,
    fun _ _ => exists_endsAt_iff, ?_, ?_, ?_, ?_, hhistory⟩
  · intro t k l way way' h h'
    have hkl : k = l := Nat.le_antisymm (Nat.not_lt.1 (h'.not_lt h)) (Nat.not_lt.1 (h.not_lt h'))
    subst hkl
    exact ⟨rfl, Option.some.inj (h.2.symm.trans h'.2)⟩
  · rw [hhistory]
    exact nodup_cancelled ops
  · intro t h
    rw [hhistory] at h
    exact exists_of_cancelled h
  · intro before since hops
    have hanswers : answers[before.length]? = some (.event (Recorder.run {} before).expire.1) := by
      simp [answers, hops, Recorder.answers_append, Recorder.length_answers, Recorder.answers,
        Recorder.perform]
    rw [hanswers, Recorder.expire, (Recorder.keeps_run before).pending]
    cases openTimer before <;> rfl

end TemporalMonitor
