import AdaptiveLL.Parser.Basic
import Mathlib.Data.List.Induction
/-!
The signals of a parser about mistakes: that a mistake is reported, that the match of a token is
acknowledged, and that a recognition error has ended the visit of a state. A monitor follows them.
It is at rest, or a report is unacknowledged, or an error is due to be reported at once; a series of
signals that it follows has one report for each mistake.
-/
namespace AdaptiveLL

/-- What is signalled about mistakes. -/
inductive Signal where
  /-- A mistake is reported. -/
  | reported (m : Mistake)
  /-- The match of a token is acknowledged. -/
  | matched
  /-- An error ends the visit of a state. -/
  | caught (e : RecognitionError)

/-- What the signals so far have led to. -/
inductive Mood where
  | rest
  /-- The last report is unacknowledged. -/
  | alarm
  /-- The error is to be reported. -/
  | due (e : RecognitionError)

namespace Signal

/-- What the log of recovery keeps of a signal. -/
def notice : Signal → Notice
  | reported _ => .reported
  | matched => .matched
  | caught _ => .caught

/-- The mistake that is told of. -/
def mistake? : Signal → Option Mistake
  | reported m => some m
  | matched | caught _ => none

/-- Whether a report is unacknowledged behind the signal, if `before` says whether one is so in front
of it. -/
def outstanding (before : Bool) : Signal → Bool
  | reported _ => true
  | matched => false
  | caught _ => before

/-- None of the signals is that of an error. -/
def Uncaught (signals : List Signal) : Prop :=
  ∀ e, .caught e ∉ signals

/-- Whether a report is unacknowledged behind the signals. -/
def unacknowledged (before : Bool) (signals : List Signal) : Bool :=
  signals.foldl outstanding before

theorem Uncaught.append {first rest : List Signal} (h : Uncaught first) (h' : Uncaught rest) :
    Uncaught (first ++ rest) :=
  fun e => List.not_mem_append (h e) (h' e)

end Signal

namespace Mood

/-- The mood between the visits of states. -/
def ofAlarm (alarm : Bool) : Mood :=
  if alarm then .alarm else .rest

/-- The signals that are in order. An error at rest is reported at once. While a report is
unacknowledged there is no other one. -/
def after? : Mood → Signal → Option Mood
  | .rest, .matched => some .rest
  | .rest, .reported m => if m.error = none then some .alarm else none
  | .rest, .caught e => some (.due e)
  | .alarm, .matched => some .rest
  | .alarm, .reported _ => none
  | .alarm, .caught _ => some .alarm
  | .due e, .reported m => if m.error = some e then some .alarm else none
  | .due _, .matched | .due _, .caught _ => none

/-- The mood behind signals that are in order. -/
def follow? (mood : Mood) (signals : List Signal) : Option Mood :=
  signals.foldlM after? mood

variable {mood mood' last : Mood} {s : Signal} {before between after signals : List Signal}
  {m m' : Mistake} {e : RecognitionError} {alarm : Bool}

@[simp] theorem follow?_nil (mood : Mood) : mood.follow? [] = some mood := rfl

theorem follow?_cons (mood : Mood) (s : Signal) (signals : List Signal) :
    mood.follow? (s :: signals) = (mood.after? s).bind (·.follow? signals) := by
  rw [follow?, List.foldlM_cons]
  rfl

theorem follow?_append (mood : Mood) (first second : List Signal) :
    mood.follow? (first ++ second) = (mood.follow? first).bind (·.follow? second) := by
  rw [follow?, List.foldlM_append]
  rfl

/-- Signals in order are followed one by one. -/
theorem follow?_split (h : mood.follow? (before ++ s :: after) = some last) :
    ∃ here next, mood.follow? before = some here ∧ here.after? s = some next ∧
      next.follow? after = some last := by
  rw [follow?_append] at h
  obtain ⟨here, led, h⟩ := Option.bind_eq_some_iff.1 h
  rw [follow?_cons] at h
  obtain ⟨next, step, rest⟩ := Option.bind_eq_some_iff.1 h
  exact ⟨here, next, led, step, rest⟩

/-- A report is only made where none is unacknowledged, and is so afterwards. -/
theorem after?_reported (h : mood.after? (.reported m) = some mood') :
    mood ≠ .alarm ∧ mood' = .alarm := by
  cases mood with
  | alarm => cases h
  | rest | due =>
      simp only [after?] at h
      split at h
      · exact ⟨by simp, (Option.some.inj h).symm⟩
      · cases h

/-- A report is unacknowledged until a match is acknowledged. -/
theorem follow?_alarm (h : Mood.alarm.follow? between = some last) (none : .matched ∉ between) :
    last = .alarm := by
  induction between with
  | nil => exact (Option.some.inj h).symm
  | cons s between ih =>
      obtain ⟨first, rest⟩ := not_or.1 (mt List.mem_cons.2 none)
      cases s with
      | matched => exact absurd rfl first
      | reported => cases h
      | caught => exact ih h rest

/-- Between two reports a match is acknowledged. -/
theorem matched_between (h : mood.follow?
      (before ++ .reported m :: between ++ .reported m' :: after) = some last) :
    .matched ∈ between := by
  obtain ⟨here, next, led, second, -⟩ := follow?_split h
  obtain ⟨_, next', -, first, led'⟩ := follow?_split led
  by_contra none
  rw [(after?_reported first).2] at led'
  exact (after?_reported second).1 (follow?_alarm led' none)

/-- The monitor knows whether a report is unacknowledged. -/
theorem unacknowledged_iff (h : (ofAlarm alarm).follow? before = some mood) :
    Signal.unacknowledged alarm before = true ↔ mood = .alarm := by
  induction before using List.reverseRecOn generalizing mood with
  | nil =>
      obtain rfl := Option.some.inj h
      cases alarm <;> simp [Signal.unacknowledged, ofAlarm]
  | append_singleton before s ih =>
      obtain ⟨here, next, led, step, eq⟩ := follow?_split h
      obtain rfl := Option.some.inj eq
      have here_iff := ih led
      rw [Signal.unacknowledged, List.foldl_append]
      change Signal.outstanding (Signal.unacknowledged alarm before) s = true ↔ _
      cases s with
      | reported m => simp [(after?_reported step).2, Signal.outstanding]
      | matched => cases here <;> simp only [after?, Option.some.injEq, reduceCtorEq] at step <;>
          simp [← step, Signal.outstanding]
      | caught e => cases here <;> simp only [after?, Option.some.injEq, reduceCtorEq] at step <;>
          simp [← step, Signal.outstanding, here_iff]

/-- An error is due only where it has just been caught. -/
theorem caught_of_due (h : (ofAlarm alarm).follow? before = some (.due e)) :
    ∃ earlier, before = earlier ++ [.caught e] := by
  rcases List.eq_nil_or_concat before with rfl | ⟨earlier, s, rfl⟩
  · cases alarm <;> simp [ofAlarm] at h
  rw [List.concat_eq_append] at h ⊢
  obtain ⟨here, next, led, step, eq⟩ := follow?_split h
  obtain rfl := Option.some.inj eq
  cases s with
  | reported m => cases (after?_reported step).2
  | matched => cases here <;> simp [after?] at step
  | caught e' => cases here <;> simp_all [after?]

/-- The report of an error comes right after the error. -/
theorem caught_before (h : (ofAlarm alarm).follow? (before ++ .reported m :: after) = some last)
    (tells : m.error = some e) : ∃ earlier, before = earlier ++ [.caught e] := by
  obtain ⟨here, next, led, step, -⟩ := follow?_split h
  cases here with
  | alarm => cases step
  | rest => simp [after?, tells] at step
  | due e' =>
      simp only [after?, tells] at step
      split at step
      case isTrue same => exact Option.some.inj same ▸ caught_of_due led
      case isFalse => cases step

/-- While a report is unacknowledged, an error is not reported. -/
theorem caught_alarm (h : (ofAlarm alarm).follow? (before ++ .caught e :: after) = some last)
    (alarmed : Signal.unacknowledged alarm before = true) : ∀ m rest, after ≠ .reported m :: rest := by
  obtain ⟨here, next, led, step, led'⟩ := follow?_split h
  obtain rfl := (unacknowledged_iff led).1 alarmed
  obtain rfl := Option.some.inj step
  rintro m rest rfl
  rw [follow?_cons] at led'
  cases led'

/-- Otherwise it is reported at once, unless it is the last signal. -/
theorem caught_rest (h : (ofAlarm alarm).follow? (before ++ .caught e :: after) = some last)
    (quiet : Signal.unacknowledged alarm before = false) :
    (∃ m rest, after = .reported m :: rest ∧ m.error = some e) ∨ after = [] ∧ last = .due e := by
  obtain ⟨here, next, led, step, led'⟩ := follow?_split h
  have calm : here ≠ .alarm := fun alarmed => by simp [(unacknowledged_iff led).2 alarmed] at quiet
  obtain rfl : next = .due e := by cases here <;> simp_all [after?]
  cases after with
  | nil => exact .inr ⟨rfl, (Option.some.inj led').symm⟩
  | cons s rest =>
      rw [follow?_cons] at led'
      obtain ⟨_, step', -⟩ := Option.bind_eq_some_iff.1 led'
      cases s with
      | matched | caught => cases step'
      | reported m =>
          simp only [after?] at step'
          split at step'
          case isTrue same => exact .inl ⟨m, rest, rfl, same⟩
          case isFalse => cases step'

end Mood

end AdaptiveLL
