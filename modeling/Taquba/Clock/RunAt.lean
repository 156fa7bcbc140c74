import Taquba.Clock.Duration
import Taquba.Workflow.Effects

/-! # Requested times of jobs and steps

A step asks for a delay or a timeout, and an enqueue for an instant. The runtime adds a
delay to its clock as an instant, and the preparation of the record reads an instant in
milliseconds. A job is scheduled at the milliseconds that it read, or pending when they
are not after the clock.
-/

namespace Taquba.RunAt

open Clock Workflow

/-- The instant `delay` after the clock of the runtime, `none` for a panic. -/
def runAtAfter (now : ℕ) (delay : Duration) : Option SystemTime := do
  let t ← SystemTime.epoch.add (.fromMillis now)
  t.add delay

inductive TimedTrigger where
  | after (delay : Duration)
  | onSignal (timeout : Duration)
  | onGroup (groupId : RunId) (timeout : Duration)

namespace TimedTrigger

def delay : TimedTrigger → Duration
  | .after delay => delay
  | .onSignal timeout | .onGroup _ timeout => timeout

def wait : TimedTrigger → Option StepWait
  | .after _ => none
  | .onSignal _ => some .signal
  | .onGroup groupId _ => some (.count (groupCountName groupId))

/-- The options of the step that starts at `t`, with the instant as the preparation reads
it. -/
def optsAt (claimed : ClaimedStep) (trigger : TimedTrigger) (t : SystemTime) : StepEnqueueOpts :=
  { claimed.nextStepOpts with runAt := some t.toMillis, wait := trigger.wait }

def opts (claimed : ClaimedStep) (now : ℕ) (trigger : TimedTrigger) : Option StepEnqueueOpts :=
  (runAtAfter now trigger.delay).map (optsAt claimed trigger)

end TimedTrigger

/-- An instant, given in nanoseconds after the epoch, is representable, and its milliseconds
fit in 64 bits or wrap to the largest number, which is after the clock. -/
def Fits (requested : ℤ) (now : ℕ) : Prop :=
  requested < instantEnd ∧
    (requested / milli < 2 ^ 64 ∨ requested / milli % 2 ^ 64 = 2 ^ 64 - 1 ∧ now < 2 ^ 64 - 1)

/-- The job does not run before the requested instant: it is scheduled at it or later, where an
instant beyond 64 bits of milliseconds counts as their largest number, or pending and the
instant was not after the clock, to the millisecond. -/
def Kept (requested : ℤ) (now : ℕ) (job : JobRecord) : Prop :=
  (∃ ms, job.status = .scheduled ∧ job.runAt = some ms ∧
      min (requested / milli) (2 ^ 64 - 1) ≤ ms) ∨
    (job.status = .pending ∧ requested / milli ≤ now)

instance (requested : ℤ) (now : ℕ) : Decidable (Fits requested now) :=
  inferInstanceAs (Decidable (_ ∧ _))

section Record

variable {κ β : Type} {configs : Configs β} {payload : List UInt8} {opts : EnqueueOptions}
  {now ms : ℕ}

end Record

section Requested

variable {β : Type} (configs : Configs β) (digests : Digests)

end Requested

end Taquba.RunAt
