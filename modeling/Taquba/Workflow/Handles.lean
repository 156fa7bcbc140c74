import Taquba.Effects.Prepare
import Taquba.Workflow.Durable

/-! # The effects that steps and hooks stage

A step stages effects through its handle and the terminal hook through another one. Each
handle checks a call against the keys it has staged itself, and is sealed when its owner
returns. The staged effects are added to those of the settlement, where a later write of
a key replaces an earlier one.
-/

namespace Taquba.Workflow

abbrev RunEffects := SettlementEffects KvKey Value

inductive HandleError where
  | reservedKvKey (key : List UInt8)
  | kvValueTooLarge (size max : ℕ)
  | conflictingKvEffect (key : KvKey)
  | effectsSealed
  | reservedHeader (header : String)
  | reservedQueue (queue : String)
  deriving DecidableEq

/-- The effects that one handle staged. It deletes no key that it writes. -/
structure StagedEffects where
  writes : AList (fun _ : KvKey => Value) := ∅
  deletes : List KvKey := []
  enqueues : List EnqueueRequest := []
  disjoint : ∀ key ∈ deletes, key ∉ writes := by simp

def StagedEffects.addTo (staged : StagedEffects) (effects : RunEffects) : RunEffects :=
  { effects with
    kvWrites := staged.writes ∪ effects.kvWrites
    kvDeletes := effects.kvDeletes ++ staged.deletes
    enqueues := effects.enqueues ++ staged.enqueues }

def StagedEffects.Stages (staged : StagedEffects) (key : KvKey) : Prop :=
  key ∈ staged.writes ∨ key ∈ staged.deletes

def reservedKvPrefix : List UInt8 := "workflow/".toList.map fun c => UInt8.ofNat c.toNat

def checkKvKey (key : List UInt8) : Except HandleError Unit :=
  if reservedKvPrefix.isPrefixOf key then .error (.reservedKvKey key) else .ok ()

def checkEnqueue (request : EnqueueRequest) (runtimeQueue : Option String) :
    Except HandleError Unit :=
  if runtimeQueue = some request.queue then .error (.reservedQueue request.queue)
  else match checkHeaders request.options.headers with
    | .error header => .error (.reservedHeader header)
    | .ok () => .ok ()

structure EffectsState where
  staged : StagedEffects := {}
  isSealed : Bool := false
  runtimeQueue : Option String := none

namespace EffectsState

def forDelivery (runtimeQueue : String) : EffectsState where
  runtimeQueue := some runtimeQueue

variable (state : EffectsState)

def checkSealed : Except HandleError Unit :=
  if state.isSealed then .error .effectsSealed else .ok ()

def stageWrite (key : KvKey) (value : List UInt8) : Except HandleError EffectsState :=
  if maxKvValueSize < value.length then .error (.kvValueTooLarge value.length maxKvValueSize)
  else if h : key ∈ state.staged.deletes then .error (.conflictingKvEffect key)
  else .ok { state with
    staged := { state.staged with
      writes := state.staged.writes.insert key (.bytes value)
      disjoint := fun _ hd hw => (AList.mem_insert _).mp hw |>.elim (fun he => h (he ▸ hd))
        (state.staged.disjoint _ hd) } }

def stageDelete (key : KvKey) : Except HandleError EffectsState :=
  if h : key ∈ state.staged.writes then .error (.conflictingKvEffect key)
  else .ok { state with
    staged := { state.staged with
      deletes := state.staged.deletes.insert key
      disjoint := fun _ hd hw => (List.mem_insert_iff.mp hd).elim (fun he => h (he ▸ hw))
        fun hd => state.staged.disjoint _ hd hw } }

def put (key value : List UInt8) : Except HandleError EffectsState := do
  state.checkSealed
  checkKvKey key
  state.stageWrite (.caller key) value

def delete (key : List UInt8) : Except HandleError EffectsState := do
  state.checkSealed
  checkKvKey key
  state.stageDelete (.caller key)

def putRunKv (runId : RunId) (key value : List UInt8) : Except HandleError EffectsState := do
  state.checkSealed
  state.stageWrite (.runEntry runId key) value

def deleteRunKv (runId : RunId) (key : List UInt8) : Except HandleError EffectsState := do
  state.checkSealed
  state.stageDelete (.runEntry runId key)

def enqueue (request : EnqueueRequest) : Except HandleError EffectsState := do
  state.checkSealed
  checkEnqueue request state.runtimeQueue
  return { state with
    staged := { state.staged with enqueues := state.staged.enqueues ++ [request] } }

def sealAndTake : StagedEffects × EffectsState :=
  (state.staged, { state with staged := {}, isSealed := true })

end EffectsState

inductive TerminalCall where
  | put (key value : List UInt8)
  | delete (key : List UInt8)
  | enqueue (request : EnqueueRequest)

inductive StepCall where
  | shared (call : TerminalCall)
  | putRunKv (key value : List UInt8)
  | deleteRunKv (key : List UInt8)

def TerminalCall.stage (state : EffectsState) : TerminalCall → Except HandleError EffectsState
  | .put key value => state.put key value
  | .delete key => state.delete key
  | .enqueue request => state.enqueue request

def StepCall.stage (runId : RunId) (state : EffectsState) :
    StepCall → Except HandleError EffectsState
  | .shared call => call.stage state
  | .putRunKv key value => state.putRunKv runId key value
  | .deleteRunKv key => state.deleteRunKv runId key

def stagedByHook (runtimeQueue : String) (calls : List TerminalCall) :
    Except HandleError StagedEffects :=
  (calls.foldlM TerminalCall.stage (EffectsState.forDelivery runtimeQueue)).map
    fun state => state.sealAndTake.1

end Taquba.Workflow
