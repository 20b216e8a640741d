import CurrencyConverter.OrderedPass
import CurrencyConverter.ObjectStore.CollectionChangeBuilder

/-! The callbacks of a collection. They are called in passes over all of them, during which
callbacks may be added and removed. -/
namespace ObjectStore

/-- A callback, known by its token. -/
structure Callback where
  accumulatedChanges : CollectionChangeBuilder
  changesToDeliver : CollectionChangeSet
  token : ℕ
  initialDelivered : Bool
  skipNext : Bool

/-- Of a notifier, what has to do with its callbacks. Outside a pass the index is `npos`, which
one step leads to the first callback: here it is `none`. -/
structure CollectionNotifier where
  callbacks : List Callback := []
  haveCallbacks : Bool := false
  callbackIndex : Option ℕ := none
  hasRun : Bool := false
  error : Bool := false

/-- What a pass calls the callbacks for. -/
inductive Pass
  | before
  | after
  | error
  deriving DecidableEq, Repr

namespace CollectionNotifier

def nextToken (n : CollectionNotifier) : ℕ :=
  n.callbacks.foldl (fun token callback =>
    if token ≤ callback.token then callback.token+1 else token) 0

def addCallback (n : CollectionNotifier) : CollectionNotifier :=
  { n with
    callbacks := n.callbacks ++ [⟨{}, {}, n.nextToken, false, false⟩]
    haveCallbacks := if n.callbackIndex = none then true else n.haveCallbacks }

/-- One index less, where the one before the first is `npos`. -/
def previousIndex (i : ℕ) : Option ℕ := if i = 0 then none else some (i-1)

def removeCallback (n : CollectionNotifier) (token : ℕ) : CollectionNotifier :=
  match n.callbacks.findIdx? (fun callback => callback.token = token) with
  | none => n
  | some idx =>
    { n with
      callbackIndex := n.callbackIndex.bind
        (fun i => if i ≥ idx then previousIndex i else some i)
      callbacks := n.callbacks.eraseIdx idx
      haveCallbacks := !(n.callbacks.eraseIdx idx).isEmpty }

def suppressNextNotification (n : CollectionNotifier) (token : ℕ) : CollectionNotifier :=
  match n.callbacks.findIdx? (fun callback => callback.token = token) with
  | none => n
  | some idx =>
    { n with callbacks :=
        n.callbacks.modify idx (fun callback => { callback with skipNext := true }) }

/-- A callback that skips the changes is told of the next ones again. -/
def addChange (b : Build) (change : CollectionChangeBuilder) (callback : Callback) : Callback :=
  if callback.skipNext then { callback with skipNext := false }
  else { callback with accumulatedChanges := callback.accumulatedChanges.merge b change }

def addChanges (b : Build) (n : CollectionNotifier) (change : CollectionChangeBuilder) :
    CollectionNotifier := { n with callbacks := n.callbacks.map (addChange b change) }

/-- The end of a run on the worker thread, with the changes it has found. -/
def prepareHandover (b : Build) (n : CollectionNotifier) (change : CollectionChangeBuilder) :
    CollectionNotifier := { n.addChanges b change with hasRun := true }

def package (b : Build) (callback : Callback) : Callback :=
  { callback with
    changesToDeliver := callback.accumulatedChanges.finalize b
    accumulatedChanges := {} }

def packageForDelivery (b : Build) (n : CollectionNotifier) : CollectionNotifier :=
  { n with callbacks := n.callbacks.map (package b) }

/-- What a pass does with a callback, and the changes that it is called with if it is called. -/
def visit : Pass → Callback → Callback × Option CollectionChangeSet
  | Pass.before, callback =>
    (callback, if callback.changesToDeliver.empty then none else some callback.changesToDeliver)
  | Pass.after, callback =>
    if callback.initialDelivered ∧ callback.changesToDeliver.empty then (callback, none)
    else ({ callback with initialDelivered := true, changesToDeliver := {} },
      some callback.changesToDeliver)
  | Pass.error, callback => (callback, some {})

/-- The index after one step. -/
def nextIndex (n : CollectionNotifier) : ℕ := n.callbackIndex.elim 0 (fun i => i+1)

/-- The end of a pass. After an error there is nothing to call ever again. -/
def finish (pass : Pass) (n : CollectionNotifier) : CollectionNotifier :=
  { n with
    callbackIndex := none
    callbacks := if pass = Pass.error then [] else n.callbacks
    error := n.error || pass = Pass.error }

end CollectionNotifier

/-- Where the target thread is: a pass goes on in rounds, and whatever is called may do
anything in between. -/
inductive Stage
  | idle
  | packaged
  | calling (pass : Pass)
  deriving DecidableEq, Repr

structure NotifierState where
  notifier : CollectionNotifier := {}
  stage : Stage := Stage.idle

inductive NotifierEvent
  | addCallback
  | removeCallback (token : ℕ)
  | suppressNext (token : ℕ)
  | handOver (change : CollectionChangeBuilder)
  | package
  | giveUp
  | enter (pass : Pass)
  | round

/-- What can be seen of an event. -/
inductive Outcome
  | silent
  | added (token : ℕ)
  | visited (token : ℕ) (call : Option CollectionChangeSet)
  | left

namespace NotifierState

open CollectionNotifier

/-- One round of the loop of `for_each_callback`. -/
def round (pass : Pass) (s : NotifierState) : NotifierState × Outcome :=
  match s.notifier.callbacks[s.notifier.nextIndex]? with
  | some callback =>
    ({ s with notifier :=
        { s.notifier with
          callbackIndex := some s.notifier.nextIndex
          callbacks := s.notifier.callbacks.set s.notifier.nextIndex (visit pass callback).1 } },
      Outcome.visited callback.token (visit pass callback).2)
  | none =>
    ({ notifier := s.notifier.finish pass
       stage := if pass = Pass.before then Stage.packaged else Stage.idle }, Outcome.left)

/-- The changes are packaged once the first run is over, and passes over the callbacks follow:
one before the target thread advances, which is left out when it is there already, and one
after that. It may also find that it need not advance, and then it delivers nothing. -/
def step (b : Build) (s : NotifierState) : NotifierEvent → Option (NotifierState × Outcome)
  | NotifierEvent.addCallback =>
    some ({ s with notifier := s.notifier.addCallback }, Outcome.added s.notifier.nextToken)
  | NotifierEvent.removeCallback token =>
    some ({ s with notifier := s.notifier.removeCallback token }, Outcome.silent)
  | NotifierEvent.suppressNext token =>
    some ({ s with notifier := s.notifier.suppressNextNotification token }, Outcome.silent)
  | NotifierEvent.handOver change =>
    some ({ s with notifier := s.notifier.prepareHandover b change }, Outcome.silent)
  | NotifierEvent.package =>
    if s.stage = Stage.idle ∧ s.notifier.hasRun then
      some (⟨s.notifier.packageForDelivery b, Stage.packaged⟩, Outcome.silent)
    else none
  | NotifierEvent.giveUp =>
    if s.stage = Stage.packaged then some ({ s with stage := Stage.idle }, Outcome.silent)
    else none
  | NotifierEvent.enter pass =>
    if s.stage = if pass = Pass.error then Stage.idle else Stage.packaged then
      some ({ s with stage := Stage.calling pass }, Outcome.silent)
    else none
  | NotifierEvent.round =>
    match s.stage with
    | Stage.calling pass => some (s.round pass)
    | _ => none

end NotifierState

end ObjectStore
