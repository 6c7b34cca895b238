import Jumanpp.Lib.Transitions
import Jumanpp.Util.BoundedQueue

/-!
# The training executor

One thread submits the trainers of a batch and takes the results; the threads of the executor take
trainers and report results.  They meet in two bounded queues, whose methods run one at a time.
-/

namespace Jumanpp.Core.Training

open Jumanpp.Lib Jumanpp.Util

/-- A trainer in the queue.  Batches submit the same trainers again, so what was submitted carries
the number of its `submitNext`. -/
structure Submission where
  number : Nat
  trainer : Nat
deriving DecidableEq

structure TrainingExecutionResult where
  trainer : Option Submission := none
  processStatus : Bool := true
deriving DecidableEq

/-- Where a thread stands in `TrainingExecutorThread::run`. -/
inductive TrainingExecutorThread
  /-- in `trainers_->waitFor()` -/
  | waiting
  /-- between `waitFor` and the result -/
  | processing (trainer : Submission)
  /-- in the loop around `results_->offer` -/
  | offering (result : TrainingExecutionResult)
  | returned
deriving DecidableEq

/-- The variables of `trainOneBatch`. -/
structure BatchRun where
  trainers : List Nat
  submittedTrainers : Nat
  processedTrainers : Nat
deriving DecidableEq

/-- Where the thread that owns the executor stands. -/
inductive TrainingThread
  | constructed
  /-- outside of `trainOneBatch`, with the status that the last call has returned -/
  | outside (status : Option Bool)
  /-- in the inner loop of `trainOneBatch` -/
  | submitting (batch : BatchRun)
  /-- in `waitOne` -/
  | waitingOne (batch : BatchRun)
  /-- in the loop of the destructor -/
  | stopping
  /-- in `finish` of a thread -/
  | finishing (thread : Nat)
  | destroyed
deriving DecidableEq

structure TrainingExecutor where
  owner : TrainingThread
  threads : List TrainingExecutorThread
  trainers : BoundedQueue (Option Submission)
  results : BoundedQueue TrainingExecutionResult
  /-- history: the calls of `submitNext` that returned true -/
  submitted : List Submission
  /-- history: which thread got which trainer -/
  taken : List (Nat × Submission)
  /-- history: what `waitOne` has returned -/
  reported : List TrainingExecutionResult

inductive ExecutorAction
  /-- `TrainingExecutor::initialize` -/
  | start (nthreads : UInt32)
  /-- `TrainingExecutor::initialize` if the thread with this number cannot be created -/
  | startFails (nthreads : UInt32) (thread : Nat)
  | trainOneBatch (trainers : List Nat)
  | submitNext
  | waitOne
  /-- the destructor is called -/
  | destroy
  | offerStop
  | finish
  | waitFor (thread : Nat)
  /-- `prepare` and `compute`, with their status -/
  | process (thread : Nat) (status : Bool)
  | offer (thread : Nat)
deriving DecidableEq

def ExecutorAction.isBatch : ExecutorAction → Bool
  | .trainOneBatch _ => true
  | _ => false

namespace TrainingExecutor

/-- A new executor: the queues have no slots yet. -/
def new : TrainingExecutor where
  owner := .constructed
  threads := []
  trainers := .initialized none 0
  results := .initialized {} 0
  submitted := []
  taken := []
  reported := []

/-- The threads run before the queues have slots, but find nothing in them. -/
def start (s : TrainingExecutor) (nthreads : UInt32) : TrainingExecutor :=
  { s with
    owner := .outside none
    threads := List.replicate nthreads.toNat .waiting
    trainers := .initialized none (nthreads * 2).toNat
    results := .initialized {} (nthreads * 2).toNat }

/-- `handleProcessedTrainer` and the end of the turn. -/
def afterResult (batch : BatchRun) (result : TrainingExecutionResult) : TrainingThread :=
  if result.processStatus then
    let batch := { batch with processedTrainers := batch.processedTrainers + 1 }
    if batch.processedTrainers < batch.trainers.length then .submitting batch
    else .outside (some true)
  else .outside (some false)

/-- After `submitNext` in the inner loop of `trainOneBatch`. -/
def afterSubmit (s : TrainingExecutor) (batch : BatchRun) (next : Submission) :
    Option (BoundedQueue (Option Submission)) → TrainingExecutor
  | some trainers => { s with
      trainers
      submitted := s.submitted ++ [next]
      owner := .submitting { batch with submittedTrainers := batch.submittedTrainers + 1 } }
  | none => { s with owner := .waitingOne batch }

/-- After `trainers_.offer(nullptr)` in the loop of the destructor. -/
def afterStop (s : TrainingExecutor) : Option (BoundedQueue (Option Submission)) → TrainingExecutor
  | some trainers => { s with trainers }
  | none => { s with owner := .finishing 0 }

/-- After `results_->offer` in its loop. -/
def afterOffer (s : TrainingExecutor) (i : Nat) :
    Option (BoundedQueue TrainingExecutionResult) → TrainingExecutor
  | some results => { s with results, threads := s.threads.set i .waiting }
  | none => s  -- yield

def step (s : TrainingExecutor) : ExecutorAction → Option TrainingExecutor
  | .start nthreads =>
    match s.owner with
    | .constructed => some (s.start nthreads)
    | _ => none
  | .startFails nthreads thread =>
    match s.owner with
    | .constructed =>
      if thread < nthreads.toNat then
        some { s with owner := .outside none, threads := List.replicate thread .waiting }
      else none
    | _ => none
  | .trainOneBatch trainers =>
    match s.owner with
    | .outside _ =>
      if trainers = [] then some { s with owner := .outside (some true) }
      else some { s with owner := .submitting ⟨trainers, 0, 0⟩ }
    | _ => none
  | .submitNext =>
    match s.owner with
    | .submitting batch =>
      match batch.trainers[batch.submittedTrainers]? with
      | some trainer =>
        let next : Submission := ⟨s.submitted.length, trainer⟩
        some (s.afterSubmit batch next (s.trainers.offer (some next) 0))
      | none => some { s with owner := .waitingOne batch }
    | _ => none
  | .waitOne =>
    match s.owner with
    | .waitingOne batch => do
      let (result, results) ← s.results.waitFor
      some { s with
        results
        reported := s.reported ++ [result]
        owner := afterResult batch result }
    | _ => none
  | .destroy =>
    match s.owner with
    | .constructed | .outside _ => some { s with owner := .stopping }
    | _ => none
  | .offerStop =>
    match s.owner with
    | .stopping => some (s.afterStop (s.trainers.offer none 0))
    | _ => none
  | .finish =>
    match s.owner with
    | .finishing i =>
      match s.threads[i]? with
      | some .returned => some { s with owner := .finishing (i + 1) }
      | some _ => none
      | none => some { s with owner := .destroyed }
    | _ => none
  | .waitFor i =>
    match s.threads[i]? with
    | some .waiting => do
      let (trainer, trainers) ← s.trainers.waitFor
      match trainer with
      | some trainer => some { s with
          trainers
          threads := s.threads.set i (.processing trainer)
          taken := s.taken ++ [(i, trainer)] }
      | none => some { s with trainers, threads := s.threads.set i .returned }
    | _ => none
  | .process i status =>
    match s.threads[i]? with
    | some (.processing trainer) =>
      some { s with threads := s.threads.set i (.offering ⟨some trainer, status⟩) }
    | _ => none
  | .offer i =>
    match s.threads[i]? with
    | some (.offering result) => some (s.afterOffer i (s.results.offer result 0))
    | _ => none

end TrainingExecutor

end Jumanpp.Core.Training
