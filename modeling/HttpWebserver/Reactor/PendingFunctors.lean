import HttpWebserver.Reactor.EventLoop

/-!
# Reactor — the order of the queued functors

`pendingFunctors_` is swapped out under the mutex and run without it, while other threads and the
functors themselves go on with `queueInLoop`.

* `FunctorQueue`: the functors of a loop, with the steps of `doPendingFunctors` and of
  `queueInLoop` and `runInLoop` in any thread;
* `step_balance`, `step_swapped`: one step keeps the order of the `push_back`s;
* **`executed_in_order`** — in every run, what was executed, the rest of the batch and
  `pendingFunctors_` are what was pushed, in that order, and a functor is in a batch that is
  swapped out after its `push_back`;
* `queue_run`: a run of `EventLoop` is such a run.
-/

namespace HttpWebserver

open Machine

/-- Where the loop thread is in `doPendingFunctors`. -/
inductive FunctorQueue.Position (F : Type*) where
  | outside
  /-- Before the critical section. -/
  | entered
  /-- At the functor with the given index. -/
  | running (functors : List F) (i : Nat)
deriving DecidableEq, Repr

/-- The functors of a loop, with the functor type `F` and the threads `T`. -/
structure FunctorQueue (F T : Type*) where
  threadId : T
  callingPendingFunctors : Bool
  pendingFunctors : List F
  position : FunctorQueue.Position F
deriving DecidableEq, Repr

namespace FunctorQueue

inductive Label (F T : Type*) where
  /-- A call, up to the end of its critical section. -/
  | queueInLoop (thread : T) (cb : F)
  | runInLoop (thread : T) (cb : F)
  /-- The next step of the loop thread. -/
  | doPendingFunctors
deriving DecidableEq, Repr

variable {F T : Type*}

def new (threadId : T) : FunctorQueue F T where
  threadId := threadId
  callingPendingFunctors := false
  pendingFunctors := []
  position := .outside

/-- What is left of the batch that was swapped out. -/
def rest (s : FunctorQueue F T) : List F :=
  match s.position with
  | .running functors i => functors.drop i
  | _ => []

/-- The loop thread runs handlers and functors, not `doPendingFunctors` itself. -/
def inCallback (s : FunctorQueue F T) : Bool :=
  match s.position with
  | .outside => true
  | .entered => false
  | .running functors i => i < functors.length

def pushBack (s : FunctorQueue F T) (cb : F) : FunctorQueue F T :=
  { s with pendingFunctors := s.pendingFunctors ++ [cb] }

def doPendingFunctors (s : FunctorQueue F T) : FunctorQueue F T :=
  match s.position with
  | .outside => { s with callingPendingFunctors := true, position := .entered }
  | .entered => { s with pendingFunctors := [], position := .running s.pendingFunctors 0 }
  | .running functors i =>
    if i < functors.length then { s with position := .running functors (i + 1) }
    -- an empty batch returns with the flag set
    else if functors.isEmpty then { s with position := .outside }
    else { s with callingPendingFunctors := false, position := .outside }

theorem doPendingFunctors_balance (s : FunctorQueue F T) :
    s.rest.head?.toList ++ (s.doPendingFunctors.rest ++ s.doPendingFunctors.pendingFunctors)
      = s.rest ++ s.pendingFunctors := by
  unfold doPendingFunctors rest
  cases hpos : s.position with
  | outside => rfl
  | entered => simp
  | running functors i =>
    by_cases hi : i < functors.length
    · -- the functor at the index is the head of what is left
      simp only [hi, if_true, List.head?_drop, List.getElem?_eq_getElem, Option.toList_some]
      rw [List.drop_eq_getElem_cons hi]
      rfl
    · have hnil : functors.drop i = [] := List.drop_eq_nil_of_le (Nat.le_of_not_lt hi)
      by_cases hempty : functors.isEmpty = true
      · simp [hi, hempty, hnil]
      · simp [hi, hempty, hnil]

variable [DecidableEq T]

def step (s : FunctorQueue F T) : Label F T → Option (FunctorQueue F T)
  | .queueInLoop thread cb =>
    if thread = s.threadId → s.inCallback then some (s.pushBack cb) else none
  | .runInLoop thread cb =>
    -- the loop thread calls the functor at once
    if thread = s.threadId then if s.inCallback then some s else none
    else some (s.pushBack cb)
  | .doPendingFunctors => some s.doPendingFunctors

/-! ## What a step does with the functors

Two balances of one step: between what is queued and what is executed, and between what is queued
and what is swapped out. -/

/-- The functor that the step pushes. -/
def pushed (s : FunctorQueue F T) : Label F T → List F
  | .queueInLoop _ cb => [cb]
  | .runInLoop thread cb => if thread = s.threadId then [] else [cb]
  | .doPendingFunctors => []

/-- The functor that the step executes. -/
def executed (s : FunctorQueue F T) : Label F T → List F
  | .doPendingFunctors => s.rest.head?.toList
  | _ => []

/-- The batch that the step swaps out. -/
def batches (s : FunctorQueue F T) : Label F T → List (List F)
  | .doPendingFunctors => if s.position matches .entered then [s.pendingFunctors] else []
  | _ => []

section Step

variable {s s' : FunctorQueue F T} {l : Label F T}

theorem step_balance (hs : step s l = some s') :
    executed s l ++ (s'.rest ++ s'.pendingFunctors)
      = (s.rest ++ s.pendingFunctors) ++ pushed s l := by
  cases l with
  | queueInLoop thread cb =>
    simp only [step] at hs
    split at hs
    · cases hs
      simp [executed, pushed, pushBack, rest]
    · cases hs
  | runInLoop thread cb =>
    simp only [step] at hs
    split at hs
    · next hself =>
      split at hs
      · cases hs
        simp [executed, pushed, hself]
      · cases hs
    · next hother =>
      cases hs
      simp [executed, pushed, hother, pushBack, rest]
  | doPendingFunctors =>
    cases hs
    simp only [executed, pushed, List.append_nil]
    exact doPendingFunctors_balance s

theorem step_swapped (hs : step s l = some s') :
    (batches s l).flatten ++ s'.pendingFunctors = s.pendingFunctors ++ pushed s l := by
  cases l with
  | queueInLoop thread cb =>
    simp only [step] at hs
    split at hs
    · cases hs
      rfl
    · cases hs
  | runInLoop thread cb =>
    simp only [step] at hs
    split at hs
    · next hself =>
      split at hs
      · cases hs
        -- in the loop's own thread `runInLoop` calls the functor at once
        simp [batches, pushed, hself]
      · cases hs
    · next hother =>
      cases hs
      simp [batches, pushed, hother, pushBack]
  | doPendingFunctors =>
    -- only the call at the entry swaps; the others run the batch or leave the round
    cases hs
    unfold batches pushed doPendingFunctors
    cases hpos : s.position with
    | outside => simp
    | entered => simp
    | running functors i =>
      by_cases hi : i < functors.length
      · simp [hi]
      · by_cases hempty : functors.isEmpty = true
        · simp [hi, hempty]
        · simp [hi, hempty]

end Step

/-! ## Runs -/

section Runs

variable {s s' : FunctorQueue F T} {ls : List (Label F T)}

theorem run_swapped (hrun : exec step s ls = some s') :
    (emitted step batches s ls).flatten ++ s'.pendingFunctors
      = s.pendingFunctors ++ emitted step pushed s ls := by
  rw [emitted_flatten]
  exact emitted_balance (fun _ _ _ hs => step_swapped hs) hrun

/-- A functor that is queued while some batches are swapped out is in a later one, behind all
that was pending. -/
theorem queued_later {thread : T} {cb : F} {ls₁ ls₂ : List (Label F T)}
    (hrun : exec step s (ls₁ ++ .queueInLoop thread cb :: ls₂) = some s') :
    ∃ u, exec step s ls₁ = some u ∧ ∃ later after,
      emitted step batches s (ls₁ ++ .queueInLoop thread cb :: ls₂)
        = emitted step batches s ls₁ ++ later ∧
      emitted step pushed s (ls₁ ++ .queueInLoop thread cb :: ls₂)
        = emitted step pushed s ls₁ ++ cb :: after ∧
      later.flatten ++ s'.pendingFunctors = u.pendingFunctors ++ cb :: after := by
  obtain ⟨u, hu, hrest⟩ := exec_append_eq_some.mp hrun
  obtain ⟨v, hv, -⟩ := Option.bind_eq_some_iff.mp hrest
  have hpushed : emitted step pushed u (.queueInLoop thread cb :: ls₂)
      = cb :: emitted step pushed v ls₂ := by
    rw [emitted_cons hv]
    rfl
  refine ⟨u, hu, emitted step batches u (.queueInLoop thread cb :: ls₂),
    emitted step pushed v ls₂, emitted_append hu _, ?_, ?_⟩
  · rw [emitted_append hu, hpushed]
  · rw [run_swapped hrest, hpushed]

/-- **Executed in order.** In every run: the functors already executed, the rest of the batch and
`pendingFunctors_` are the functors in the order of their `push_back`; what was executed and the
rest of the batch are the batches; and a queued functor is in none of the batches swapped out
before, but after all that was pending in the ones swapped out later or still pending. -/
theorem executed_in_order (threadId : T) {ls : List (Label F T)} {s : FunctorQueue F T}
    (hrun : exec step (new threadId) ls = some s) :
    emitted step executed (new threadId) ls ++ s.rest ++ s.pendingFunctors
        = emitted step pushed (new threadId) ls ∧
      (emitted step batches (new threadId) ls).flatten
        = emitted step executed (new threadId) ls ++ s.rest ∧
      ∀ ls₁ thread cb ls₂, ls = ls₁ ++ .queueInLoop thread cb :: ls₂ →
        ∃ u, exec step (new threadId) ls₁ = some u ∧ ∃ later after,
          emitted step batches (new threadId) ls
            = emitted step batches (new threadId) ls₁ ++ later ∧
          emitted step pushed (new threadId) ls
            = emitted step pushed (new threadId) ls₁ ++ cb :: after ∧
          later.flatten ++ s.pendingFunctors = u.pendingFunctors ++ cb :: after := by
  have horder : emitted step executed (new threadId) ls ++ (s.rest ++ s.pendingFunctors)
      = emitted step pushed (new threadId) ls :=
    emitted_balance (r := fun s => s.rest ++ s.pendingFunctors)
      (fun _ _ _ hs => step_balance hs) hrun
  refine ⟨(List.append_assoc _ _ _).trans horder, ?_, ?_⟩
  · apply (List.append_left_inj s.pendingFunctors).mp
    rw [run_swapped hrun, List.append_assoc, horder]
    rfl
  · rintro ls₁ thread cb ls₂ rfl
    exact queued_later hrun

/-- The functor 7 runs while another thread and the functor itself queue the next ones. -/
def reentrantRun : List (Label Nat Bool) :=
  [.queueInLoop false 7, .runInLoop false 8, .doPendingFunctors, .doPendingFunctors,
    .queueInLoop true 9, .queueInLoop false 10, .doPendingFunctors]

theorem executed_in_order_reentrant :
    ∃ s, exec step (new true) reentrantRun = some s ∧
      emitted step executed (new true) reentrantRun = [7] ∧ s.rest = [8] ∧
      s.pendingFunctors = [9, 10] ∧
      emitted step executed (new true) reentrantRun ++ s.rest ++ s.pendingFunctors
        = emitted step pushed (new true) reentrantRun :=
  ⟨_, rfl, by decide, by decide, by decide, (executed_in_order true rfl).1⟩

end Runs

end FunctorQueue

/-! ## The functors of an `EventLoop`

The queue was modelled by itself, over any functors and threads. A loop does with its functors
what the queue does, so the results on the queue are results on the loop. -/

namespace EventLoop

/-- The functors of the loop; the threads are named by their tickets, and the loop's is `none`. -/
def queue (s : EventLoop) : FunctorQueue Functor (Option Nat) where
  threadId := none
  callingPendingFunctors := s.callingPendingFunctors
  pendingFunctors := s.pendingFunctors
  position :=
    match s.position with
    | .running functors i => .running functors i
    | _ => .outside

/-- What a step of the loop does with the functors. -/
def queueLabels (s : EventLoop) : Label → List (FunctorQueue.Label Functor (Option Nat))
  | .loop =>
    match s.position with
    | .swapping => [.doPendingFunctors, .doPendingFunctors]
    | .running _ _ => [.doPendingFunctors]
    | _ => []
  | .queueInLoop => [.queueInLoop none ⟨none⟩]
  | .push => [.queueInLoop (some s.nextTicket) ⟨some s.nextTicket⟩]
  | _ => []

theorem wakeup_queue (s : EventLoop) : s.wakeup.queue = s.queue := by
  unfold wakeup
  split <;> rfl

theorem reportAll_queue {s s' : EventLoop} {events : List (Nat × BitVec 32)}
    (h : s.reportAll events = some s') : s'.position = s.position ∧ s'.queue = s.queue := by
  induction events generalizing s with
  | nil =>
    cases h
    exact ⟨rfl, rfl⟩
  | cons e events ih =>
    unfold reportAll at h
    split at h
    · cases h
    · split at h
      · cases h
      · obtain ⟨hpos, hqueue⟩ := ih h
        exact ⟨hpos, hqueue⟩

/-- A step of the loop's own thread. -/
theorem loopStep_queue {s s' : EventLoop} (hs : s.loopStep = some s') :
    exec FunctorQueue.step s.queue (s.queueLabels .loop) = some s'.queue := by
  unfold loopStep at hs
  cases hpos : s.position with
  | constructed =>
    rw [hpos] at hs
    cases hs
    simp [queue, queueLabels, hpos]
  | test =>
    simp only [hpos] at hs
    split at hs <;> cases hs <;> simp [queue, queueLabels, hpos]
  | polling => rw [hpos] at hs; cases hs
  | exited => rw [hpos] at hs; cases hs
  | dispatching =>
    simp only [hpos] at hs
    split at hs <;> cases hs
    · simp [queue, queueLabels, hpos]
    · split
      · unfold handleWakeup handleRead
        split <;> simp [queue, queueLabels, hpos]
      · simp [queue, queueLabels, hpos]
  | swapping =>
    rw [hpos] at hs
    cases hs
    simp [queue, queueLabels, hpos, FunctorQueue.step, FunctorQueue.doPendingFunctors]
  | running functors i =>
    simp only [hpos] at hs
    split at hs
    · next hi =>
      cases hs
      simp [queue, queueLabels, hpos, FunctorQueue.step, FunctorQueue.doPendingFunctors, hi]
    · next hi =>
      -- the batch is done; an empty one leaves the flag set
      split at hs <;> next hempty =>
        cases hs
        simp [queue, queueLabels, hpos, FunctorQueue.step, FunctorQueue.doPendingFunctors, hi,
          hempty]

theorem queueInLoop_queue (s : EventLoop) : s.queueInLoop.queue = s.queue.pushBack ⟨none⟩ := by
  unfold queueInLoop
  dsimp only
  split
  · exact wakeup_queue _
  · rfl

/-- A step of the loop or of another thread is at most two steps of the queue. -/
theorem queue_step {s s' : EventLoop} {l : Label} (hs : s.step l = some s') :
    exec FunctorQueue.step s.queue (s.queueLabels l) = some s'.queue := by
  cases l with
  | loop => exact loopStep_queue hs
  | poll events =>
    simp only [step] at hs
    split at hs
    · next hpos =>
      obtain ⟨t, ht, rfl⟩ := Option.map_eq_some_iff.mp hs
      obtain ⟨ht, hqueue⟩ := reportAll_queue ht
      have hsame : ({ t with position := .dispatching } : EventLoop).queue = t.queue := by
        simp [queue, ht, hpos]
      rw [hsame, hqueue]
      rfl
    · cases hs
  | queueInLoop =>
    simp only [step] at hs
    split at hs
    · next hin =>
      cases hs
      -- a handler runs in the loop thread, as a functor does
      have hcallback : s.queue.inCallback = true := by
        revert hin
        cases hpos : s.position <;> simp [inCallback, queue, FunctorQueue.inCallback, hpos]
      simp [queueLabels, FunctorQueue.step, hcallback, queueInLoop_queue]
    · cases hs
  | quitInLoop =>
    simp only [step] at hs
    split at hs <;> cases hs
    rfl
  -- the remaining steps do not touch the queue
  | channels poller =>
    simp only [step] at hs
    split at hs <;> cases hs
    rfl
  | push =>
    cases hs
    rfl
  | quit =>
    cases hs
    rfl
  | wakeup ticket =>
    simp only [step] at hs
    split at hs <;> cases hs
    exact congrArg some (wakeup_queue s).symm

/-- A run of the loop is a run of its queue, so `executed_in_order` speaks of it. -/
theorem queue_run {this wakeupFd : Nat} {ls : List Label} {s : EventLoop}
    (hrun : exec step (new this wakeupFd) ls = some s) :
    exec FunctorQueue.step (.new none) (emitted step queueLabels (new this wakeupFd) ls)
      = some s.queue :=
  exec_simulated (v := queue) (fun _ _ _ hs => queue_step hs) hrun

end EventLoop

end HttpWebserver
