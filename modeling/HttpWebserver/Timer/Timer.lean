import HttpWebserver.Lib.BinaryHeap
import HttpWebserver.Lib.Machine
import HttpWebserver.Lib.MachineInt
import Mathlib.Logic.Function.Basic

/-!
# Timer — timers and their queue

The model of `Timer/Timer.{h,cc}`. The queue holds pointers, and compares what they point to when
it is used; `update` changes a timer that is in the queue.

* A timer is named by its address; `timer` is what stands there. `time` is the clock, in seconds.
* `time(nullptr) + timeout` is partial: a sum that does not fit is undefined.
* `getExpiredTime` returns a `size_t`, so a negative `expiredTime_` is compared as a large number.
* `expired_` is left out, as nothing reads it, and so is `~Timer`, which closes the connection when
  the last pointer to the timer goes.
-/

namespace HttpWebserver

open MachineInt

structure Timer where
  /-- The connection, if there is one. -/
  conn : Option Nat
  deleted : Bool
  expiredTime : Int
deriving DecidableEq, Repr

/-- `time(nullptr) + timeout`, for a `timeout` of type `int`. -/
def deadline (time : Nat) (timeout : Int) : Option Int :=
  if -2 ^ 31 ≤ timeout ∧ timeout < 2 ^ 31 ∧ time + timeout < 2 ^ 63 then some (time + timeout)
  else none

namespace Timer

def new (conn time : Nat) (timeout : Int) : Option Timer :=
  (deadline time timeout).map fun d => { conn := some conn, deleted := false, expiredTime := d }

def update (t : Timer) (time : Nat) (timeout : Int) : Option Timer :=
  (deadline time timeout).map fun d => { t with expiredTime := d }

def getExpiredTime (t : Timer) : Nat := toSizeT t.expiredTime

/-- `isExpired` marks the timer that it finds expired. -/
def isExpired (t : Timer) (time : Nat) : Bool × Timer :=
  if (time : Int) < t.expiredTime then (false, t) else (true, { t with deleted := true })

def clear (t : Timer) : Timer := { t with conn := none, deleted := true }

end Timer

structure TimerManager where
  time : Nat
  timer : Nat → Timer
  timerQueue : Array Nat
  /-- The address of the next `new Timer`. -/
  next : Nat

namespace TimerManager

def start (time : Nat) : TimerManager where
  time := time
  timer _ := { conn := none, deleted := false, expiredTime := 0 }
  timerQueue := #[]
  next := 0

/-- What `TimerCmp` compares. -/
def key (s : TimerManager) (p : Nat) : Nat := (s.timer p).getExpiredTime

/-- The timer at the address `p` changes. -/
def setTimer (s : TimerManager) (p : Nat) (node : Timer) : TimerManager :=
  { s with timer := Function.update s.timer p node }

def push (s : TimerManager) (p : Nat) : TimerManager :=
  { s with timerQueue := BinaryHeap.push s.key s.timerQueue p }

def addTimer (s : TimerManager) (conn : Nat) (timeout : Int) : Option TimerManager :=
  (Timer.new conn s.time timeout).map fun node =>
    push { s.setTimer s.next node with next := s.next + 1 } s.next

def pop (s : TimerManager) : TimerManager :=
  { s with timerQueue := BinaryHeap.pop s.key s.timerQueue }

/-- One round of the loop in `handleExpiredEvent`; `none` leaves the loop. -/
def expireTop (s : TimerManager) : Option TimerManager :=
  match s.timerQueue[0]? with
  | none => none
  | some p =>
    if (s.timer p).deleted then some s.pop
    else
      let (expired, node) := (s.timer p).isExpired s.time
      if expired then some (s.setTimer p node).pop else none

def expireLoop : Nat → TimerManager → TimerManager
  | 0, s => s
  | fuel + 1, s =>
    match s.expireTop with
    | none => s
    | some s => expireLoop fuel s

/-- Each round takes a timer out, so there are at most as many as the queue has timers. -/
def handleExpiredEvent (s : TimerManager) : TimerManager := expireLoop s.timerQueue.size s

inductive Label where
  | tick (time : Nat)
  | addTimer (conn : Nat) (timeout : Int)
  /-- `Timer::update` on a timer in the queue. -/
  | update (p : Nat) (timeout : Int)
  /-- `Timer::clear` on a timer in the queue. -/
  | clear (p : Nat)
  | handleExpiredEvent

def step (s : TimerManager) : Label → Option TimerManager
  | .tick time => if s.time ≤ time then some { s with time := time } else none
  | .addTimer conn timeout => s.addTimer conn timeout
  | .update p timeout =>
    if p ∈ s.timerQueue then ((s.timer p).update s.time timeout).map (s.setTimer p) else none
  | .clear p => if p ∈ s.timerQueue then some (s.setTimer p (s.timer p).clear) else none
  | .handleExpiredEvent => some s.handleExpiredEvent

/-- The expired timers are the ones that a call of `handleExpiredEvent` removes. -/
structure ExpiredRemoved (s s' : TimerManager) : Prop where
  kept : ∀ p ∈ s'.timerQueue, (s.time : Int) < (s'.timer p).expiredTime
  removed : ∀ p ∈ s.timerQueue, p ∉ s'.timerQueue →
    (s.timer p).deleted = true ∨ (s.timer p).expiredTime ≤ s.time

/-- The step, if it is a call of `handleExpiredEvent`, removes the expired timers. -/
def Exact (s : TimerManager) : Label → Prop
  | .handleExpiredEvent => ExpiredRemoved s s.handleExpiredEvent
  | _ => True

/-- The step, if it is an update, leaves the timer where it belongs in the heap: between its
parent and its children. -/
def InPlace (s : TimerManager) : Label → Prop
  | .update p timeout => ∀ d, deadline s.time timeout = some d →
    ∀ i, s.timerQueue[i]? = some p →
      (∀ q, i ≠ 0 → s.timerQueue[BinaryHeap.parent i]? = some q → s.key q ≤ toSizeT d) ∧
      ∀ j q, j ≠ 0 → BinaryHeap.parent j = i → s.timerQueue[j]? = some q → toSizeT d ≤ s.key q
  | _ => True

/-- If the step is a call of `handleExpiredEvent` and a time in the queue is negative, then all
timers with other times are deleted or expired. -/
def SignsAgree (s : TimerManager) : Label → Prop
  | .handleExpiredEvent => (∃ p ∈ s.timerQueue, (s.timer p).expiredTime < 0) →
    ∀ q ∈ s.timerQueue, 0 ≤ (s.timer q).expiredTime →
      (s.timer q).deleted = true ∨ (s.timer q).expiredTime ≤ s.time
  | _ => True

end TimerManager

end HttpWebserver
