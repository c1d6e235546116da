import Mathlib.Logic.Function.Basic

/-!
# Condition variables

Threads that wait for a predicate of a shared state, with a mutex and a condition variable:

```
lock(mutex);  while (!ready) cond.wait(mutex);
```

A test of the predicate and what follows it up to the next release of the mutex is one step.

* `Place`: where a thread is with such a wait, and `enter`, `test`, `wake` for its own steps;
* `notifyAll`: all sleepers go back to their tests;
* `Awake`: where the predicate holds, nobody sleeps. A step keeps it, except for a change that
  makes the predicate true and does not notify: the wakeup that is lost.
-/

namespace CondVar

/-- Where a thread is with the wait. -/
inductive Place where
  | outside
  /-- At the test, when the mutex is free: at the start of the wait, or woken. -/
  | testing
  /-- In `cond.wait`, without the mutex. -/
  | asleep
  | returned
deriving DecidableEq, Repr

namespace Place

/-- The test, with the mutex. -/
def test (ready : Bool) : Place → Option Place
  | testing => some (if ready then returned else asleep)
  | _ => none

/-- A wakeup without a notification. -/
def wake : Place → Option Place
  | asleep => some testing
  | _ => none

def notified : Place → Place
  | asleep => testing
  | p => p

@[simp] theorem notified_ne_asleep (p : Place) : p.notified ≠ asleep := by
  cases p <;> simp [notified]

@[simp] theorem notified_eq_outside {p : Place} : p.notified = outside ↔ p = outside := by
  cases p <;> simp [notified]

@[simp] theorem notified_eq_returned {p : Place} : p.notified = returned ↔ p = returned := by
  cases p <;> simp [notified]

theorem test_eq_some {ready : Bool} {p q : Place} :
    p.test ready = some q ↔ p = testing ∧ q = if ready then returned else asleep := by
  cases p <;> simp [test, eq_comm]

theorem wake_eq_some {p q : Place} : p.wake = some q ↔ p = asleep ∧ q = testing := by
  cases p <;> simp [wake, eq_comm]

end Place

variable {T : Type*}

/-- All sleepers go to their tests. -/
def notifyAll (w : T → Place) : T → Place := fun t => (w t).notified

/-- No wakeup is lost: where the predicate holds, nobody sleeps. -/
def Awake (ready : Prop) (w : T → Place) : Prop := ready → ∀ t, w t ≠ .asleep

section Awake

variable {ready ready' : Prop} {w : T → Place}

theorem notifyAll_awake : Awake ready (notifyAll w) := fun _ t => (w t).notified_ne_asleep

/-- The predicate may become false without a notification. -/
theorem Awake.mono (h : Awake ready w) (himp : ready' → ready) : Awake ready' w :=
  fun hready => h (himp hready)

/-- A thread moves on its own, and goes to sleep only where the predicate is false. -/
theorem Awake.move [DecidableEq T] (h : Awake ready w) (t : T) {p : Place}
    (hp : ready → p ≠ .asleep) : Awake ready (Function.update w t p) := by
  intro hready u
  rcases eq_or_ne u t with rfl | hne
  · rw [Function.update_self]
    exact hp hready
  · rw [Function.update_of_ne hne]
    exact h hready u

end Awake

end CondVar
