import HttpWebserver.Lib.CondVar
import HttpWebserver.Lib.Machine
import HttpWebserver.Lib.MachineInt

/-!
# LogSystem — the latch

The model of `LogSystem/CountDownLatch.{h,cc}` for any threads, which may each wait any number of
times and count down any number of times.

* A critical section is one step, as it holds `mutex_`. In `cond_.wait` the mutex is free, and a
  thread comes back from it when it is notified, or for no reason.
* `count_` is an `int`: counting below its least value is undefined, so no step.
* **`opens_at_count`** — no wait returns before the count, and from then on none is left asleep.
-/

namespace HttpWebserver

open Machine CondVar

structure CountDownLatch (T : Type*) where
  count : Int
  waiter : T → Place

namespace CountDownLatch

variable {T : Type*}

/-- The constructor. -/
def new (count : Int) : CountDownLatch T where
  count := count
  waiter _ := .outside

def getCount (s : CountDownLatch T) : Int := s.count

inductive Label (T : Type*) where
  /-- The thread calls `wait`. -/
  | wait (thread : T)
  /-- The test of the loop in `wait`, with the mutex. -/
  | test (thread : T)
  /-- `cond_.wait` returns without a notification. -/
  | wake (thread : T)
  | countDown (thread : T)

/-- `count_` lets a wait return. -/
def Open (s : CountDownLatch T) : Prop := s.count ≤ 0

instance (s : CountDownLatch T) : Decidable s.Open := inferInstanceAs (Decidable (_ ≤ _))

/-- `countDown`. -/
def down (s : CountDownLatch T) : Option (CountDownLatch T) :=
  if -2 ^ 31 < s.count then
    let count := s.count - 1
    some { count := count, waiter := if count = 0 then notifyAll s.waiter else s.waiter }
  else none

variable [DecidableEq T]

/-- The thread goes on elsewhere. -/
def goto (s : CountDownLatch T) (thread : T) (p : Place) : CountDownLatch T :=
  { s with waiter := Function.update s.waiter thread p }

def step (s : CountDownLatch T) : Label T → Option (CountDownLatch T)
  | .wait thread =>
    if s.waiter thread = .outside ∨ s.waiter thread = .returned then some (s.goto thread .testing)
    else none
  | .test thread => ((s.waiter thread).test (decide s.Open)).map (s.goto thread)
  | .wake thread => (s.waiter thread).wake.map (s.goto thread)
  | .countDown thread =>
    -- a thread that counts down is not in a wait
    if s.waiter thread = .outside ∨ s.waiter thread = .returned then s.down else none

/-- How often the threads have counted down. -/
def downs : List (Label T) → Nat :=
  List.countP fun
    | .countDown _ => true
    | _ => false

/-- What keeps true: the count is what is left of its start, a wait has returned only from an open
latch, and an open latch has nobody asleep. -/
structure Inv (count : Int) (ls : List (Label T)) (s : CountDownLatch T) : Prop where
  count : s.count = count - downs ls
  returned : ∀ t, s.waiter t = .returned → s.Open
  awake : Awake s.Open s.waiter

section Step

variable {count : Int} {ls : List (Label T)} {s s' : CountDownLatch T} {l : Label T}

omit [DecidableEq T] in
theorem downs_concat (ls : List (Label T)) (l : Label T) :
    downs (ls ++ [l]) = downs ls + downs [l] := List.countP_append

/-- A step of a thread in its own wait. -/
theorem Inv.goto (h : Inv count ls s) (hl : downs [l] = 0) {thread : T} {p : Place}
    (hreturned : p = .returned → s.Open) (hawake : s.Open → p ≠ .asleep) :
    Inv count (ls ++ [l]) (s.goto thread p) := by
  refine ⟨?_, fun t ht => ?_, h.awake.move thread hawake⟩
  · show s.count = _
    rw [downs_concat, hl]
    exact h.count
  · change Function.update s.waiter thread p t = .returned at ht
    show s.Open
    rcases eq_or_ne t thread with rfl | hne
    · rw [Function.update_self] at ht
      exact hreturned ht
    · rw [Function.update_of_ne hne] at ht
      exact h.returned t ht

omit [DecidableEq T] in
theorem Inv.down (h : Inv count ls s) (thread : T) (hs : s.down = some s') :
    Inv count (ls ++ [.countDown thread]) s' := by
  simp only [CountDownLatch.down] at hs
  split at hs
  · cases hs
    have hopen : s.Open → s.count - 1 ≤ 0 := fun h => by
      unfold Open at h
      omega
    refine ⟨?_, fun t ht => ?_, ?_⟩
    · show s.count - 1 = _
      rw [downs_concat, h.count]
      show count - downs ls - 1 = count - ((downs ls + 1 : Nat) : Int)
      omega
    · -- a latch that was open stays open
      show s.count - 1 ≤ 0
      dsimp only at ht
      split at ht
      · exact hopen (h.returned t (Place.notified_eq_returned.mp ht))
      · exact hopen (h.returned t ht)
    · show Awake (s.count - 1 ≤ 0) _
      dsimp only
      split
      · exact notifyAll_awake
      · -- the latch opens at zero only, so it was open before
        next hne => exact h.awake.mono fun hle => show s.count ≤ 0 by omega
  · cases hs

theorem step_inv (h : Inv count ls s) (hs : s.step l = some s') : Inv count (ls ++ [l]) s' := by
  cases l with
  | wait thread =>
    simp only [step] at hs
    split at hs
    · cases hs
      exact h.goto rfl Place.noConfusion fun _ => Place.noConfusion
    · cases hs
  | test thread =>
    obtain ⟨p, hp, rfl⟩ := Option.map_eq_some_iff.mp hs
    obtain ⟨-, rfl⟩ := Place.test_eq_some.mp hp
    refine h.goto rfl (fun hret => ?_) fun hopen => by simp [hopen]
    by_contra hclosed
    simp [hclosed] at hret
  | wake thread =>
    obtain ⟨p, hp, rfl⟩ := Option.map_eq_some_iff.mp hs
    obtain ⟨-, rfl⟩ := Place.wake_eq_some.mp hp
    exact h.goto rfl Place.noConfusion fun _ => Place.noConfusion
  | countDown thread =>
    simp only [step] at hs
    split at hs
    · exact h.down thread hs
    · cases hs

theorem run_inv (hrun : exec step (new count) ls = some s) : Inv count ls s := by
  refine exec_induction (P := Inv count) ⟨?_, fun t ht => Place.noConfusion ht, ?_⟩
    (fun _ _ _ _ _ h hs => step_inv h hs) hrun
  · show count = count - ((0 : Nat) : Int)
    omega
  · exact fun _ t => Place.noConfusion

/-- **The latch opens at its count.** In every state of every run of any threads, with wakeups for
no reason: `count_` is the count less the calls of `countDown` so far. As long as these are fewer
than the count, no wait has returned, and a thread that tests goes to sleep. From then on no thread
is asleep, and every thread that tests returns. -/
theorem opens_at_count (hrun : exec step (new count) ls = some s) :
    s.getCount = count - downs ls ∧
      ((downs ls : Int) < count → (∀ t, s.waiter t ≠ .returned) ∧
        ∀ t s', s.step (.test t) = some s' → s'.waiter t = .asleep) ∧
      (count ≤ downs ls → (∀ t, s.waiter t ≠ .asleep) ∧
        ∀ t, s.waiter t = .testing → ∃ s', s.step (.test t) = some s' ∧
          s'.waiter t = .returned) := by
  have h := run_inv hrun
  have hopen : s.Open ↔ count ≤ downs ls := by
    unfold Open
    rw [h.count]
    omega
  refine ⟨h.count, fun hlt => ⟨fun t ht => ?_, fun t s' hs => ?_⟩,
    fun hle => ⟨h.awake (hopen.mpr hle), fun t ht => ?_⟩⟩
  · have hle := hopen.mp (h.returned t ht)
    omega
  · obtain ⟨p, hp, rfl⟩ := Option.map_eq_some_iff.mp hs
    obtain ⟨-, rfl⟩ := Place.test_eq_some.mp hp
    have hclosed : ¬ s.Open := fun h => absurd (hopen.mp h) (by omega)
    simp [goto, hclosed]
  · refine ⟨s.goto t .returned, ?_, Function.update_self ..⟩
    simp [step, ht, Place.test, hopen.mpr hle]

/-- Two threads wait for two calls of `countDown`; one of them wakes up between these. -/
def twoDowns : List (Label Nat) :=
  [.wait 0, .wait 1, .test 0, .countDown 2, .wake 0, .test 0, .test 1, .countDown 2, .test 1]

theorem opens_at_count_two :
    ∃ s : CountDownLatch Nat, exec step (new 2) twoDowns = some s ∧
      s.waiter 0 = .testing ∧ s.waiter 1 = .returned ∧ s.getCount = 2 - downs twoDowns ∧
      ((downs twoDowns : Int) < 2 → (∀ t, s.waiter t ≠ .returned) ∧
        ∀ t s', s.step (.test t) = some s' → s'.waiter t = .asleep) ∧
      (2 ≤ (downs twoDowns : Int) → (∀ t, s.waiter t ≠ .asleep) ∧
        ∀ t, s.waiter t = .testing → ∃ s', s.step (.test t) = some s' ∧
          s'.waiter t = .returned) :=
  ⟨_, rfl, rfl, rfl, opens_at_count (show exec step (new 2) twoDowns = _ from rfl)⟩

end Step

end CountDownLatch

end HttpWebserver
