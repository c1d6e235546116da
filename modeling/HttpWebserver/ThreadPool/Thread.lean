import HttpWebserver.Lib.Machine

/-!
# ThreadPool — a thread is started

The model of `Thread::start` in `ThreadPool/Thread.{h,cc}`: the thread that calls it, and the new
thread up to the call of `func_`.

* The semaphore is a local variable of `start`, which the new thread posts through a reference. A
  post when `start` has returned is undefined, so no step.
* `sem_wait` blocks at zero. While it blocks, a signal handler may cut it short; its result is not
  looked at.
* **`handshake_iff`** — `start` returns with `tid_` set, and the post finds its semaphore, as long
  as no wait is cut short.
-/

namespace HttpWebserver

open Machine

/-- Where the call of `start` is. -/
inductive Thread.StartCall where
  | uncalled
  /-- In `sem_wait`. -/
  | waiting
  | returned
deriving DecidableEq, Repr

/-- Where the new thread is. -/
inductive Thread.Body where
  | unborn
  | born
  /-- Between the store of `tid_` and the post. -/
  | numbered
  /-- At the call of `func_`, or in it. -/
  | running
deriving DecidableEq, Repr

structure Thread where
  started : Bool
  tid : Nat
  /-- The semaphore on the stack of `start`, while it is there. -/
  sem : Option Nat
  start : Thread.StartCall
  body : Thread.Body
deriving DecidableEq, Repr

namespace Thread

/-- The constructor. -/
def new : Thread where
  started := false
  tid := 0
  sem := none
  start := .uncalled
  body := .unborn

inductive Label where
  /-- `start`, up to `sem_wait`. -/
  | start
  /-- The store of `tid_`, with what `gettid` returns. -/
  | tid (t : Nat)
  | post
  /-- `sem_wait` and the return. -/
  | wait
  /-- `sem_wait` fails with `EINTR`, and `start` returns. -/
  | interrupt
deriving DecidableEq, Repr

def step (s : Thread) : Label → Option Thread
  | .start =>
    if s.start = .uncalled then
      some { s with started := true, sem := some 0, start := .waiting, body := .born }
    else none
  | .tid t =>
    if s.body = .born ∧ 0 < t then some { s with tid := t, body := .numbered } else none
  | .post =>
    if s.body = .numbered then s.sem.map fun v => { s with sem := some (v + 1), body := .running }
    else none
  | .wait =>
    match s.start, s.sem with
    | .waiting, some (_ + 1) => some { s with sem := none, start := .returned }
    | _, _ => none
  | .interrupt =>
    if s.start = .waiting ∧ s.sem = some 0 then some { s with sem := none, start := .returned }
    else none

/-- `start` returns behind the store of `tid_`, and the post finds the semaphore. -/
structure InStep (s : Thread) : Prop where
  tid : s.start = .returned → 0 < s.tid
  post : s.body = .numbered → s.sem ≠ none

/-- What the two threads know of each other, as long as no wait is cut short. -/
structure Handshake (s : Thread) : Prop where
  unborn : s.start = .uncalled ↔ s.body = .unborn
  unset : s.body = .unborn ∨ s.body = .born → s.tid = 0
  set : s.body = .numbered ∨ s.body = .running → 0 < s.tid
  early : s.body = .born ∨ s.body = .numbered → s.start = .waiting ∧ s.sem = some 0
  posted : s.body = .running → s.start = .waiting → s.sem = some 1

section Step

variable {s s' : Thread} {l : Label}

/-- Neither thread goes back, and a thread that was not started is not born. -/
theorem step_progress (h : s.start = .uncalled → s.body = .unborn) (hs : s.step l = some s') :
    (s.start = .returned → s'.start = .returned) ∧ (s.body = .running → s'.body = .running) ∧
      (s'.start = .uncalled → s'.body = .unborn) := by
  cases l with
  | start =>
    simp only [step] at hs
    split at hs
    · next hcall =>
      -- the call makes the thread, so `body` leaves `unborn` with it
      cases hs
      simp [hcall, h hcall]
    · cases hs
  | tid t =>
    simp only [step] at hs
    split at hs
    · next hborn =>
      cases hs
      simpa [hborn.1] using h
    · cases hs
  | post =>
    simp only [step] at hs
    split at hs
    · next hnumbered =>
      obtain ⟨v, -, rfl⟩ := Option.map_eq_some_iff.mp hs
      simpa [hnumbered] using h
    · cases hs
  | wait =>
    simp only [step] at hs
    split at hs
    · -- `start` returns, by the post or by an interrupted wait
      cases hs
      simp
    · cases hs
  | interrupt =>
    simp only [step] at hs
    split at hs
    · cases hs
      simp
    · cases hs

/-- Behind its first step, `start` only returns. -/
theorem step_start (hl : l ≠ .start) (hs : s.step l = some s') :
    s'.start = s.start ∨ (s.start = .waiting ∧ s'.start = .returned) := by
  cases l with
  | start => exact absurd rfl hl
  | tid t =>
    simp only [step] at hs
    split at hs
    · -- the thread's own steps do not end the call
      cases hs
      exact .inl rfl
    · cases hs
  | post =>
    simp only [step] at hs
    split at hs
    · obtain ⟨v, -, rfl⟩ := Option.map_eq_some_iff.mp hs
      exact .inl rfl
    · cases hs
  | wait =>
    simp only [step] at hs
    split at hs
    · next hwait _ =>
      cases hs
      exact .inr ⟨hwait, rfl⟩
    · cases hs
  | interrupt =>
    simp only [step] at hs
    split at hs
    · next hwait =>
      cases hs
      exact .inr ⟨hwait.1, rfl⟩
    · cases hs

theorem new_handshake : Handshake new where
  unborn := by decide
  unset _ := rfl
  set h := by rcases h with h | h <;> cases h
  early h := by rcases h with h | h <;> cases h
  posted h := Body.noConfusion h

/-- A thread that was started is past its birth. -/
theorem Handshake.body_ne (h : Handshake s) (hstart : s.start ≠ .uncalled) : s.body ≠ .unborn :=
  fun hbody => hstart (h.unborn.mpr hbody)

/-- Behind `start`, the new thread is behind its post. -/
theorem Handshake.running (h : Handshake s) (hstart : s.start = .returned) : s.body = .running := by
  cases hbody : s.body with
  | unborn => exact absurd hbody (h.body_ne (by simp [hstart]))
  | born => simp [(h.early (.inl hbody)).1] at hstart
  | numbered => simp [(h.early (.inr hbody)).1] at hstart
  | running => rfl

theorem Handshake.inStep (h : Handshake s) : s.InStep := by
  refine ⟨fun hstart => ?_, fun hbody => ?_⟩
  · exact h.set (.inr (h.running hstart))
  · simp [(h.early (.inr hbody)).2]

theorem step_handshake (h : Handshake s) (hl : l ≠ .interrupt) (hs : s.step l = some s') :
    Handshake s' := by
  cases l with
  | start =>
    simp only [step] at hs
    split at hs
    · next hcall =>
      cases hs
      have htid := h.unset (.inl (h.unborn.mp hcall))
      exact ⟨by simp, fun _ => htid, by simp, fun _ => ⟨rfl, rfl⟩, by simp⟩
    · cases hs
  | tid t =>
    simp only [step] at hs
    split at hs
    · next hborn =>
      cases hs
      have hwait := h.early (.inl hborn.1)
      exact ⟨by simp [hwait.1], by simp, fun _ => hborn.2, fun _ => hwait, by simp⟩
    · cases hs
  | post =>
    simp only [step] at hs
    split at hs
    · next hnumbered =>
      have hwait := h.early (.inr hnumbered)
      rw [hwait.2] at hs
      cases hs
      exact ⟨by simp [hwait.1], by simp, fun _ => h.set (.inl hnumbered), by simp, fun _ _ => rfl⟩
    · cases hs
  | wait =>
    simp only [step] at hs
    split at hs
    · next v hwait hsem =>
      cases hs
      -- the semaphore was posted
      have hrunning : s.body = .running := by
        cases hbody : s.body with
        | unborn => exact absurd hbody (h.body_ne (by simp [hwait]))
        | born => simp [(h.early (.inl hbody)).2] at hsem
        | numbered => simp [(h.early (.inr hbody)).2] at hsem
        | running => rfl
      exact ⟨by simp [hrunning], by simp [hrunning], fun _ => h.set (.inr hrunning),
        by simp [hrunning], by simp⟩
    · cases hs
  | interrupt => exact absurd rfl hl

/-- A wait that is cut short lets `start` return before the post. -/
theorem interrupt_breaks (h : Handshake s) (hs : s.step .interrupt = some s') : ¬ s'.InStep := by
  simp only [step] at hs
  split at hs
  · next hwait =>
    cases hs
    intro hin
    cases hbody : s.body with
    | unborn => exact absurd hbody (h.body_ne (by simp [hwait.1]))
    | born => exact absurd (hin.tid rfl) (by simp [h.unset (.inr hbody)])
    | numbered => exact hin.post hbody rfl
    | running => simp [h.posted hbody hwait.1] at hwait
  · cases hs

/-- **The handshake of `start`.** In every run, whatever the order of the two threads: in all states
`start` has not returned before `tid_` is set, and the semaphore is there when the new thread is
about to post it, if and only if no `sem_wait` of the run was cut short. -/
theorem handshake_iff {ls : List Label} (hrun : exec step new ls = some s) :
    (∀ js, js <+: ls → ∀ t, exec step new js = some t → t.InStep) ↔ .interrupt ∉ ls := by
  refine (always_iff_along (P := fun _ l => l ≠ .interrupt) (I := fun _ s => Handshake s)
    new_handshake (fun _ _ _ h => h.inStep) (fun _ _ _ _ _ h hl hs => step_handshake h hl hs)
    (fun _ _ _ _ _ h hl hs => ?_) hrun).trans ?_
  · rw [not_not.mp hl] at hs
    exact interrupt_breaks h hs
  · rw [along_inputs hrun]
    exact ⟨fun h hmem => h _ hmem rfl, fun h l hl heq => h (heq ▸ hl)⟩

/-- The new thread is ahead of the creator, which finds the semaphore posted. -/
def startedThread : List Label := [.start, .tid 7, .post, .wait]

theorem handshake_iff_started :
    ∃ s, exec step new startedThread = some s ∧ s.start = .returned ∧ s.tid = 7 ∧
      ((∀ js, js <+: startedThread → ∀ t, exec step new js = some t → t.InStep) ↔
        .interrupt ∉ startedThread) :=
  ⟨_, rfl, rfl, rfl, handshake_iff (show exec step new startedThread = _ from rfl)⟩

end Step

end Thread

end HttpWebserver
