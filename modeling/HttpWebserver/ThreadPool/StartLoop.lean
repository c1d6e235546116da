import HttpWebserver.Lib.CondVar
import HttpWebserver.ThreadPool.EventLoopThread
import HttpWebserver.ThreadPool.Thread

/-!
# ThreadPool — `startLoop`

`EventLoopThread.step` lets the creator return from `startLoop` when it finds `loop_` set. Here is
how it gets there: the start of the new thread, and the wait at `cond_` until `loop_` is set.

* `StartLoop.step`: the handshake of `Thread::start`, the tests and wakeups of the creator, and the
  steps of `EventLoopThread`, in any order; `publish` notifies the creator;
* **`startLoop_refines`** — what the two threads do is a run of `EventLoopThread`, and no wakeup
  is lost;
* **`startLoop_stuck_iff`** — the creator waits for ever exactly when the loop ended before it
  looked: `threadFunc` takes `loop_` back when it returns.
-/

namespace HttpWebserver.EventLoopThread

open Machine CondVar

/-- The label is a step of the new thread in `threadFunc`. -/
def Label.inThreadFunc : Label → Bool
  | .construct .. | .callback .. | .publish | .loop _ | .reset | .destruct => true
  | .startLoop | .call _ | .destroy | .destroyQuit | .destroyWakeup | .join => false

/-- `startLoop` in the creator, with the new thread. -/
structure StartLoop where
  thread : Thread
  /-- The creator at `cond_`. -/
  place : Place
  inner : EventLoopThread

namespace StartLoop

def new : StartLoop where
  thread := Thread.new
  place := .outside
  inner := EventLoopThread.start

inductive Label where
  | thread (l : Thread.Label)
  /-- The test of `loop_`, with the mutex. -/
  | test
  /-- `cond_.wait` returns without a notification. -/
  | wake
  /-- Any step of `EventLoopThread` but the return from `startLoop`. -/
  | inner (l : EventLoopThread.Label)

/-- A step of `EventLoopThread`; `threadFunc` runs behind the handshake. -/
def innerStep (s : StartLoop) (l : EventLoopThread.Label) : Option StartLoop :=
  if l.inThreadFunc → s.thread.body = .running then
    (s.inner.step l).map fun inner => { s with inner := inner }
  else none

def step (s : StartLoop) : Label → Option StartLoop
  | .thread l => (s.thread.step l).map fun thread =>
    -- `start` has returned
    let entered := thread.start = .returned ∧ s.place = .outside
    { s with thread := thread, place := if entered then .testing else s.place }
  | .test => (s.place.test s.inner.published).bind fun p =>
    if p = .returned then
      (s.inner.step .startLoop).map fun inner => { s with inner := inner, place := p }
    else some { s with place := p }
  | .wake => s.place.wake.map fun p => { s with place := p }
  | .inner l =>
    match l with
    | .startLoop => none
    -- `notify_one`, and the creator is the only one to wait
    | .publish => (s.innerStep .publish).map fun s => { s with place := s.place.notified }
    | l => s.innerStep l

/-- The step of `EventLoopThread` that a step of the two threads is, if it is one. -/
def innerLabels (s : StartLoop) : Label → List EventLoopThread.Label
  | .test => if s.inner.published then [.startLoop] else []
  | .inner l => [l]
  | _ => []

/-- `startLoop` has not returned. -/
def Waiting (s : StartLoop) : Prop := s.inner.client = .startLoop

/-- `threadFunc` has taken `loop_` back. -/
def Gone (s : StartLoop) : Prop :=
  s.inner.threadFunc = .reset ∨ s.inner.threadFunc = .returned

end StartLoop

/-! ## Steps of `EventLoopThread`

What `startLoop` relies on: `loop_` is set while the new thread is in `loop`, by the publication
alone, and goes back to null behind the loop. -/

/-- What a step other than the return from `startLoop` does to `loop_` and to the places of the
two threads. -/
inductive Moves (s : EventLoopThread) (l : Label) (s' : EventLoopThread) : Prop where
  | stay (hfunc : s'.threadFunc = s.threadFunc) (hpublished : s'.published = s.published)
  | construct (hl : l.inThreadFunc) (hfunc : s.threadFunc = .entered)
      (hfunc' : s'.threadFunc = .constructed) (hpublished : s'.published = s.published)
  | publish (hl : l = .publish) (hfunc : s.threadFunc = .constructed)
      (hfunc' : s'.threadFunc = .looping) (hpublished : s'.published)
  | reset (hl : l.inThreadFunc) (hfunc' : s'.threadFunc = .reset)
      (hpublished : s'.published = false)
  | destruct (hl : l.inThreadFunc) (hfunc : s.threadFunc = .reset)
      (hfunc' : s'.threadFunc = .returned) (hpublished : s'.published = s.published)

/-- `loop_` is set while the new thread is in `loop`, and the creator returns to a loop that was
published. -/
structure Begun (s : EventLoopThread) : Prop where
  published : s.published ↔ s.threadFunc = .looping
  early : s.threadFunc = .entered ∨ s.threadFunc = .constructed → s.client = .startLoop

section Inner

variable {s s' : EventLoopThread} {l : Label}

theorem step_moves (hl : l ≠ .startLoop) (hs : s.step l = some s') :
    Moves s l s' ∧ (s'.client = .startLoop ↔ s.client = .startLoop) := by
  cases l with
  | construct this wakeupFd =>
    simp only [step] at hs
    split at hs
    · next h =>
      cases hs
      exact ⟨.construct rfl h rfl rfl, Iff.rfl⟩
    · cases hs
  -- the callback runs in the new thread and leaves `loop_` alone
  | callback poller functors =>
    simp only [step] at hs
    split at hs
    · obtain ⟨loop, -, hs⟩ := Option.bind_eq_some_iff.mp hs
      split at hs
      · cases hs
        exact ⟨.stay rfl rfl, Iff.rfl⟩
      · cases hs
    · cases hs
  | publish =>
    simp only [step] at hs
    split at hs
    · next h =>
      cases hs
      exact ⟨.publish rfl h rfl rfl, Iff.rfl⟩
    · cases hs
  | loop k =>
    simp only [step] at hs
    split at hs
    · obtain ⟨loop, loop', -, -, rfl⟩ := inLoop_spec hs
      exact ⟨.stay rfl rfl, Iff.rfl⟩
    · cases hs
  | reset =>
    simp only [step] at hs
    split at hs
    · cases hs
      exact ⟨.reset rfl rfl rfl, Iff.rfl⟩
    · cases hs
  | destruct =>
    simp only [step] at hs
    split at hs
    · next h =>
      cases hs
      exact ⟨.destruct rfl h rfl rfl, Iff.rfl⟩
    · cases hs
  | startLoop => exact absurd rfl hl
  | call k =>
    simp only [step] at hs
    split at hs
    · obtain ⟨loop, loop', -, -, rfl⟩ := inLoop_spec hs
      exact ⟨.stay rfl rfl, Iff.rfl⟩
    · cases hs
  | destroy =>
    simp only [step] at hs
    split at hs
    · next h =>
      cases hs
      -- the destructor calls `quit` only where `loop_` is not null
      refine ⟨.stay rfl rfl, ?_⟩
      cases s.published <;> simp [h]
    · cases hs
  | destroyQuit =>
    simp only [step] at hs
    split at hs
    · next h =>
      obtain ⟨loop, -, hs⟩ := Option.bind_eq_some_iff.mp hs
      obtain ⟨t, ht, rfl⟩ := Option.map_eq_some_iff.mp hs
      -- both stores of the destructor's `quit()` go to the loop itself
      obtain ⟨loop₀, loop', -, -, rfl⟩ := inLoop_spec ht
      exact ⟨.stay rfl rfl, by simp [h]⟩
    · cases hs
  | destroyWakeup =>
    simp only [step] at hs
    split at hs
    · next ticket h =>
      obtain ⟨t, ht, rfl⟩ := Option.map_eq_some_iff.mp hs
      obtain ⟨loop, loop', -, -, rfl⟩ := inLoop_spec ht
      exact ⟨.stay rfl rfl, by simp [h]⟩
    · cases hs
  | join =>
    simp only [step] at hs
    split at hs
    · next h =>
      cases hs
      exact ⟨.stay rfl rfl, by simp [h.1]⟩
    · cases hs

theorem start_begun : Begun start where
  published := by simp [start]
  early _ := rfl

theorem step_begun (h : Begun s) (hs : s.step l = some s') : Begun s' := by
  cases l with
  | startLoop =>
    simp only [step] at hs
    split at hs
    · next hreturns =>
      cases hs
      refine ⟨h.published, fun hearly => ?_⟩
      rcases hearly with hearly | hearly <;> simp [h.published.mp hreturns.2] at hearly
    · cases hs
  | _ =>
    obtain ⟨hmoves, hclient⟩ := step_moves Label.noConfusion hs
    cases hmoves with
    | stay hfunc hpub =>
      refine ⟨by rw [hpub, hfunc, h.published], fun hearly => hclient.mpr (h.early ?_)⟩
      rwa [hfunc] at hearly
    | construct _ hfunc hfunc' hpub =>
      refine ⟨by simp [hpub, hfunc', h.published, hfunc], fun _ => hclient.mpr (h.early ?_)⟩
      exact .inl hfunc
    | publish _ _ hfunc' hpub => exact ⟨by simp [hpub, hfunc'], by simp [hfunc']⟩
    | reset _ hfunc' hpub => exact ⟨by simp [hpub, hfunc'], by simp [hfunc']⟩
    | destruct _ hfunc hfunc' hpub =>
      exact ⟨by simp [hpub, hfunc', h.published, hfunc], by simp [hfunc']⟩

end Inner

namespace StartLoop

/-! ## The two threads

The invariant of the wait: the creator sleeps only where `loop_` is null, so the notification of
the publication is never missed. -/

/-- What keeps true in every run. -/
structure Inv (s : StartLoop) : Prop where
  unstarted : s.thread.start = .uncalled → s.thread.body = .unborn
  entered : s.thread.start = .returned ↔ s.place ≠ .outside
  waiting : s.Waiting ↔ s.place ≠ .returned
  /-- `threadFunc` runs behind the handshake. -/
  behind : s.thread.body ≠ .running → s.inner.threadFunc = .entered
  begun : s.inner.Begun
  awake : s.inner.published → s.place ≠ .asleep

section Step

variable {s s' : StartLoop} {l : Label}

theorem new_inv : Inv new where
  unstarted _ := rfl
  entered := by decide
  waiting := by simp [new, Waiting, EventLoopThread.start]
  behind _ := rfl
  begun := start_begun
  awake := by simp [new]

theorem innerStep_spec {k : EventLoopThread.Label} (hk : k ≠ .startLoop)
    (hs : s.innerStep k = some s') :
    ∃ inner, s.inner.step k = some inner ∧ s' = { s with inner := inner } ∧
      Moves s.inner k inner ∧ (s'.Waiting ↔ s.Waiting) ∧
      (k.inThreadFunc → s.thread.body = .running) := by
  simp only [innerStep] at hs
  split at hs
  · next hrunning =>
    obtain ⟨inner, hinner, rfl⟩ := Option.map_eq_some_iff.mp hs
    obtain ⟨hmoves, hclient⟩ := step_moves hk hinner
    exact ⟨inner, hinner, rfl, hmoves, hclient, hrunning⟩
  · cases hs

/-- A step of `EventLoopThread`, to which the publication adds the notification. -/
theorem inner_step {k : EventLoopThread.Label} (hs : s.step (.inner k) = some s') :
    k ≠ .startLoop ∧ ∃ t, s.innerStep k = some t ∧ s'.inner = t.inner ∧
      s'.thread = t.thread := by
  cases k with
  | startLoop => cases hs
  | publish =>
    obtain ⟨t, ht, rfl⟩ := Option.map_eq_some_iff.mp hs
    exact ⟨EventLoopThread.Label.noConfusion, t, ht, rfl, rfl⟩
  | _ => exact ⟨EventLoopThread.Label.noConfusion, s', hs, rfl, rfl⟩

/-- A step of `EventLoopThread` that is no publication. -/
theorem Inv.innerStep (h : Inv s) {k : EventLoopThread.Label} (hk : k ≠ .startLoop)
    (hpublish : k ≠ .publish) (hs : s.innerStep k = some s') : Inv s' := by
  obtain ⟨inner, hinner, rfl, hmoves, hwaiting, hrunning⟩ := innerStep_spec hk hs
  have hbegun := step_begun h.begun hinner
  cases hmoves with
  | stay hfunc hpub =>
    exact ⟨h.unstarted, h.entered, hwaiting.trans h.waiting, fun hb => hfunc.trans (h.behind hb),
      hbegun, fun hp => h.awake (hpub ▸ hp)⟩
  | construct hl _ _ hpub =>
    exact ⟨h.unstarted, h.entered, hwaiting.trans h.waiting, fun hb => absurd (hrunning hl) hb,
      hbegun, fun hp => h.awake (hpub ▸ hp)⟩
  | publish hl _ _ _ => exact absurd hl hpublish
  | reset hl _ hpub =>
    exact ⟨h.unstarted, h.entered, hwaiting.trans h.waiting, fun hb => absurd (hrunning hl) hb,
      hbegun, by simp [hpub]⟩
  | destruct hl _ _ hpub =>
    exact ⟨h.unstarted, h.entered, hwaiting.trans h.waiting, fun hb => absurd (hrunning hl) hb,
      hbegun, fun hp => h.awake (hpub ▸ hp)⟩

/-- The publication wakes the creator. -/
theorem Inv.publish (h : Inv s) (hs : s.innerStep .publish = some s') :
    Inv { s' with place := s'.place.notified } := by
  have hne : EventLoopThread.Label.publish ≠ .startLoop := EventLoopThread.Label.noConfusion
  obtain ⟨inner, hinner, rfl, -, hwaiting, hrunning⟩ := innerStep_spec hne hs
  refine ⟨h.unstarted, ?_, ?_, fun hb => absurd (hrunning rfl) hb, step_begun h.begun hinner,
    fun _ => by simp⟩
  · simpa using h.entered
  · rw [Ne, Place.notified_eq_returned]
    exact hwaiting.trans h.waiting

theorem Inv.test (h : Inv s) (hs : s.step .test = some s') : Inv s' := by
  obtain ⟨p, hp, hs⟩ := Option.bind_eq_some_iff.mp hs
  obtain ⟨htesting, rfl⟩ := Place.test_eq_some.mp hp
  have hreturned : s.thread.start = .returned := h.entered.mpr (by simp [htesting])
  cases hpub : s.inner.published with
  | true =>
    simp only [hpub, if_true] at hs
    obtain ⟨inner, hinner, rfl⟩ := Option.map_eq_some_iff.mp hs
    have hbegun := step_begun h.begun hinner
    simp only [EventLoopThread.step] at hinner
    split at hinner
    · cases hinner
      exact ⟨h.unstarted, by simp [hreturned], by simp [Waiting], h.behind, hbegun, by simp⟩
    · cases hinner
  | false =>
    simp [hpub] at hs
    subst hs
    exact ⟨h.unstarted, by simp [hreturned], by simpa [Waiting, htesting] using h.waiting,
      h.behind, h.begun, by simp [hpub]⟩

theorem Inv.wake (h : Inv s) (hs : s.step .wake = some s') : Inv s' := by
  obtain ⟨p, hp, rfl⟩ := Option.map_eq_some_iff.mp hs
  obtain ⟨hasleep, rfl⟩ := Place.wake_eq_some.mp hp
  exact ⟨h.unstarted, by simpa [hasleep] using h.entered,
    by simpa [Waiting, hasleep] using h.waiting, h.behind, h.begun, by simp⟩

theorem Inv.thread (h : Inv s) {k : Thread.Label} (hs : s.step (.thread k) = some s') : Inv s' := by
  obtain ⟨thread, hthread, rfl⟩ := Option.map_eq_some_iff.mp hs
  obtain ⟨hreturned, hrunning, hunstarted⟩ := Thread.step_progress h.unstarted hthread
  refine ⟨hunstarted, ?_, ?_, fun hb => h.behind fun hb' => hb (hrunning hb'), h.begun, ?_⟩
  · show thread.start = .returned ↔ (if _ then Place.testing else s.place) ≠ .outside
    split
    · next hentered => simp [hentered.1]
    · next hentered =>
      refine ⟨fun hret hout => hentered ⟨hret, hout⟩, fun hne => ?_⟩
      exact hreturned (h.entered.mpr hne)
  · show s.Waiting ↔ (if _ then Place.testing else s.place) ≠ .returned
    rw [h.waiting]
    split
    · next hentered => simp [hentered.2]
    · exact Iff.rfl
  · show s.inner.published → (if _ then Place.testing else s.place) ≠ .asleep
    split
    · exact fun _ => Place.noConfusion
    · exact h.awake

theorem step_inv (h : Inv s) (hs : s.step l = some s') : Inv s' := by
  cases l with
  | thread k => exact h.thread hs
  | test => exact h.test hs
  | wake => exact h.wake hs
  | inner k =>
    by_cases hk : k = .publish
    · subst hk
      obtain ⟨t, ht, rfl⟩ := Option.map_eq_some_iff.mp hs
      exact h.publish ht
    · cases k with
      | startLoop => cases hs
      | publish => exact absurd rfl hk
      | _ => exact h.innerStep EventLoopThread.Label.noConfusion hk hs

theorem step_refines (hs : s.step l = some s') :
    exec EventLoopThread.step s.inner (s.innerLabels l) = some s'.inner := by
  cases l with
  | thread k =>
    obtain ⟨thread, -, rfl⟩ := Option.map_eq_some_iff.mp hs
    rfl
  | test =>
    -- the test of `loop_` is `startLoop` when it finds it published, and no step otherwise
    obtain ⟨p, hp, hs⟩ := Option.bind_eq_some_iff.mp hs
    obtain ⟨-, rfl⟩ := Place.test_eq_some.mp hp
    cases hpub : s.inner.published with
    | true =>
      simp only [hpub, if_true] at hs
      obtain ⟨inner, hinner, rfl⟩ := Option.map_eq_some_iff.mp hs
      simp [innerLabels, hpub, hinner]
    | false =>
      simp [hpub] at hs
      subst hs
      simp [innerLabels, hpub]
  | wake =>
    obtain ⟨p, -, rfl⟩ := Option.map_eq_some_iff.mp hs
    rfl
  | inner k =>
    obtain ⟨-, t, ht, hinner, -⟩ := inner_step hs
    simp only [StartLoop.innerStep] at ht
    split at ht
    · obtain ⟨inner, hstep, rfl⟩ := Option.map_eq_some_iff.mp ht
      simp [innerLabels, hstep, hinner]
    · cases ht

end Step

/-! ## Runs

Each run is one of `EventLoopThread`, with the handshake and the wait added to it. The
continuation that lets `startLoop` return is given step by step: through the handshake, to the
publication, to the test. -/

section Runs

variable {s s' : StartLoop} {l : Label} {ls : List Label}

theorem run_inv (hrun : exec step new ls = some s) : Inv s :=
  exec_invariant (I := Inv) (fun _ _ _ h hs => step_inv h hs) new_inv hrun

/-- **`startLoop` returns to a loop that waits for it.** In every run, with wakeups for no reason
and waits that are cut short: the two threads do what `EventLoopThread` does; the creator is asleep
only while `loop_` is null, so the notification is not lost; and it does not return before
`threadFunc` has published its loop. -/
theorem startLoop_refines (hrun : exec step new ls = some s) :
    exec EventLoopThread.step EventLoopThread.start (emitted step innerLabels new ls)
        = some s.inner ∧
      (s.inner.published → s.place ≠ .asleep) ∧
      (s.inner.threadFunc = .entered ∨ s.inner.threadFunc = .constructed → s.Waiting) := by
  have h := run_inv hrun
  exact ⟨exec_simulated (v := inner) (fun _ _ _ hs => step_refines hs) hrun, h.awake, h.begun.early⟩

/-- The creator goes to sleep, and the publication wakes it. -/
def wokenCreator : List Label :=
  [.thread .start, .thread (.tid 7), .thread .post, .thread .wait, .test, .inner (.construct 1 9),
    .inner .publish, .test]

theorem startLoop_refines_woken :
    ∃ s, exec step new wokenCreator = some s ∧ ¬ s.Waiting ∧
      exec EventLoopThread.step EventLoopThread.start
        (emitted step innerLabels new wokenCreator) = some s.inner ∧
      (s.inner.published → s.place ≠ .asleep) ∧
      (s.inner.threadFunc = .entered ∨ s.inner.threadFunc = .constructed → s.Waiting) :=
  ⟨_, rfl, by simp [Waiting],
    startLoop_refines (show exec step new wokenCreator = _ from rfl)⟩

/-- Some continuation of the run lets `startLoop` return. -/
def CanReturn (s : StartLoop) : Prop := ∃ ls t, exec step s ls = some t ∧ ¬ t.Waiting

theorem CanReturn.before (h : s'.CanReturn) (hs : s.step l = some s') : s.CanReturn :=
  reaches_before hs h

/-- The creator looks at a `loop_` that is set. -/
theorem canReturn_published (h : Inv s) (hstart : s.thread.start = .returned) (hwait : s.Waiting)
    (hpub : s.inner.published) : s.CanReturn := by
  have htesting : s.place = .testing := by
    have hout := h.entered.mp hstart
    have hret := h.waiting.mp hwait
    have hawake := h.awake hpub
    cases hp : s.place with
    | testing => rfl
    | outside => exact absurd hp hout
    | asleep => exact absurd hp hawake
    | returned => exact absurd hp hret
  refine ⟨[.test], { s with place := .returned, inner := { s.inner with client := .returned } },
    ?_, by simp [Waiting]⟩
  have hclient : s.inner.client = .startLoop := hwait
  simp [step, htesting, Place.test, hpub, EventLoopThread.step, hclient]

/-- Behind the handshake, the new thread publishes its loop if it has not. -/
theorem canReturn_started (h : Inv s) (hstart : s.thread.start = .returned)
    (hbody : s.thread.body = .running) (hwait : s.Waiting) (hgone : ¬ s.Gone) : s.CanReturn := by
  have hconstructed : ∀ {t : StartLoop}, Inv t → t.thread = s.thread → t.Waiting →
      t.inner.threadFunc = .constructed → t.CanReturn := by
    intro t ht hthread hw hfunc
    have hstep : t.step (.inner .publish) = some { t with
        place := t.place.notified
        inner := { t.inner with published := true, threadFunc := .looping } } := by
      simp [step, StartLoop.innerStep, hthread, hbody, EventLoopThread.step, hfunc]
    refine CanReturn.before (canReturn_published (step_inv ht hstep) ?_ hw rfl) hstep
    rw [← hstart, ← hthread]
  cases hfunc : s.inner.threadFunc with
  | entered =>
    have hstep : s.step (.inner (.construct 0 0)) = some { s with
        inner := { s.inner with loop := some (.new 0 0), threadFunc := .constructed } } := by
      simp [step, StartLoop.innerStep, hbody, EventLoopThread.step, hfunc]
    exact CanReturn.before (hconstructed (step_inv h hstep) rfl hwait rfl) hstep
  | constructed => exact hconstructed h rfl hwait hfunc
  | looping => exact canReturn_published h hstart hwait (h.begun.published.mpr hfunc)
  | reset => exact absurd (.inl hfunc) hgone
  | returned => exact absurd (.inr hfunc) hgone

/-- Without a wait that is cut short, the new thread gets through the handshake. -/
theorem canReturn_waiting (h : Inv s) (hthread : s.thread.Handshake)
    (hstart : s.thread.start = .waiting) (hwait : s.Waiting) (hgone : ¬ s.Gone) :
    s.CanReturn := by
  have hout : s.place = .outside := by
    by_contra hout
    rw [h.entered.mpr hout] at hstart
    cases hstart
  -- from the posted semaphore on
  have hrunning : ∀ {t : StartLoop}, Inv t → t.thread.start = .waiting → t.thread.sem = some 1 →
      t.thread.body = .running → t.place = .outside → t.inner = s.inner → t.CanReturn := by
    intro t ht hstart hsem hbody hout hinner
    have hstep : t.step (.thread .wait) = some { t with
        thread := { t.thread with sem := none, start := .returned }, place := .testing } := by
      simp [step, Thread.step, hstart, hsem, hout]
    refine CanReturn.before (canReturn_started (step_inv ht hstep) rfl hbody ?_ ?_) hstep
    · simpa [Waiting, hinner] using hwait
    · simpa [Gone, hinner] using hgone
  -- one step earlier: the thread has its number and posts
  have hnumbered : ∀ {t : StartLoop}, Inv t → t.thread.start = .waiting → t.thread.sem = some 0 →
      t.thread.body = .numbered → t.place = .outside → t.inner = s.inner → t.CanReturn := by
    intro t ht hstart hsem hbody hout hinner
    have hstep : t.step (.thread .post) = some { t with
        thread := { t.thread with sem := some 1, body := .running } } := by
      simp [step, Thread.step, hstart, hsem, hbody]
    exact CanReturn.before (hrunning (step_inv ht hstep) hstart rfl rfl hout hinner) hstep
  cases hbody : s.thread.body with
  | unborn => exact absurd hbody (hthread.body_ne (by simp [hstart]))
  | born =>
    have hstep : s.step (.thread (.tid 1)) = some { s with
        thread := { s.thread with tid := 1, body := .numbered } } := by
      simp [step, Thread.step, hbody, hstart]
    have hsem := (hthread.early (.inl hbody)).2
    exact CanReturn.before (hnumbered (step_inv h hstep) hstart hsem rfl hout rfl) hstep
  | numbered => exact hnumbered h hstart (hthread.early (.inr hbody)).2 hbody hout rfl
  | running => exact hrunning h hstart (hthread.posted hbody hstart) hbody hout rfl

theorem canReturn_of_not_gone (h : Inv s) (hthread : s.thread.Handshake) (hwait : s.Waiting)
    (hgone : ¬ s.Gone) : s.CanReturn := by
  cases hstart : s.thread.start with
  | uncalled =>
    have hout : s.place = .outside := by
      by_contra hout
      rw [h.entered.mpr hout] at hstart
      cases hstart
    have hstep : s.step (.thread .start) = some { s with
        thread := { s.thread with started := true, sem := some 0, start := .waiting,
                                  body := .born } } := by
      simp [step, Thread.step, hstart, hout]
    have hthread' := Thread.step_handshake (l := .start) hthread (by decide)
      (show s.thread.step .start = some _ by simp [Thread.step, hstart]; rfl)
    exact CanReturn.before (canReturn_waiting (step_inv h hstep) hthread' rfl hwait hgone) hstep
  | waiting => exact canReturn_waiting h hthread hstart hwait hgone
  | returned => exact canReturn_started h hstart (hthread.running hstart) hwait hgone

/-- A loop that is gone does not come back. -/
theorem step_gone (h : Inv s) (hgone : s.Gone) (hwait : s.Waiting) (hs : s.step l = some s') :
    s'.Gone ∧ s'.Waiting := by
  have hpub : s.inner.published = false := by
    cases hp : s.inner.published with
    | false => rfl
    | true => rcases hgone with hgone | hgone <;> simp [h.begun.published.mp hp] at hgone
  cases l with
  | thread k =>
    obtain ⟨thread, -, rfl⟩ := Option.map_eq_some_iff.mp hs
    exact ⟨hgone, hwait⟩
  | test =>
    -- the creator finds a null pointer
    obtain ⟨p, hp, hs⟩ := Option.bind_eq_some_iff.mp hs
    obtain ⟨-, rfl⟩ := Place.test_eq_some.mp hp
    simp [hpub] at hs
    subst hs
    exact ⟨hgone, hwait⟩
  | wake =>
    obtain ⟨p, -, rfl⟩ := Option.map_eq_some_iff.mp hs
    exact ⟨hgone, hwait⟩
  | inner k =>
    obtain ⟨hk, t, ht, hinner, -⟩ := inner_step hs
    obtain ⟨inner, -, rfl, hmoves, hwaiting, -⟩ := innerStep_spec hk ht
    rw [Gone, Waiting, hinner]
    refine ⟨?_, hwaiting.mpr hwait⟩
    cases hmoves with
    | stay hfunc _ => exact hgone.imp hfunc.trans hfunc.trans
    | construct _ hfunc _ _ => rcases hgone with hgone | hgone <;> simp [hfunc] at hgone
    | publish _ hfunc _ _ => rcases hgone with hgone | hgone <;> simp [hfunc] at hgone
    | reset _ hfunc' _ => exact .inl hfunc'
    | destruct _ _ hfunc' _ => exact .inr hfunc'

theorem run_handshake (hrun : exec step new ls = some s) (hls : .thread .interrupt ∉ ls) :
    s.thread.Handshake := by
  refine exec_along (P := fun _ l => l ≠ .thread .interrupt) (I := fun _ s => s.thread.Handshake)
    Thread.new_handshake (fun _ s l t _ h hl hs => ?_) hrun
    ((along_inputs (R := fun l => l ≠ .thread .interrupt) hrun).mpr
      fun l hl heq => hls (heq ▸ hl))
  cases l with
  | thread k =>
    obtain ⟨thread, hthread, rfl⟩ := Option.map_eq_some_iff.mp hs
    exact Thread.step_handshake h (fun hk => hl (hk ▸ rfl)) hthread
  | test =>
    obtain ⟨p, -, hs⟩ := Option.bind_eq_some_iff.mp hs
    split at hs
    · obtain ⟨inner, -, rfl⟩ := Option.map_eq_some_iff.mp hs
      exact h
    · cases hs
      exact h
  | wake =>
    obtain ⟨p, -, rfl⟩ := Option.map_eq_some_iff.mp hs
    exact h
  | inner k =>
    obtain ⟨hk, t, ht, -, hthread⟩ := inner_step hs
    obtain ⟨inner, -, rfl, -⟩ := innerStep_spec hk ht
    rw [hthread]
    exact h

/-- **When `startLoop` never returns.** Take any run in which the creator is still in `startLoop`,
and no wait of the handshake was cut short. In no continuation does it return if and only if the new
thread has already taken `loop_` back: the loop was left before the creator looked. A continuation
is any run of the two threads, with wakeups for no reason among its steps. -/
theorem startLoop_stuck_iff (hrun : exec step new ls = some s) (hls : .thread .interrupt ∉ ls)
    (hwait : s.Waiting) :
    (∀ js t, exec step s js = some t → t.Waiting) ↔ s.Gone := by
  have h := run_inv hrun
  constructor
  · intro hstuck
    by_contra hgone
    obtain ⟨js, t, ht, hnot⟩ := canReturn_of_not_gone h (run_handshake hrun hls) hwait hgone
    exact hnot (hstuck js t ht)
  · intro hgone js t ht
    have hkeep := exec_invariant (I := fun s => Inv s ∧ s.Gone ∧ s.Waiting)
      (fun _ _ _ h hs => ⟨step_inv h.1 hs, step_gone h.1 h.2.1 h.2.2 hs⟩) ⟨h, hgone, hwait⟩ ht
    exact hkeep.2.2

/-- A functor of the callback leaves the loop while the creator is on its way to its test. -/
def lostLoop : List Label :=
  [.thread .start, .thread (.tid 7), .thread .post, .thread .wait, .test, .inner (.construct 1 9),
    .inner (.callback (EventLoop.new 1 9).poller [⟨none⟩]), .inner .publish,
    .inner (.loop .loop), .inner (.loop .loop), .inner (.loop (.poll [])), .inner (.loop .loop),
    .inner (.loop .loop), .inner (.loop .quitInLoop), .inner (.loop .loop), .inner (.loop .loop),
    .inner (.loop .loop), .inner .reset]

theorem startLoop_stuck_iff_lost :
    ∃ s, exec step new lostLoop = some s ∧ .thread .interrupt ∉ lostLoop ∧ s.Waiting ∧ s.Gone ∧
      ((∀ js t, exec step s js = some t → t.Waiting) ↔ s.Gone) := by
  have hls : .thread .interrupt ∉ lostLoop := by simp [lostLoop]
  exact ⟨_, rfl, hls, rfl, .inl rfl,
    startLoop_stuck_iff (show exec step new lostLoop = _ from rfl) hls rfl⟩

end Runs

end StartLoop

end HttpWebserver.EventLoopThread
