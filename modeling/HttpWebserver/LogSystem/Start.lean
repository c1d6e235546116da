import HttpWebserver.LogSystem.CountDownLatch
import HttpWebserver.LogSystem.Stop
import HttpWebserver.ThreadPool.Thread

/-!
# LogSystem — how the logger starts

`LogState.step` lets `stop` be called once the back end is behind `latch_.countDown()`. Here is the
`start` that makes it wait: `running_` is set, the new thread goes through the handshake of
`Thread::start` and counts the latch down, and the creator waits at the latch.

* `Startup.step`: the handshake, the latch with its two threads, and the steps of `LogState`;
* **`start_refines`** — the logger so started does what `LogState` does: the assertion of
  `threadFunc` holds, `start` returns behind the latch, and no wakeup is lost;
* **`start_returns`** — no state of a run keeps `start` from returning.
-/

namespace HttpWebserver.LogSystem

open Machine CondVar

/-- The two threads at the latch. -/
inductive LatchUser where
  | creator
  | backEnd
deriving DecidableEq, Repr

/-- The logger with the threads of its `start`. -/
structure Startup where
  thread : Thread
  latch : CountDownLatch LatchUser
  /-- The back end is behind its assertion. -/
  asserted : Bool
  log : LogState

namespace Startup

def new : Startup where
  thread := Thread.new
  latch := CountDownLatch.new 1
  asserted := false
  log := LogState.new

inductive Label where
  /-- `running_ = true`, and `start` of the thread up to its `sem_wait`. -/
  | start
  /-- The rest of the handshake. -/
  | thread (l : Thread.Label)
  /-- The test of the loop in `latch_.wait()`. -/
  | test
  /-- The creator wakes up at the latch for no reason. -/
  | wake
  | assert
  | countDown
  /-- Any other step of the logger. -/
  | log (l : LogSystem.Label)

/-- `start` has returned. -/
def Returned (s : Startup) : Prop := s.latch.waiter .creator = .returned

instance (s : Startup) : Decidable s.Returned := inferInstanceAs (Decidable (_ = _))

/-- A step of the latch. -/
def onLatch (s : Startup) (l : CountDownLatch.Label LatchUser) : Option Startup :=
  (s.latch.step l).map fun latch => { s with latch := latch }

/-- A step of the logger. -/
def onLog (s : Startup) (l : LogSystem.Label) : Option Startup :=
  (s.log.step l).map fun log => { s with log := log }

/-- A step of the handshake; behind it the creator calls `latch_.wait()`. -/
def onThread (s : Startup) (l : Thread.Label) : Option Startup :=
  (s.thread.step l).bind fun thread =>
    let s := { s with thread := thread }
    if thread.start = .returned ∧ s.latch.waiter .creator = .outside then s.onLatch (.wait .creator)
    else some s

def step (s : Startup) : Label → Option Startup
  | .start => (s.onLog .start).bind fun s => s.onThread .start
  | .thread l => if l = .start then none else s.onThread l
  | .test => s.onLatch (.test .creator)
  | .wake => s.onLatch (.wake .creator)
  | .assert =>
    if s.thread.body = .running ∧ s.log.position = .spawned ∧ s.asserted = false then
      if s.log.logging.running then some { s with asserted := true } else none
    else none
  | .countDown =>
    if s.asserted ∧ s.log.position = .spawned then
      (s.onLatch (.countDown .backEnd)).bind fun s => s.onLog .backEnd
    else none
  | .log l =>
    match l with
    | .start => none
    | .backEnd => if s.log.Latched then s.onLog .backEnd else none
    -- `start` has returned before anyone calls `stop`
    | .stop => if s.Returned then s.onLog .stop else none
    | .append line => s.onLog (.append line)

/-- The step of `LogState` that a step is, if it is one. -/
def logLabels (_ : Startup) : Label → List LogSystem.Label
  | .start => [.start]
  | .countDown => [.backEnd]
  | .log l => [l]
  | _ => []

section Step

variable {s s' : Startup} {l : Label}

theorem onLatch_spec {k : CountDownLatch.Label LatchUser} (hs : s.onLatch k = some s') :
    ∃ latch, s.latch.step k = some latch ∧ s' = { s with latch } := by
  obtain ⟨latch, hlatch, rfl⟩ := Option.map_eq_some_iff.mp hs
  exact ⟨latch, hlatch, rfl⟩

theorem onLog_spec {k : LogSystem.Label} (hs : s.onLog k = some s') :
    ∃ log, s.log.step k = some log ∧ s' = { s with log } := by
  obtain ⟨log, hlog, rfl⟩ := Option.map_eq_some_iff.mp hs
  exact ⟨log, hlog, rfl⟩

/-- The handshake, and the call of `latch_.wait()` behind it. -/
theorem onThread_spec {k : Thread.Label} (hs : s.onThread k = some s') :
    ∃ thread, s.thread.step k = some thread ∧
      ((thread.start = .returned ∧ s.latch.waiter .creator = .outside ∧
          s' = { s with thread, latch := s.latch.goto .creator .testing }) ∨
        (¬ (thread.start = .returned ∧ s.latch.waiter .creator = .outside) ∧
          s' = { s with thread })) := by
  obtain ⟨thread, hthread, hs⟩ := Option.bind_eq_some_iff.mp hs
  refine ⟨thread, hthread, ?_⟩
  dsimp only at hs
  split at hs
  · next hentered =>
    obtain ⟨latch, hlatch, rfl⟩ := onLatch_spec hs
    simp only [CountDownLatch.step, hentered.2, true_or, if_true] at hlatch
    cases hlatch
    exact .inl ⟨hentered.1, hentered.2, rfl⟩
  · next hentered =>
    cases hs
    exact .inr ⟨hentered, rfl⟩

theorem assert_spec (hs : s.step .assert = some s') :
    s.thread.body = .running ∧ s' = { s with asserted := true } := by
  simp only [step] at hs
  split at hs
  · next hat =>
    split at hs
    · cases hs
      exact ⟨hat.1, rfl⟩
    · cases hs
  · cases hs

theorem countDown_spec (hs : s.step .countDown = some s') :
    s.asserted ∧ s.log.position = .spawned ∧
      ∃ latch log, s.latch.step (.countDown .backEnd) = some latch ∧
        s.log.step .backEnd = some log ∧ s' = { s with latch, log } := by
  simp only [step] at hs
  split at hs
  · next hat =>
    obtain ⟨t, ht, hs⟩ := Option.bind_eq_some_iff.mp hs
    obtain ⟨latch, hlatch, rfl⟩ := onLatch_spec ht
    obtain ⟨log, hlog, rfl⟩ := onLog_spec hs
    exact ⟨hat.1, hat.2, latch, log, hlatch, hlog, rfl⟩
  · cases hs

/-- A step of the logger, and when it is possible. -/
theorem log_spec {k : LogSystem.Label} (hs : s.step (.log k) = some s') :
    ∃ log, s.log.step k = some log ∧ s' = { s with log } ∧
      k ≠ .start ∧ (k = .backEnd → s.log.Latched) ∧ (k = .stop → s.Returned) := by
  cases k with
  | start => cases hs
  | append line =>
    obtain ⟨log, hlog, rfl⟩ := onLog_spec hs
    exact ⟨log, hlog, rfl, LogSystem.Label.noConfusion, LogSystem.Label.noConfusion,
      LogSystem.Label.noConfusion⟩
  | backEnd =>
    simp only [step] at hs
    split at hs
    · next hl =>
      obtain ⟨log, hlog, rfl⟩ := onLog_spec hs
      exact ⟨log, hlog, rfl, LogSystem.Label.noConfusion, fun _ => hl, LogSystem.Label.noConfusion⟩
    · cases hs
  | stop =>
    simp only [step] at hs
    split at hs
    · next hret =>
      obtain ⟨log, hlog, rfl⟩ := onLog_spec hs
      exact ⟨log, hlog, rfl, LogSystem.Label.noConfusion, LogSystem.Label.noConfusion,
        fun _ => hret⟩
    · cases hs

theorem step_refines (hs : s.step l = some s') :
    exec LogState.step s.log (s.logLabels l) = some s'.log := by
  cases l with
  | start =>
    obtain ⟨t, ht, hs⟩ := Option.bind_eq_some_iff.mp hs
    obtain ⟨log, hlog, rfl⟩ := onLog_spec ht
    obtain ⟨thread, -, ⟨-, -, rfl⟩ | ⟨-, rfl⟩⟩ := onThread_spec hs <;> simp [logLabels, hlog]
  | thread k =>
    simp only [step] at hs
    split at hs
    · cases hs
    · obtain ⟨thread, -, ⟨-, -, rfl⟩ | ⟨-, rfl⟩⟩ := onThread_spec hs <;> rfl
  | test =>
    obtain ⟨latch, -, rfl⟩ := onLatch_spec hs
    rfl
  | wake =>
    obtain ⟨latch, -, rfl⟩ := onLatch_spec hs
    rfl
  | assert =>
    obtain ⟨-, rfl⟩ := assert_spec hs
    rfl
  | countDown =>
    obtain ⟨-, -, latch, log, -, hlog, rfl⟩ := countDown_spec hs
    simp [logLabels, hlog]
  | log k =>
    obtain ⟨log, hlog, rfl, -⟩ := log_spec hs
    simp [logLabels, hlog]

/-! ## What keeps true

Where the creator, the new thread, the latch and the back end can be together. The count of the
latch is zero exactly behind the back end's `countDown`. -/

structure Inv (s : Startup) : Prop where
  unstarted : s.log.position = .unstarted ↔ s.thread.start = .uncalled
  unborn : s.thread.start = .uncalled → s.thread.body = .unborn
  entered : s.thread.start = .returned ↔ s.latch.waiter .creator ≠ .outside
  backEnd : s.latch.waiter .backEnd = .outside
  count : s.latch.count = if s.log.Latched then 0 else 1
  /-- `threadFunc` runs behind the handshake. -/
  behind : s.thread.body ≠ .running → ¬ s.log.Latched ∧ s.asserted = false
  running : s.log.position = .spawned → s.log.logging.running = true
  returned : s.Returned → s.log.Latched
  awake : s.log.Latched → s.latch.waiter .creator ≠ .asleep

theorem Inv.open_iff (h : Inv s) : s.latch.Open ↔ s.log.Latched := by
  unfold CountDownLatch.Open
  rw [h.count]
  split <;> simp [*]

theorem new_inv : Inv new where
  unstarted := by decide
  unborn _ := rfl
  entered := by decide
  backEnd := rfl
  count := rfl
  behind _ := by decide
  running h := Position.noConfusion h
  returned h := Place.noConfusion h
  awake _ := Place.noConfusion

theorem Inv.start (h : Inv s) (hs : s.step .start = some s') : Inv s' := by
  obtain ⟨t, ht, hs⟩ := Option.bind_eq_some_iff.mp hs
  obtain ⟨log, hlog, rfl⟩ := onLog_spec ht
  simp only [LogState.step] at hlog
  split at hlog
  · next hpos =>
    cases hlog
    have hcall := h.unstarted.mp hpos
    have hout : s.latch.waiter .creator = .outside := by
      by_contra hout
      rw [h.entered.mpr hout] at hcall
      cases hcall
    have hclosed : ¬ s.log.Latched := fun hl => hl.1 hpos
    obtain ⟨thread, hthread, hcases⟩ := onThread_spec hs
    simp only [Thread.step, hcall, if_true] at hthread
    cases hthread
    rcases hcases with ⟨hret, -⟩ | ⟨-, rfl⟩
    · cases hret
    · refine ⟨by simp, by simp, by simp [hout], h.backEnd, ?_, fun _ => ?_, fun _ => rfl,
        fun hret => absurd (hout.symm.trans hret) Place.noConfusion, ?_⟩
      · rw [h.count, if_neg hclosed]
        exact (if_neg (by simp [LogState.Latched])).symm
      · refine ⟨by simp [LogState.Latched], (h.behind ?_).2⟩
        simp [h.unborn hcall]
      · simp [LogState.Latched]
  · cases hlog

theorem Inv.thread (h : Inv s) {k : Thread.Label} (hs : s.step (.thread k) = some s') :
    Inv s' := by
  simp only [step] at hs
  split at hs
  · cases hs
  · next hk =>
    obtain ⟨thread, hthread, hcases⟩ := onThread_spec hs
    obtain ⟨hreturned, hrunning, hunborn⟩ := Thread.step_progress h.unborn hthread
    have hcall : thread.start = .uncalled ↔ s.thread.start = .uncalled := by
      rcases Thread.step_start hk hthread with hsame | ⟨hwait, hret⟩
      · rw [hsame]
      · simp [hwait, hret]
    have hbehind : thread.body ≠ .running → ¬ s.log.Latched ∧ s.asserted = false :=
      fun hb => h.behind fun hb' => hb (hrunning hb')
    rcases hcases with ⟨hret, hout, rfl⟩ | ⟨hnot, rfl⟩
    · refine ⟨h.unstarted.trans hcall.symm, hunborn, ?_, ?_, h.count, hbehind, h.running,
        fun hr => ?_, fun _ => ?_⟩
      · simp [hret, CountDownLatch.goto]
      · simp [CountDownLatch.goto, h.backEnd]
      · simp [Returned, CountDownLatch.goto] at hr
      · simp [CountDownLatch.goto]
    · refine ⟨h.unstarted.trans hcall.symm, hunborn, ⟨fun hret hout => hnot ⟨hret, hout⟩,
        fun hne => hreturned (h.entered.mpr hne)⟩, h.backEnd, h.count, hbehind, h.running,
        h.returned, h.awake⟩

/-- A step of the creator at the latch. -/
theorem Inv.goto (h : Inv s) {p : Place} (hne : s.latch.waiter .creator ≠ .outside)
    (hp : p ≠ .outside) (hreturned : p = .returned → s.log.Latched)
    (hawake : s.log.Latched → p ≠ .asleep) :
    Inv { s with latch := s.latch.goto .creator p } := by
  refine ⟨h.unstarted, h.unborn, ?_, ?_, h.count, h.behind, h.running, fun hr => ?_, fun hl => ?_⟩
  · simp [CountDownLatch.goto, hp, h.entered.mpr hne]
  · simp [CountDownLatch.goto, h.backEnd]
  · simp only [Returned, CountDownLatch.goto, Function.update_self] at hr
    exact hreturned hr
  · simp only [CountDownLatch.goto, Function.update_self]
    exact hawake hl

theorem Inv.test (h : Inv s) (hs : s.step .test = some s') : Inv s' := by
  obtain ⟨latch, hlatch, rfl⟩ := onLatch_spec hs
  obtain ⟨p, hp, rfl⟩ := Option.map_eq_some_iff.mp hlatch
  obtain ⟨htesting, rfl⟩ := Place.test_eq_some.mp hp
  rw [show decide s.latch.Open = decide s.log.Latched from decide_eq_decide.mpr h.open_iff]
  by_cases hlatched : s.log.Latched
  · simp only [hlatched, decide_true, if_true]
    exact h.goto (by simp [htesting]) Place.noConfusion (fun _ => hlatched)
      fun _ => Place.noConfusion
  · simp only [hlatched, decide_false, Bool.false_eq_true, if_false]
    exact h.goto (by simp [htesting]) Place.noConfusion Place.noConfusion
      fun hl => absurd hl hlatched

theorem Inv.wake (h : Inv s) (hs : s.step .wake = some s') : Inv s' := by
  obtain ⟨latch, hlatch, rfl⟩ := onLatch_spec hs
  obtain ⟨p, hp, rfl⟩ := Option.map_eq_some_iff.mp hlatch
  obtain ⟨hasleep, rfl⟩ := Place.wake_eq_some.mp hp
  exact h.goto (by simp [hasleep]) Place.noConfusion Place.noConfusion fun _ => Place.noConfusion

theorem Inv.assert (h : Inv s) (hs : s.step .assert = some s') : Inv s' := by
  obtain ⟨hbody, rfl⟩ := assert_spec hs
  exact ⟨h.unstarted, h.unborn, h.entered, h.backEnd, h.count, fun hb => absurd hbody hb,
    h.running, h.returned, h.awake⟩

theorem Inv.countDown (h : Inv s) (hs : s.step .countDown = some s') : Inv s' := by
  obtain ⟨hassert, hpos, latch, log, hlatch, hlog, rfl⟩ := countDown_spec hs
  have hclosed : ¬ s.log.Latched := fun hl => hl.2 hpos
  have hcount : s.latch.count = 1 := by rw [h.count, if_neg hclosed]
  have hrunning : s.thread.body = .running := by
    by_contra hb
    rw [(h.behind hb).2] at hassert
    cases hassert
  -- the latch opens and wakes the creator
  simp only [CountDownLatch.step, h.backEnd, true_or, if_true, CountDownLatch.down, hcount,
    show -2 ^ 31 < (1 : Int) by decide, sub_self] at hlatch
  cases hlatch
  simp only [LogState.step, LogState.backEndStep, hpos, h.running hpos, if_true] at hlog
  cases hlog
  have hlatched : LogState.Latched { s.log with position := .opening } := by
    simp [LogState.Latched]
  refine ⟨?_, h.unborn, ?_, ?_, (if_pos hlatched).symm, fun hb => absurd hrunning hb,
    by simp, fun _ => hlatched, fun _ => Place.notified_ne_asleep _⟩
  · have hstart := h.unstarted.not.mp (by simp [hpos])
    simp [hstart]
  · simpa [notifyAll] using h.entered
  · show (s.latch.waiter .backEnd).notified = _
    rw [h.backEnd]
    rfl

/-- A step of the logger that leaves the back end on the same side of its start. -/
theorem Inv.log (h : Inv s) {log : LogState}
    (hpos : (log.position = .unstarted ↔ s.log.position = .unstarted) ∧
      (log.position = .spawned ↔ s.log.position = .spawned))
    (hrunning : log.position = .spawned → log.logging.running = s.log.logging.running) :
    Inv { s with log := log } := by
  have hlatched : log.Latched ↔ s.log.Latched := and_congr hpos.1.not hpos.2.not
  refine ⟨hpos.1.trans h.unstarted, h.unborn, h.entered, h.backEnd, ?_, fun hb => ?_,
    fun hsp => ?_, fun hr => hlatched.mpr (h.returned hr), fun hl => h.awake (hlatched.mp hl)⟩
  · rw [h.count]
    exact if_congr hlatched.symm rfl rfl
  · exact ⟨hlatched.not.mpr (h.behind hb).1, (h.behind hb).2⟩
  · rw [hrunning hsp]
    exact h.running (hpos.2.mp hsp)

theorem append_keeps {log log' : LogState} {line : Line}
    (hs : log.step (.append line) = some log') :
    log'.position = log.position ∧ log'.logging.running = log.logging.running := by
  obtain ⟨a, ha, rfl⟩ := Option.map_eq_some_iff.mp hs
  obtain ⟨b, -, ha⟩ := Option.bind_eq_some_iff.mp ha
  obtain ⟨heap, -, ha⟩ := Option.bind_eq_some_iff.mp ha
  cases ha
  refine ⟨rfl, ?_⟩
  show (if _ then log.logging else log.logging.roll).running = _
  split
  · rfl
  · unfold AsyncLogging.roll
    dsimp only
    split <;> rfl

/-- The back end does not go back. -/
theorem backEnd_latched {log log' : LogState} (hl : log.Latched)
    (hs : log.step .backEnd = some log') : log'.Latched := by
  -- it is enough that the step ends in a position behind the latch
  have hmoves : ∀ pos, LogState.Moves log log' pos → pos ≠ .unstarted ∧ pos ≠ .spawned →
      log'.Latched := by
    intro pos hm hpos
    rw [LogState.Latched, hm.position]
    exact hpos
  simp only [LogState.step, LogState.backEndStep] at hs
  cases hpos : log.position with
  | unstarted => exact absurd hpos hl.1
  | spawned => exact absurd hpos hl.2
  | locking =>
    rw [hpos] at hs
    rcases LogState.lockBuffers_moves hs with ⟨-, hm⟩ | ⟨-, hm⟩ <;> exact hmoves _ hm (by decide)
  | waiting =>
    rw [hpos] at hs
    exact hmoves _ (LogState.swapBuffers_moves hs) (by decide)
  | writing i =>
    rw [hpos] at hs
    cases hq : log.locals.buffersToWrite[i]? with
    | some q =>
      simp only [hq] at hs
      exact hmoves _ (LogState.writeBuffer_moves hs) (by simp)
    | none =>
      simp only [hq] at hs
      exact hmoves _ (LogState.recycle_moves hs) (by decide)
  | finished =>
    rw [hpos] at hs
    cases hs
  | test =>
    rw [hpos] at hs
    cases hs
    unfold LogState.Latched
    dsimp only
    split <;> decide
  | _ =>
    rw [hpos] at hs
    cases hs
    exact ⟨Position.noConfusion, Position.noConfusion⟩

theorem Inv.logStep (h : Inv s) {k : LogSystem.Label} (hs : s.step (.log k) = some s') :
    Inv s' := by
  obtain ⟨log, hlog, rfl, hstart, hbackEnd, hstop⟩ := log_spec hs
  cases k with
  | start => exact absurd rfl hstart
  | append line =>
    obtain ⟨hpos, hrunning⟩ := append_keeps hlog
    exact h.log (by rw [hpos]; exact ⟨Iff.rfl, Iff.rfl⟩) fun _ => hrunning
  | backEnd =>
    have hl := hbackEnd rfl
    have hl' := backEnd_latched hl hlog
    exact h.log ⟨iff_of_false hl'.1 hl.1, iff_of_false hl'.2 hl.2⟩ fun hsp => absurd hsp hl'.2
  | stop =>
    have hl := h.returned (hstop rfl)
    rcases LogState.other_moves LogSystem.Label.noConfusion hlog with ⟨hpos, -⟩ | hpos
    · refine h.log (by rw [hpos]; exact ⟨Iff.rfl, Iff.rfl⟩) fun hsp => ?_
      exact absurd (hpos.symm.trans hsp) hl.2
    · exact absurd hpos hl.1

theorem step_inv (h : Inv s) (hs : s.step l = some s') : Inv s' := by
  cases l with
  | start => exact h.start hs
  | thread k => exact h.thread hs
  | test => exact h.test hs
  | wake => exact h.wake hs
  | assert => exact h.assert hs
  | countDown => exact h.countDown hs
  | log k => exact h.logStep hs

theorem step_handshake (h : s.thread.Handshake) (hl : l ≠ .thread .interrupt)
    (hs : s.step l = some s') : s'.thread.Handshake := by
  -- only the steps on the thread object touch the handshake
  have honThread : ∀ {t : Startup} {k : Thread.Label}, k ≠ .interrupt → t.thread.Handshake →
      t.onThread k = some s' → s'.thread.Handshake := by
    intro t k hk ht hs
    obtain ⟨thread, hthread, ⟨-, -, rfl⟩ | ⟨-, rfl⟩⟩ := onThread_spec hs <;>
      exact Thread.step_handshake ht hk hthread
  cases l with
  | start =>
    obtain ⟨t, ht, hs⟩ := Option.bind_eq_some_iff.mp hs
    obtain ⟨log, -, rfl⟩ := onLog_spec ht
    refine honThread Thread.Label.noConfusion ?_ hs
    exact h
  | thread k =>
    simp only [step] at hs
    split at hs
    · cases hs
    · exact honThread (fun hk => hl (hk ▸ rfl)) h hs
  | test =>
    obtain ⟨latch, -, rfl⟩ := onLatch_spec hs
    exact h
  | wake =>
    obtain ⟨latch, -, rfl⟩ := onLatch_spec hs
    exact h
  | assert =>
    obtain ⟨-, rfl⟩ := assert_spec hs
    exact h
  | countDown =>
    obtain ⟨-, -, latch, log, -, -, rfl⟩ := countDown_spec hs
    exact h
  | log k =>
    obtain ⟨log, -, rfl, -⟩ := log_spec hs
    exact h

end Step

/-! ## Runs

Progress is not a property of one step: `CanReturn` gives a continuation of steps that the two
threads take by themselves, and it is built from its end. -/

section Runs

variable {s s' : Startup} {l : Label} {ls : List Label}

theorem run_inv (hrun : exec step new ls = some s) : Inv s :=
  exec_invariant (I := Inv) (fun _ _ _ h hs => step_inv h hs) new_inv hrun

/-- **The logger as it is started.** In every run, with wakeups for no reason and waits that are cut
short: the logger does what `LogState` does; the assertion of `threadFunc` holds when the back end
gets to it; `start` has not returned before the back end is behind the latch, so that a `stop` may
be called; and behind the latch the creator is not asleep. -/
theorem start_refines (hrun : exec step new ls = some s) :
    exec LogState.step LogState.new (emitted step logLabels new ls) = some s.log ∧
      (s.thread.body = .running → s.log.position = .spawned → s.asserted = false →
        s.step .assert = some { s with asserted := true }) ∧
      (s.Returned → s.log.Latched) ∧
      (s.log.Latched → s.latch.waiter .creator ≠ .asleep) := by
  have h := run_inv hrun
  refine ⟨exec_simulated (v := log) (fun _ _ _ hs => step_refines hs) hrun,
    fun hbody hpos hassert => ?_, h.returned, h.awake⟩
  simp [step, hbody, hpos, hassert, h.running hpos]

/-- The logger is started from the outside of its `stop`, and the creator gets to it. -/
def startedLogger : List Label :=
  [.start, .thread (.tid 7), .thread .post, .assert, .thread .wait, .test, .countDown, .test,
    .log .backEnd, .log .stop]

theorem start_refines_started :
    ∃ s, exec step new startedLogger = some s ∧ s.Returned ∧
      exec LogState.step LogState.new (emitted step logLabels new startedLogger) = some s.log ∧
      (s.thread.body = .running → s.log.position = .spawned → s.asserted = false →
        s.step .assert = some { s with asserted := true }) ∧
      (s.Returned → s.log.Latched) ∧
      (s.log.Latched → s.latch.waiter .creator ≠ .asleep) :=
  ⟨_, rfl, by decide, start_refines (show exec step new startedLogger = _ from rfl)⟩

/-- A step that one of the two threads takes: no wakeup for no reason, and no interrupted wait. -/
def Owed (l : Label) : Prop := l ≠ .wake ∧ l ≠ .thread .interrupt

/-- The threads can go on, each by steps of its own, until `start` returns. -/
def CanReturn (s : Startup) : Prop :=
  ∃ ls t, exec step s ls = some t ∧ (∀ l ∈ ls, Owed l) ∧ t.Returned

theorem CanReturn.before (h : s'.CanReturn) (hl : Owed l) (hs : s.step l = some s') :
    s.CanReturn := by
  obtain ⟨ls, t, hrun, hls, ht⟩ := h
  refine ⟨l :: ls, t, ?_, List.forall_mem_cons.mpr ⟨hl, hls⟩, ht⟩
  rw [exec_cons, hs]
  exact hrun

/-- What holds as long as no wait of the handshake is cut short. -/
def Sound (s : Startup) : Prop := Inv s ∧ s.thread.Handshake

theorem Sound.step (h : s.Sound) (hl : l ≠ .thread .interrupt) (hs : s.step l = some s') :
    s'.Sound := ⟨step_inv h.1 hs, step_handshake h.2 hl hs⟩

/-- The back end is behind the latch: the creator waits for the semaphore, or looks at the latch. -/
theorem canReturn_latched (h : s.Sound) (hl : s.log.Latched) : s.CanReturn := by
  -- the latch is open, so the test of `wait` lets the creator through
  have htest : ∀ {t : Startup}, t.Sound → t.log.Latched → t.latch.waiter .creator = .testing →
      t.CanReturn := by
    intro t ht hl htesting
    have hopen := ht.1.open_iff.mpr hl
    refine ⟨[.test], { t with latch := t.latch.goto .creator .returned }, ?_, ?_, ?_⟩
    · simp [Startup.step, onLatch, CountDownLatch.step, htesting, Place.test, hopen]
    · simp [Owed]
    · simp [Returned, CountDownLatch.goto]
  cases hwaiter : s.latch.waiter .creator with
  | testing => exact htest h hl hwaiter
  | asleep => exact absurd hwaiter (h.1.awake hl)
  | returned => exact ⟨[], s, rfl, List.forall_mem_nil _, hwaiter⟩
  -- the creator has not entered `wait` yet: the semaphore is posted, and `start` returns first
  | outside =>
    have hrunning : s.thread.body = .running := by
      by_contra hb
      exact (h.1.behind hb).1 hl
    have hwait : s.thread.start = .waiting := by
      cases hstart : s.thread.start with
      | uncalled => exact absurd (h.1.unstarted.mpr hstart) hl.1
      | waiting => rfl
      | returned => exact absurd hwaiter (h.1.entered.mp hstart)
    have hstep : s.step (.thread .wait) = some { s with
        thread := { s.thread with sem := none, start := .returned }
        latch := s.latch.goto .creator .testing } := by
      simp [Startup.step, onThread, onLatch, Thread.step, hwait, h.2.posted hrunning hwait, hwaiter,
        CountDownLatch.step]
    refine CanReturn.before (htest (h.step (by simp) hstep) hl ?_) (by simp [Owed]) hstep
    simp [CountDownLatch.goto]

/-- The back end is at its assertion, or behind it. -/
theorem canReturn_running (h : s.Sound) (hbody : s.thread.body = .running) : s.CanReturn := by
  by_cases hl : s.log.Latched
  · exact canReturn_latched h hl
  · have hpos : s.log.position = .spawned := by
      by_contra hsp
      refine hl ⟨fun hun => ?_, hsp⟩
      have hunborn := h.1.unborn (h.1.unstarted.mp hun)
      rw [hbody] at hunborn
      cases hunborn
    have hcount : s.latch.count = 1 := by rw [h.1.count, if_neg hl]
    -- `countDown` opens the latch, and what remains is the case before
    have hcountDown : ∀ {t : Startup}, t.Sound → t.asserted → t.log = s.log → t.latch = s.latch →
        t.CanReturn := by
      intro t ht hassert hlog hlatch
      have hstep : t.step .countDown = some { t with
          latch := { count := 0, waiter := notifyAll t.latch.waiter }
          log := { t.log with position := .opening } } := by
        simp [Startup.step, onLatch, onLog, hassert, hlog, hpos, CountDownLatch.step, hlatch,
          h.1.backEnd, CountDownLatch.down, hcount, LogState.step, LogState.backEndStep,
          h.1.running hpos]
      refine CanReturn.before (canReturn_latched (ht.step (by simp) hstep) ?_) (by simp [Owed])
        hstep
      simp [LogState.Latched]
    -- `assert(running_)` comes before it
    cases hassert : s.asserted with
    | true => exact hcountDown h hassert rfl rfl
    | false =>
      have hstep : s.step .assert = some { s with asserted := true } := by
        simp [Startup.step, hbody, hpos, hassert, h.1.running hpos]
      exact CanReturn.before (hcountDown (h.step (by simp) hstep) rfl rfl rfl) (by simp [Owed])
        hstep

theorem canReturn_born (h : s.Sound) (hstart : s.thread.start ≠ .uncalled) : s.CanReturn := by
  have hnumbered : ∀ {t : Startup}, t.Sound → t.thread.body = .numbered → t.CanReturn := by
    intro t ht hbody
    have hwait := ht.2.early (.inr hbody)
    have hstep : t.step (.thread .post) = some { t with
        thread := { t.thread with sem := some 1, body := .running } } := by
      simp [Startup.step, onThread, Thread.step, hbody, hwait.1, hwait.2]
    exact CanReturn.before (canReturn_running (ht.step (by simp) hstep) rfl) (by simp [Owed]) hstep
  cases hbody : s.thread.body with
  | unborn => exact absurd hbody (h.2.body_ne hstart)
  | born =>
    have hwait := h.2.early (.inl hbody)
    have hstep : s.step (.thread (.tid 1)) = some { s with
        thread := { s.thread with tid := 1, body := .numbered } } := by
      simp [Startup.step, onThread, Thread.step, hbody, hwait.1]
    exact CanReturn.before (hnumbered (h.step (by simp) hstep) rfl) (by simp [Owed]) hstep
  | numbered => exact hnumbered h hbody
  | running => exact canReturn_running h hbody

/-- **`start` is never stuck.** From every state of every run in which no wait of the handshake is
cut short, the two threads can go on until `start` has returned, without a wakeup for no reason and
without a wait that is cut short. -/
theorem start_returns (hrun : exec step new ls = some s) (hls : .thread .interrupt ∉ ls) :
    s.CanReturn := by
  have h : s.Sound := exec_along (P := fun _ l => l ≠ .thread .interrupt) (I := fun _ s => s.Sound)
    ⟨new_inv, Thread.new_handshake⟩ (fun _ _ _ _ _ h hl hs => h.step hl hs) hrun
    ((along_inputs (R := fun l => l ≠ .thread .interrupt) hrun).mpr
      fun l hl heq => hls (heq ▸ hl))
  by_cases hstart : s.thread.start = .uncalled
  · have hpos := h.1.unstarted.mpr hstart
    have hstep : s.step .start = some { s with
        thread := { s.thread with started := true, sem := some 0, start := .waiting, body := .born }
        log := { s.log with logging := { s.log.logging with running := true }
                            position := .spawned } } := by
      simp [Startup.step, onLog, LogState.step, hpos, onThread, Thread.step, hstart]
    exact CanReturn.before (canReturn_born (h.step (by simp) hstep) (by simp)) (by simp [Owed])
      hstep
  · exact canReturn_born h hstart

/-- The creator is asleep at the latch, and the back end is behind its assertion. -/
def sleepingCreator : List Label :=
  [.start, .thread (.tid 7), .thread .post, .assert, .thread .wait, .test]

theorem start_returns_sleeping :
    ∃ s, exec step new sleepingCreator = some s ∧ .thread .interrupt ∉ sleepingCreator ∧
      s.latch.waiter .creator = .asleep ∧ s.CanReturn := by
  have hls : .thread .interrupt ∉ sleepingCreator := by simp [sleepingCreator]
  exact ⟨_, rfl, hls, rfl, start_returns (show exec step new sleepingCreator = _ from rfl) hls⟩

end Runs

end Startup

end HttpWebserver.LogSystem
