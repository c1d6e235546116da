import HttpWebserver.Reactor.EventLoop

/-!
# ThreadPool — a loop in its own thread

The model of `ThreadPool/EventLoopThread.{h,cc}`: `threadFunc` in the new thread and a client that
returns from `startLoop` and then calls `quit` on the loop, directly or in `~EventLoopThread`.

* `threadFunc` publishes `loop_` before it calls `loop`, and `loop` starts with `quit_ = false`.
* The callback registers channels and queues functors in a loop that does not run yet.
* A call on a loop that was destroyed is undefined, so no step.
* **`quit_remembered_iff`** — in a run, a `quit` is remembered as long as the loop has not
  returned if and only if every start of `loop` finds `quit_` false.
-/

namespace HttpWebserver

open Machine

/-- A step of the thread that runs the loop. -/
def EventLoop.Label.inLoopThread : EventLoop.Label → Bool
  | .loop | .poll _ | .queueInLoop | .quitInLoop | .channels _ => true
  | .push | .quit | .wakeup _ => false

namespace EventLoopThread

/-- Where the new thread is in `threadFunc`. -/
inductive ThreadFunc where
  | entered
  /-- Between the construction of the loop and its publication. -/
  | constructed
  /-- In `loop`, or before the call. -/
  | looping
  /-- After the critical section that resets `loop_`. -/
  | reset
  | returned
deriving DecidableEq, Repr

/-- Where the client is. -/
inductive Client where
  | startLoop
  | returned
  /-- In `~EventLoopThread`, after the test of `loop_`. -/
  | quitting
  /-- In its `quit`, after the store. -/
  | waking (ticket : Nat)
  | joining
  | destroyed
deriving DecidableEq, Repr

end EventLoopThread

structure EventLoopThread where
  /-- The local variable of `threadFunc`. -/
  loop : Option EventLoop
  /-- `loop_` points to the local variable. -/
  published : Bool
  exiting : Bool
  threadFunc : EventLoopThread.ThreadFunc
  client : EventLoopThread.Client

namespace EventLoopThread

/-- The client has called `start` in `startLoop`. -/
def start : EventLoopThread where
  loop := none
  published := false
  exiting := false
  threadFunc := .entered
  client := .startLoop

inductive Label where
  /-- The new thread constructs the loop, with the address and the descriptor of its
  `wakeupChannel_`. -/
  | construct (this wakeupFd : Nat)
  | callback (poller : EpollPoller) (functors : List Functor)
  | publish
  /-- A step of the new thread in `loop`. -/
  | loop (l : EventLoop.Label)
  | reset
  | destruct
  /-- The client finds `loop_` set and returns. -/
  | startLoop
  /-- A step of another thread in a call on the loop. -/
  | call (l : EventLoop.Label)
  /-- `~EventLoopThread`, up to the test of `loop_`. -/
  | destroy
  | destroyQuit
  | destroyWakeup
  | join

/-- The loop takes a step. -/
def inLoop (s : EventLoopThread) (l : EventLoop.Label) : Option EventLoopThread :=
  (s.loop.bind fun loop => loop.step l).map fun loop => { s with loop := some loop }

def step (s : EventLoopThread) : Label → Option EventLoopThread
  | .construct this wakeupFd =>
    if s.threadFunc = .entered then
      some { s with loop := some (.new this wakeupFd), threadFunc := .constructed }
    else none
  | .callback poller functors =>
    if s.threadFunc = .constructed then
      s.loop.bind fun loop =>
        if poller.interest loop.wakeupFd = loop.poller.interest loop.wakeupFd ∧
            poller.channels loop.wakeupFd = loop.poller.channels loop.wakeupFd then
          let pendingFunctors := loop.pendingFunctors ++ functors
          some { s with loop := some { loop with poller, pendingFunctors } }
        else none
    else none
  | .publish =>
    if s.threadFunc = .constructed then
      some { s with published := true, threadFunc := .looping }
    else none
  | .loop l => if s.threadFunc = .looping ∧ l.inLoopThread then s.inLoop l else none
  | .reset =>
    if s.threadFunc = .looping ∧ s.loop.any fun loop => loop.position = .exited then
      some { s with published := false, threadFunc := .reset }
    else none
  | .destruct =>
    if s.threadFunc = .reset then some { s with loop := none, threadFunc := .returned } else none
  | .startLoop =>
    if s.client = .startLoop ∧ s.published then some { s with client := .returned } else none
  | .call l => if s.client ≠ .startLoop ∧ ¬ l.inLoopThread then s.inLoop l else none
  | .destroy =>
    if s.client = .returned then
      -- a null pointer leaves nothing to do
      let client := if s.published then .quitting else .destroyed
      some { s with exiting := true, client := client }
    else none
  | .destroyQuit =>
    -- `loop_` is read again
    if s.client = .quitting ∧ s.published then
      s.loop.bind fun loop =>
        (s.inLoop .quit).map fun s => { s with client := .waking loop.nextTicket }
    else none
  | .destroyWakeup =>
    match s.client with
    | .waking ticket => (s.inLoop (.wakeup ticket)).map fun s => { s with client := .joining }
    | _ => none
  | .join =>
    if s.client = .joining ∧ s.threadFunc = .returned then some { s with client := .destroyed }
    else none

/-- Some step of the run is the store of a `quit`. -/
def QuitCalled (ls : List Label) : Prop :=
  .call .quit ∈ ls ∨ .loop .quitInLoop ∈ ls ∨ .destroyQuit ∈ ls

/-- The loop will leave its `while`, or has left it. -/
def Stopping (s : EventLoopThread) : Prop :=
  ∀ loop, s.loop = some loop → loop.quit = true ∨ loop.position = .exited

/-- What a `quit` that was called means for the state that is reached. -/
structure Remembered (ls : List Label) (s : EventLoopThread) : Prop where
  stopping : QuitCalled ls → s.Stopping
  /-- No step begins another `epoll_wait`. -/
  noPoll : QuitCalled ls → ∀ l s' loop loop', s.step l = some s' → s.loop = some loop →
    s'.loop = some loop' → loop'.position = .polling → loop.position = .polling
  /-- A join waits for a loop that knows it must stop. -/
  join : s.client = .joining → s.Stopping

/-- The start of `loop` finds `quit_` false. -/
def StartsUnquit (s : EventLoopThread) (l : Label) : Prop :=
  l = .loop .loop → ∀ loop, s.loop = some loop → loop.position = .constructed → loop.quit = false

end EventLoopThread

/-! ## What the loop does with `quit_`

`quit_` is written in two places: `loop()` clears it when it starts, and `quit()` sets it.
Everything else leaves it, and only the test of the `while` reads it. -/

namespace EventLoop

variable {s s' : EventLoop} {l : Label}

theorem wakeup_quit (s : EventLoop) : s.wakeup.quit = s.quit ∧ s.wakeup.position = s.position := by
  unfold wakeup
  split <;> exact ⟨rfl, rfl⟩

theorem reportAll_quit {events : List (Nat × BitVec 32)} (h : s.reportAll events = some s') :
    s'.quit = s.quit := by
  induction events generalizing s with
  | nil =>
    cases h
    rfl
  | cons e events ih =>
    unfold reportAll at h
    split at h
    · cases h
    · split at h
      · cases h
      · have hquit := ih h
        exact hquit

/-- How `quit_` and the place of the loop thread change. -/
inductive QuitStep (s : EventLoop) (l : Label) (s' : EventLoop) : Prop where
  /-- The start of `loop` forgets what was stored. -/
  | start (hl : l = .loop) (h : s.position = .constructed) (h' : s'.quit = false)
      (hpos : s'.position = .test)
  | exit (hl : l = .loop) (h : s.position = .test) (hquit : s.quit = true)
      (hpos : s'.position = .exited)
  | poll (hl : l = .loop) (h : s.position = .test) (hquit : s.quit = false)
      (hquit' : s'.quit = false)
  /-- The loop thread is elsewhere in `loop`. -/
  | inside (h : s.position ≠ .exited) (hquit : s'.quit = s.quit) (hpos : s'.position ≠ .polling)
  /-- A step of another thread, or of a callback. -/
  | beside (hpos : s'.position = s.position) (hquit : s'.quit = s.quit)
  | store (hl : l = .quit ∨ l = .quitInLoop) (hpos : s'.position = s.position)
      (hquit : s'.quit = true)

theorem loop_quitStep (hs : s.loopStep = some s') : QuitStep s .loop s' := by
  simp only [loopStep] at hs
  cases hpos : s.position with
  | constructed =>
    rw [hpos] at hs
    cases hs
    exact .start rfl hpos rfl rfl
  | test =>
    simp only [hpos] at hs
    -- the test of `quit_` is the only way out
    split at hs
    · next hquit =>
      cases hs
      exact .exit rfl hpos hquit rfl
    · next hquit =>
      cases hs
      exact .poll rfl hpos (Bool.of_not_eq_true hquit) (Bool.of_not_eq_true hquit)
  | polling => rw [hpos] at hs; cases hs
  | exited => rw [hpos] at hs; cases hs
  | dispatching =>
    -- the only handler of `loop()` itself; one that calls `quit()` is a step of its own
    have hin : s.position ≠ .exited := by simp [hpos]
    simp only [hpos] at hs
    split at hs
    · cases hs
      exact .inside hin rfl (by simp)
    · cases hs
      split
      · unfold handleWakeup handleRead
        split
        · exact .inside hin rfl (by simp [hpos])
        · exact .inside hin rfl (by simp [hpos])
      · exact .inside hin rfl (by simp [hpos])
  | swapping =>
    rw [hpos] at hs
    cases hs
    exact .inside (by simp [hpos]) rfl (by simp)
  | running functors i =>
    have hin : s.position ≠ .exited := by simp [hpos]
    simp only [hpos] at hs
    split at hs
    · cases hs
      exact .inside hin rfl (by simp)
    · split at hs
      · cases hs
        exact .inside hin rfl (by simp)
      · cases hs
        exact .inside hin rfl (by simp)

theorem step_quitStep (hs : s.step l = some s') : QuitStep s l s' := by
  cases l with
  | loop => exact loop_quitStep hs
  | poll events =>
    simp only [step] at hs
    split at hs
    · next hpos =>
      obtain ⟨t, ht, rfl⟩ := Option.map_eq_some_iff.mp hs
      have hquit := reportAll_quit ht
      exact .inside (by simp [hpos]) hquit (by simp)
    · cases hs
  | queueInLoop =>
    simp only [step] at hs
    split at hs
    · cases hs
      unfold queueInLoop
      dsimp only
      -- in the loop thread while functors run, with a wakeup
      split
      · have hwakeup := wakeup_quit { s with pendingFunctors := s.pendingFunctors ++ [⟨none⟩] }
        exact .beside hwakeup.2 hwakeup.1
      · exact .beside rfl rfl
    · cases hs
  | quitInLoop =>
    simp only [step] at hs
    split at hs
    · cases hs
      -- `quit()` from a functor is a store like one from outside
      exact .store (.inr rfl) rfl rfl
    · cases hs
  | channels poller =>
    simp only [step] at hs
    split at hs
    · cases hs
      exact .beside rfl rfl
    · cases hs
  | push =>
    cases hs
    exact .beside rfl rfl
  | quit =>
    cases hs
    exact .store (.inl rfl) rfl rfl
  | wakeup ticket =>
    simp only [step] at hs
    split at hs
    · cases hs
      exact .beside (wakeup_quit s).2 (wakeup_quit s).1
    · cases hs

theorem quit_stored (hl : l = .quit ∨ l = .quitInLoop) (hs : s.step l = some s') :
    s'.quit = true := by
  rcases hl with rfl | rfl
  · cases hs
    rfl
  · simp only [step] at hs
    split at hs
    · cases hs
      rfl
    · cases hs

/-- The loop goes on to stop, except at a start that finds a stored `quit`. -/
theorem QuitStep.stopping (h : QuitStep s l s') (hs : s.quit = true ∨ s.position = .exited)
    (hsafe : l = .loop → s.position = .constructed → s.quit = false) :
    s'.quit = true ∨ s'.position = .exited := by
  cases h with
  | start hl hstart _ _ =>
    rcases hs with hs | hs
    · rw [hsafe hl hstart] at hs
      cases hs
    · rw [hstart] at hs
      cases hs
  | exit _ _ _ hpos => exact .inr hpos
  | poll _ htest hquit _ =>
    rcases hs with hs | hs
    · rw [hquit] at hs
      cases hs
    · rw [htest] at hs
      cases hs
  | inside hin hquit _ => exact .inl (hquit.trans (hs.resolve_right hin))
  | beside hpos hquit =>
    rw [hpos, hquit]
    exact hs
  | store _ _ hquit => exact .inl hquit

theorem QuitStep.polling (h : QuitStep s l s') (hs : s.quit = true ∨ s.position = .exited)
    (hpoll : s'.position = .polling) : s.position = .polling := by
  cases h with
  | start _ _ _ hpos =>
    rw [hpoll] at hpos
    cases hpos
  | exit _ _ _ hpos =>
    rw [hpoll] at hpos
    cases hpos
  | poll _ htest hquit _ => simp [hquit, htest] at hs
  | inside _ _ hpos => exact absurd hpoll hpos
  | beside hpos _ => exact hpos.symm.trans hpoll
  | store _ hpos _ => exact hpos.symm.trans hpoll

theorem QuitStep.quit_set (h : QuitStep s l s') (hquit : s'.quit = true) :
    s.quit = true ∨ l = .quit ∨ l = .quitInLoop := by
  cases h with
  | start _ _ h' _ =>
    rw [hquit] at h'
    cases h'
  | exit _ _ hquit _ => exact .inl hquit
  | poll _ _ _ hquit' =>
    rw [hquit] at hquit'
    cases hquit'
  | inside _ hsame _ => exact .inl (hsame.symm.trans hquit)
  | beside _ hsame => exact .inl (hsame.symm.trans hquit)
  | store hl _ _ => exact .inr hl

end EventLoop

/-! ## The thread

The steps of `threadFunc`, of the client and of the destructor, by what they do to the loop. A
step of the loop is one of the section above; the others construct it or leave its flag alone. -/

namespace EventLoopThread

section Step

variable {s s' : EventLoopThread} {ls : List Label} {l : Label}

theorem inLoop_spec {k : EventLoop.Label} (h : s.inLoop k = some s') :
    ∃ loop loop', s.loop = some loop ∧ loop.step k = some loop' ∧
      s' = { s with loop := some loop' } := by
  obtain ⟨loop', hbind, rfl⟩ := Option.map_eq_some_iff.mp h
  obtain ⟨loop, hloop, hstep⟩ := Option.bind_eq_some_iff.mp hbind
  exact ⟨loop, loop', hloop, hstep, rfl⟩

/-- The client has stored the `quit` of the destructor and has not returned from the join. -/
def Leaving (s : EventLoopThread) : Prop := s.client = .joining ∨ ∃ t, s.client = .waking t

theorem Leaving.congr {s s' : EventLoopThread} (h : s'.Leaving) (hclient : s'.client = s.client) :
    s.Leaving := by
  unfold Leaving at h ⊢
  rw [← hclient]
  exact h

/-- What a step of the new thread or of the client does to the loop. -/
inductive LoopStep (s : EventLoopThread) (l : Label) (s' : EventLoopThread) : Prop where
  | construct (h : s.threadFunc = .entered) (hcalled : ¬ QuitCalled [l])
      (hloop : ∀ loop, s'.loop = some loop → loop.quit = false ∧ loop.position = .constructed)
      (hentered : s'.threadFunc ≠ .entered) (hleaving : s'.Leaving → s.Leaving)
  | step (k : EventLoop.Label) (loop loop' : EventLoop) (hloop : s.loop = some loop)
      (hloop' : s'.loop = some loop') (hstep : loop.step k = some loop')
      (hcalled : QuitCalled [l] ↔ k = .quit ∨ k = .quitInLoop) (hk : k = .loop → l = .loop .loop)
      (hentered : s'.threadFunc = s.threadFunc) (hleaving : s'.Leaving → s.Leaving ∨ QuitCalled [l])
  /-- The loop is destroyed, or its `quit_` and the place of its thread stay. -/
  | keep (hcalled : ¬ QuitCalled [l])
      (hloop : ∀ loop', s'.loop = some loop' → ∃ loop, s.loop = some loop ∧
        loop'.quit = loop.quit ∧ loop'.position = loop.position)
      (hentered : s'.threadFunc = .entered → s.threadFunc = .entered)
      (hleaving : s'.Leaving → s.Leaving)

theorem keep_loop (hloop : s'.loop = s.loop) : ∀ loop', s'.loop = some loop' →
    ∃ loop, s.loop = some loop ∧ loop'.quit = loop.quit ∧ loop'.position = loop.position :=
  fun loop' h => ⟨loop', hloop.symm.trans h, rfl, rfl⟩

theorem step_loopStep (hs : s.step l = some s') : LoopStep s l s' := by
  cases l with
  | construct this wakeupFd =>
    simp only [step] at hs
    split at hs
    · next h =>
      cases hs
      -- a new loop, with `quit_` unset
      refine .construct h (by simp [QuitCalled]) ?_ (by simp) id
      intro loop hloop
      cases hloop
      exact ⟨rfl, rfl⟩
    · cases hs
  | callback poller functors =>
    simp only [step] at hs
    split at hs
    · obtain ⟨loop, hloop, hs⟩ := Option.bind_eq_some_iff.mp hs
      split at hs
      · -- the callback may change other channels and queue functors, and not quit
        cases hs
        refine .keep (by simp [QuitCalled]) ?_ id id
        intro loop' hloop'
        cases hloop'
        exact ⟨loop, hloop, rfl, rfl⟩
      · cases hs
    · cases hs
  -- from here on other threads see the loop
  | publish =>
    simp only [step] at hs
    split at hs
    · cases hs
      exact .keep (by simp [QuitCalled]) (keep_loop rfl) (by simp) id
    · cases hs
  | loop k =>
    simp only [step] at hs
    split at hs
    · next h =>
      obtain ⟨loop, loop', hloop, hstep, rfl⟩ := inLoop_spec hs
      refine .step k loop loop' hloop rfl hstep ?_ ?_ rfl Or.inl
      · cases k with
        -- `quit` is called by the client
        | quit => simp [EventLoop.Label.inLoopThread] at h
        | _ => simp [QuitCalled]
      · rintro rfl
        rfl
    · cases hs
  -- back to null, behind the loop
  | reset =>
    simp only [step] at hs
    split at hs
    · cases hs
      exact .keep (by simp [QuitCalled]) (keep_loop rfl) (by simp) id
    · cases hs
  | destruct =>
    simp only [step] at hs
    split at hs
    · cases hs
      exact .keep (by simp [QuitCalled]) (by simp) (by simp) id
    · cases hs
  -- the client takes the pointer and touches nothing
  | startLoop =>
    simp only [step] at hs
    split at hs
    · cases hs
      exact .keep (by simp [QuitCalled]) (keep_loop rfl) id (by simp [Leaving])
    · cases hs
  | call k =>
    simp only [step] at hs
    split at hs
    · next h =>
      obtain ⟨loop, loop', hloop, hstep, rfl⟩ := inLoop_spec hs
      refine .step k loop loop' hloop rfl hstep ?_ ?_ rfl Or.inl
      · cases k with
        -- `quitInLoop` is called by a callback
        | quitInLoop => simp [EventLoop.Label.inLoopThread] at h
        | _ => simp [QuitCalled]
      · rintro rfl
        simp [EventLoop.Label.inLoopThread] at h
    · cases hs
  | destroy =>
    simp only [step] at hs
    split at hs
    · cases hs
      -- with a null `loop_` there is nothing to quit
      refine .keep (by simp [QuitCalled]) (keep_loop rfl) id ?_
      cases s.published <;> simp [Leaving]
    · cases hs
  | destroyQuit =>
    simp only [step] at hs
    -- `loop_` is read a second time, so the store goes to the loop that is there now
    split at hs
    · obtain ⟨loop, hloop, hs⟩ := Option.bind_eq_some_iff.mp hs
      obtain ⟨t, ht, rfl⟩ := Option.map_eq_some_iff.mp hs
      obtain ⟨loop₀, loop', hloop₀, hstep, rfl⟩ := inLoop_spec ht
      have hcalled : QuitCalled [.destroyQuit] := by simp [QuitCalled]
      exact .step .quit loop₀ loop' hloop₀ rfl hstep
        (iff_of_true hcalled (.inl rfl)) (by simp) rfl fun _ => .inr hcalled
    · cases hs
  | destroyWakeup =>
    simp only [step] at hs
    split at hs
    · next ticket hclient =>
      obtain ⟨t, ht, rfl⟩ := Option.map_eq_some_iff.mp hs
      obtain ⟨loop, loop', hloop, hstep, rfl⟩ := inLoop_spec ht
      exact .step (.wakeup ticket) loop loop' hloop rfl hstep
        (by simp [QuitCalled]) (by simp) rfl fun _ => .inl (.inr ⟨ticket, hclient⟩)
    · cases hs
  | join =>
    simp only [step] at hs
    split at hs
    · cases hs
      exact .keep (by simp [QuitCalled]) (keep_loop rfl) id (by simp [Leaving])
    · cases hs

theorem quitCalled_concat : QuitCalled (ls ++ [l]) ↔ QuitCalled ls ∨ QuitCalled [l] := by
  simp only [QuitCalled, List.mem_append]
  tauto

/-- What the run says about the state without any condition. -/
structure Traced (ls : List Label) (s : EventLoopThread) : Prop where
  called : ∀ loop, s.loop = some loop → loop.quit = true → QuitCalled ls
  entered : s.threadFunc = .entered → s.loop = none ∧ ¬ QuitCalled ls
  leaving : s.Leaving → QuitCalled ls

theorem start_traced : Traced [] start := by
  refine ⟨by simp [start], fun _ => ⟨rfl, by simp [QuitCalled]⟩, ?_⟩
  simp [start, Leaving]

theorem step_traced (h : Traced ls s) (hs : s.step l = some s') : Traced (ls ++ [l]) s' := by
  have hmono : QuitCalled ls → QuitCalled (ls ++ [l]) := fun hc => quitCalled_concat.mpr (.inl hc)
  cases step_loopStep hs with
  | construct hthread hcalled hloop hentered hleaving =>
    refine ⟨fun loop hl hquit => ?_, fun hc => absurd hc hentered, fun hc => ?_⟩
    · rw [(hloop loop hl).1] at hquit
      cases hquit
    · exact hmono (h.leaving (hleaving hc))
  | step k loop loop' hloop hloop' hstep hcalled hk hentered hleaving =>
    refine ⟨fun loop₁ hl hquit => ?_, fun hc => ?_, fun hc => ?_⟩
    · -- the flag is set by this step's call, or was set by an earlier one
      cases hloop'.symm.trans hl
      rw [quitCalled_concat, hcalled]
      exact ((EventLoop.step_quitStep hstep).quit_set hquit).imp (h.called loop hloop) id
    · -- the loop exists, so `threadFunc` has constructed it
      rw [hentered] at hc
      rw [(h.entered hc).1] at hloop
      cases hloop
    · rw [quitCalled_concat]
      exact (hleaving hc).imp h.leaving id
  | keep hcalled hloop hentered hleaving =>
    refine ⟨fun loop' hl hquit => ?_, fun hc => ?_, fun hc => hmono (h.leaving (hleaving hc))⟩
    · -- a step beside the loop leaves its flag
      obtain ⟨loop, hl, hsame, -⟩ := hloop loop' hl
      exact hmono (h.called loop hl (hsame.symm.trans hquit))
    · obtain ⟨hnone, hnot⟩ := h.entered (hentered hc)
      constructor
      · cases hl : s'.loop with
        | none => rfl
        | some loop' =>
          obtain ⟨loop, hsome, -⟩ := hloop loop' hl
          rw [hnone] at hsome
          cases hsome
      · rw [quitCalled_concat]
        exact not_or.mpr ⟨hnot, hcalled⟩

theorem run_traced (hrun : exec step start ls = some s) : Traced ls s :=
  exec_induction (P := fun ls s => Traced ls s) start_traced
    (fun _ _ _ _ _ h hs => step_traced h hs) hrun

/-- A step that finds the loop stopping, where a `quit` was called, leaves it so. -/
theorem step_stopping (htraced : Traced ls s) (h : QuitCalled ls → s.Stopping)
    (hs : s.step l = some s') (hsafe : s.StartsUnquit l) (hcalled' : QuitCalled (ls ++ [l])) :
    s'.Stopping := by
  cases step_loopStep hs with
  | construct hthread hcalled hloop hentered hleaving =>
    exact absurd (quitCalled_concat.mp hcalled')
      (not_or.mpr ⟨(htraced.entered hthread).2, hcalled⟩)
  | step k loop loop' hloop hloop' hstep hcalled hk hentered hleaving =>
    intro loop₁ hl
    cases hloop'.symm.trans hl
    rcases quitCalled_concat.mp hcalled' with hc | hc
    · exact (EventLoop.step_quitStep hstep).stopping (h hc loop hloop) fun hkl hpos =>
        hsafe (hk hkl) loop hloop hpos
    · -- this step is the store
      exact .inl (EventLoop.quit_stored (hcalled.mp hc) hstep)
  | keep hcalled hloop hentered hleaving =>
    intro loop' hl
    obtain ⟨loop, hl, hquit, hpos⟩ := hloop loop' hl
    rw [hquit, hpos]
    exact h ((quitCalled_concat.mp hcalled').resolve_right hcalled) loop hl

theorem step_noPoll (h : s.Stopping) (hs : s.step l = some s') {loop loop' : EventLoop}
    (hloop : s.loop = some loop) (hloop' : s'.loop = some loop')
    (hpoll : loop'.position = .polling) : loop.position = .polling := by
  cases step_loopStep hs with
  | construct hthread hcalled hnew hentered hleaving =>
    rw [(hnew loop' hloop').2] at hpoll
    cases hpoll
  | step k loop₁ loop₂ hloop₁ hloop₂ hstep hcalled hk hentered hleaving =>
    cases hloop.symm.trans hloop₁
    cases hloop'.symm.trans hloop₂
    exact (EventLoop.step_quitStep hstep).polling (h loop hloop) hpoll
  | keep hcalled hkeep hentered hleaving =>
    obtain ⟨loop₁, hloop₁, -, hpos⟩ := hkeep loop' hloop'
    cases hloop.symm.trans hloop₁
    exact hpos.symm.trans hpoll

/-- A start that finds a stored `quit` forgets it. -/
theorem start_forgets (h : ¬ s.StartsUnquit l) (hs : s.step l = some s') : ¬ s'.Stopping := by
  simp only [StartsUnquit, Classical.not_imp, not_forall] at h
  obtain ⟨rfl, loop, hloop, hpos, hquit⟩ := h
  simp only [step] at hs
  split at hs
  · obtain ⟨loop₁, loop', hloop₁, hstep, rfl⟩ := inLoop_spec hs
    cases hloop.symm.trans hloop₁
    simp only [EventLoop.step, EventLoop.loopStep, hpos, Option.some.injEq] at hstep
    intro hstop
    have hbad := hstop loop' rfl
    rw [← hstep] at hbad
    simp at hbad
  · cases hs

end Step

/-! ## Runs

A `quit` that was called is remembered until a start of `loop` forgets it. So the condition is on
the starts alone. -/

section Runs

variable {s : EventLoopThread} {ls : List Label}

theorem remembered_of_stopping (hrun : exec step start ls = some s)
    (hstop : QuitCalled ls → s.Stopping) : Remembered ls s := by
  refine ⟨hstop, fun hc l s' loop loop' hs hloop hloop' hpoll => ?_, fun hjoin => ?_⟩
  · exact step_noPoll (hstop hc) hs hloop hloop' hpoll
  · exact hstop ((run_traced hrun).leaving (.inl hjoin))

/-- The `quit` that a start of `loop` finds was called. -/
theorem quitCalled_of_stored {l : Label} (hrun : exec step start ls = some s)
    (hstored : ¬ s.StartsUnquit l) : QuitCalled ls := by
  simp only [StartsUnquit, Classical.not_imp, not_forall] at hstored
  obtain ⟨-, loop, hloop, -, hquit⟩ := hstored
  exact (run_traced hrun).called loop hloop (by simpa using hquit)

/-- **A quit is remembered.** In every state of a run, after a `quit` was called the loop that has
not returned has `quit_` set, no step begins another poll and a join waits for a loop that knows
it must stop, if and only if every step of the run that starts `loop` finds `quit_` false. -/
theorem quit_remembered_iff (hrun : exec step start ls = some s) :
    (∀ js, js <+: ls → ∀ t, exec step start js = some t → Remembered js t) ↔
      Along step StartsUnquit start ls := by
  refine always_iff_along (I := fun js t => QuitCalled js → t.Stopping) (by simp [QuitCalled])
    (fun _ _ ht hstop => remembered_of_stopping ht hstop) ?_ ?_ hrun
  · intro js t l t' ht hstop hsafe hs
    exact step_stopping (run_traced ht) hstop hs hsafe
  · intro js t l t' ht _ hunsafe hs hgood
    have hcalled : QuitCalled (js ++ [l]) :=
      quitCalled_concat.mpr (.inl (quitCalled_of_stored ht hunsafe))
    exact start_forgets hunsafe hs (hgood.stopping hcalled)

/-- The loop runs and polls when the client destroys its thread. -/
def lateQuit : List Label :=
  [.construct 1 5, .publish, .startLoop, .loop .loop, .loop .loop, .destroy, .destroyQuit,
    .destroyWakeup, .loop (.poll [(5, EPOLLIN)]), .loop .loop, .loop .loop, .loop .loop,
    .loop .loop, .loop .loop, .reset, .destruct, .join]

theorem quit_remembered_iff_late :
    ∃ s, exec step start lateQuit = some s ∧ s.client = .destroyed ∧
      ((∀ js, js <+: lateQuit → ∀ t, exec step start js = some t → Remembered js t) ↔
        Along step StartsUnquit start lateQuit) :=
  ⟨_, rfl, rfl, quit_remembered_iff rfl⟩

/-- The client destroys the thread before `loop` has started. -/
def earlyQuit : List Label :=
  [.construct 1 5, .publish, .startLoop, .destroy, .destroyQuit, .destroyWakeup, .loop .loop,
    .loop .loop, .loop (.poll [(5, EPOLLIN)]), .loop .loop, .loop .loop, .loop .loop,
    .loop .loop, .loop .loop]

/-- The client waits in the join, and the loop is in its second `epoll_wait` without a wakeup. -/
theorem early_quit_forgotten :
    ∃ s loop, exec step start earlyQuit = some s ∧ QuitCalled earlyQuit ∧
      s.client = .joining ∧ s.loop = some loop ∧ loop.position = .polling ∧
      loop.quit = false ∧ loop.eventfd = 0 ∧ ¬ Remembered earlyQuit s := by
  refine ⟨_, _, rfl, by simp [QuitCalled, earlyQuit], rfl, rfl, rfl, rfl, rfl, ?_⟩
  intro h
  have hbad := h.join rfl _ rfl
  revert hbad
  decide

end Runs

end EventLoopThread

end HttpWebserver
