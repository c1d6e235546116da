import HttpWebserver.Reactor.EventLoop

/-!
# Reactor — wakeups of a blocked loop

`wakeupChannel_` is registered once, by the constructor, with `EPOLLONESHOT` in its mask. The
first report of `wakeupFd_` disarms it and nothing arms it again, as `handleRead` only reads the
counter.

* `reportAll_armed`: what a return of `epoll_wait` leaves of a registration;
* `Watched`: the registration along a run, and what holds before the first report;
* **`wakeup_armed_iff`** — a functor that waits for a blocked loop has a pending wakeup exactly
  when `wakeupFd_` has not been reported in the run.
-/

namespace HttpWebserver.EventLoop

open Machine

/-- The kernel would report the eventfd. -/
def Armed (s : EventLoop) : Prop := ∃ r, s.poller.interest s.wakeupFd = some r ∧ r.armed = true

/-- The call of another thread that queued the functor has returned. -/
def Completed (s : EventLoop) (f : Functor) : Prop := ∃ t, f.ticket = some t ∧ t ∉ s.inFlight

/-- Some return of `epoll_wait` in the run reported the descriptor. -/
def Reported (fd : Nat) (ls : List Label) : Prop :=
  ∃ events, .poll events ∈ ls ∧ ∃ e ∈ events, e.1 = fd

section Report

variable {s s' : EventLoop} {events : List (Nat × BitVec 32)}

/-- What the return of `epoll_wait` does not touch. -/
theorem reportAll_frame (h : s.reportAll events = some s') :
    s'.wakeupFd = s.wakeupFd ∧ s'.eventfd = s.eventfd ∧ s'.pendingFunctors = s.pendingFunctors ∧
      s'.inFlight = s.inFlight ∧ s'.activeChannels = s.activeChannels ++ events.map Prod.fst := by
  induction events generalizing s with
  | nil =>
      cases h
      exact ⟨rfl, rfl, rfl, rfl, (List.append_nil _).symm⟩
  | cons e events ih =>
      obtain ⟨fd, revents⟩ := e
      unfold reportAll at h
      split at h
      · cases h
      · split at h
        · cases h
        · obtain ⟨hfd, hcount, hpending, hflight, hactive⟩ := ih h
          refine ⟨hfd, hcount, hpending, hflight, ?_⟩
          rw [hactive, List.map_cons]
          exact List.append_assoc _ [fd] _

/-- A one-shot registration stays armed as long as it is not reported. -/
theorem reportAll_armed {r : Registration} (h : s.reportAll events = some s')
    (hr : s.poller.interest s.wakeupFd = some r) (hone : anyBit r.events EPOLLONESHOT = true) :
    ∃ r', s'.poller.interest s'.wakeupFd = some r' ∧ anyBit r'.events EPOLLONESHOT = true ∧
      (r'.armed = true ↔ r.armed = true ∧ ∀ e ∈ events, e.1 ≠ s.wakeupFd) := by
  induction events generalizing s r with
  | nil =>
      cases h
      exact ⟨r, hr, hone, by simp⟩
  | cons e events ih =>
      obtain ⟨fd, revents⟩ := e
      unfold reportAll at h
      split at h
      · cases h
      · split at h
        · cases h
        · next poller hreport =>
            obtain ⟨r₀, hr₀, hinterest⟩ := EpollPoller.report_spec hreport
            rcases eq_or_ne fd s.wakeupFd with rfl | hne
            · -- reported, and so disarmed
              cases Option.some.inj (hr.symm.trans hr₀)
              have hreg : poller.interest s.wakeupFd = some { r with armed := false } := by
                rw [hinterest, Function.update_self, hone]
                rfl
              obtain ⟨r', hr', hone', harmed⟩ := ih h hreg hone
              refine ⟨r', hr', hone', harmed.trans ?_⟩
              refine iff_of_false (fun hfalse => by cases hfalse.1) fun hall => ?_
              exact hall.2 _ List.mem_cons_self rfl
            · -- another descriptor's report
              have hreg : poller.interest s.wakeupFd = some r := by
                rw [hinterest, Function.update_of_ne hne.symm]
                exact hr
              obtain ⟨r', hr', hone', harmed⟩ := ih h hreg hone
              refine ⟨r', hr', hone', harmed.trans ?_⟩
              refine and_congr_right fun _ => ⟨fun hall e he => ?_, fun hall e he => ?_⟩
              · rcases List.mem_cons.mp he with rfl | he
                · exact hne
                · exact hall e he
              · exact hall e (List.mem_cons_of_mem _ he)

end Report

/-! ## The registration along a run

The descriptor of the wakeup channel is registered once, by the constructor, and for one report.
Before it is reported every wakeup that was written is in the counter. -/

/-- The wakeup channel's registration after the labels `ls`; before its first report the
counter is only counted up. -/
structure Watched (fd : Nat) (ls : List Label) (s : EventLoop) : Prop where
  wakeupFd : s.wakeupFd = fd
  registration : ∃ r, s.poller.interest fd = some r ∧ anyBit r.events EPOLLONESHOT = true ∧
    (r.armed = true ↔ ¬ Reported fd ls)
  inactive : ¬ Reported fd ls → fd ∉ s.activeChannels
  counted : ¬ Reported fd ls → ∀ f ∈ s.pendingFunctors, ∀ t, f.ticket = some t →
    t ∈ s.inFlight ∨ s.eventfd ≠ 0

section Watched

variable {s s' : EventLoop} {fd : Nat} {ls : List Label} {l : Label}

theorem wakeup_eventfd (s : EventLoop) : s.wakeup.eventfd ≠ 0 := by
  unfold wakeup
  split
  · exact Nat.succ_ne_zero _
  · omega

theorem wakeup_frame (s : EventLoop) :
    s.wakeup.wakeupFd = s.wakeupFd ∧ s.wakeup.poller = s.poller ∧
      s.wakeup.activeChannels = s.activeChannels ∧ s.wakeup.pendingFunctors = s.pendingFunctors := by
  unfold wakeup
  split <;> exact ⟨rfl, rfl, rfl, rfl⟩

theorem reported_concat : Reported fd (ls ++ [l]) ↔
    Reported fd ls ∨ ∃ events, l = .poll events ∧ ∃ e ∈ events, e.1 = fd := by
  constructor
  · rintro ⟨events, hmem, he⟩
    rcases List.mem_append.mp hmem with hmem | hmem
    · exact .inl ⟨events, hmem, he⟩
    · exact .inr ⟨events, (List.mem_singleton.mp hmem).symm, he⟩
  · rintro (⟨events, hmem, he⟩ | ⟨events, rfl, he⟩)
    · exact ⟨events, List.mem_append_left _ hmem, he⟩
    · exact ⟨events, List.mem_append_right _ (List.mem_singleton_self _), he⟩

/-- A step that is no return of `epoll_wait`. -/
theorem Watched.of_frame (h : Watched fd ls s) (hl : ∀ events, l ≠ .poll events)
    (hfd : s'.wakeupFd = s.wakeupFd) (hreg : s'.poller.interest fd = s.poller.interest fd)
    (hactive : ∀ a ∈ s'.activeChannels, a ∈ s.activeChannels)
    (hcounted : ¬ Reported fd ls → ∀ f ∈ s'.pendingFunctors, ∀ t, f.ticket = some t →
      t ∈ s'.inFlight ∨ s'.eventfd ≠ 0) : Watched fd (ls ++ [l]) s' := by
  have hsame : Reported fd (ls ++ [l]) ↔ Reported fd ls := by
    rw [reported_concat]
    refine or_iff_left ?_
    rintro ⟨events, hpoll, -⟩
    exact hl events hpoll
  refine ⟨hfd.trans h.wakeupFd, ?_, fun hnot ha => ?_, fun hnot => ?_⟩
  · rw [hreg, hsame]
    exact h.registration
  · exact h.inactive (hsame.not.mp hnot) (hactive fd ha)
  · exact hcounted (hsame.not.mp hnot)

theorem loop_watched (h : Watched fd ls s) (hs : s.step .loop = some s') :
    Watched fd (ls ++ [.loop]) s' := by
  simp only [step, loopStep] at hs
  cases hpos : s.position with
  | constructed =>
      rw [hpos] at hs
      cases hs
      -- `loop()` itself never writes to the epoll set, so all of its steps are framed
      exact h.of_frame nofun rfl rfl (fun _ ha => ha) h.counted
  | test =>
      simp only [hpos] at hs
      split at hs
      · cases hs
        exact h.of_frame nofun rfl rfl (fun _ ha => ha) h.counted
      · cases hs
        exact h.of_frame nofun rfl rfl nofun h.counted
  | polling => rw [hpos] at hs; cases hs
  | exited => rw [hpos] at hs; cases hs
  | dispatching =>
      simp only [hpos] at hs
      cases hactive : s.activeChannels with
      | nil =>
          rw [hactive] at hs
          cases hs
          exact h.of_frame nofun rfl rfl (fun _ ha => nomatch ha) h.counted
      | cons a rest =>
          rw [hactive] at hs
          simp only [Option.some.injEq] at hs
          subst hs
          have hmem : ∀ b ∈ rest, b ∈ s.activeChannels := fun b hb => by
            rw [hactive]
            exact List.mem_cons_of_mem _ hb
          rcases eq_or_ne a s.wakeupFd with rfl | hne
          · -- the wakeup channel is active only after a report
            have hnot : ¬ ¬ Reported fd ls := fun hnot => h.inactive hnot (by
              rw [hactive, h.wakeupFd]
              exact List.mem_cons_self)
            rw [if_pos rfl]
            unfold handleWakeup
            split
            · exact h.of_frame nofun rfl rfl hmem fun hn => absurd hn hnot
            · exact h.of_frame nofun rfl rfl hmem h.counted
          · rw [if_neg hne]
            exact h.of_frame nofun rfl rfl hmem h.counted
  | swapping =>
      rw [hpos] at hs
      cases hs
      -- the functors that were counted are taken over here
      exact h.of_frame nofun rfl rfl (fun _ ha => ha) nofun
  | running functors i =>
      simp only [hpos] at hs
      split at hs
      · cases hs
        exact h.of_frame nofun rfl rfl (fun _ ha => ha) h.counted
      · split at hs <;> cases hs <;>
          exact h.of_frame nofun rfl rfl (fun _ ha => ha) h.counted

theorem poll_watched {events : List (Nat × BitVec 32)} (h : Watched fd ls s)
    (hs : s.step (.poll events) = some s') : Watched fd (ls ++ [.poll events]) s' := by
  simp only [step] at hs
  split at hs
  · obtain ⟨t, ht, rfl⟩ := Option.map_eq_some_iff.mp hs
    obtain ⟨r, hr, hone, harmed⟩ := h.registration
    rw [← h.wakeupFd] at hr
    obtain ⟨r', hr', hone', harmed'⟩ := reportAll_armed ht hr hone
    obtain ⟨hfd, hcount, hpending, hflight, hactive⟩ := reportAll_frame ht
    -- the reports of the run, and those of this call
    have hreported : Reported fd (ls ++ [.poll events]) ↔
        Reported fd ls ∨ ∃ e ∈ events, e.1 = fd := by
      rw [reported_concat]
      refine or_congr_right ⟨?_, fun he => ⟨events, rfl, he⟩⟩
      rintro ⟨events', hpoll, he⟩
      cases hpoll
      exact he
    refine ⟨hfd.trans h.wakeupFd, ⟨r', ?_, hone', ?_⟩, fun hnot ha => ?_, fun hnot => ?_⟩
    · rw [hfd, h.wakeupFd] at hr'
      exact hr'
    · rw [harmed', harmed, hreported, h.wakeupFd, not_or, not_exists]
      simp only [not_and]
    · -- the reported channels become active, and this one is not among them
      have hnot' := not_or.mp (hreported.not.mp hnot)
      rcases List.mem_append.mp (hactive ▸ ha) with ha | ha
      · exact h.inactive hnot'.1 ha
      · obtain ⟨e, he, heq⟩ := List.mem_map.mp ha
        exact hnot'.2 ⟨e, he, heq⟩
    · have hnot' := not_or.mp (hreported.not.mp hnot)
      show ∀ f ∈ t.pendingFunctors, ∀ k, f.ticket = some k → k ∈ t.inFlight ∨ t.eventfd ≠ 0
      rw [hpending, hflight, hcount]
      exact h.counted hnot'.1
  · cases hs

theorem step_watched (h : Watched fd ls s) (hs : s.step l = some s') :
    Watched fd (ls ++ [l]) s' := by
  cases l with
  | loop => exact loop_watched h hs
  | poll events => exact poll_watched h hs
  | queueInLoop =>
      simp only [step] at hs
      split at hs
      · cases hs
        unfold queueInLoop
        simp only
        split
        · -- while functors run, `queueInLoop` writes to the counter itself
          obtain ⟨hfd, hpoller, hactive, -⟩ := wakeup_frame
            { s with pendingFunctors := s.pendingFunctors ++ [⟨none⟩] }
          exact h.of_frame nofun hfd (by rw [hpoller]) (fun a ha => by rw [hactive] at ha; exact ha)
            fun _ _ _ _ _ => .inr (wakeup_eventfd _)
        · -- a functor queued by a handler has no wakeup to wait for
          refine h.of_frame nofun rfl rfl (fun _ ha => ha) fun hnot f hf t ht => ?_
          rcases List.mem_append.mp hf with hf | hf
          · exact h.counted hnot f hf t ht
          · rw [List.mem_singleton.mp hf] at ht
            cases ht
      · cases hs
  | quitInLoop =>
      simp only [step] at hs
      split at hs
      · cases hs
        exact h.of_frame nofun rfl rfl (fun _ ha => ha) h.counted
      · cases hs
  | channels poller =>
      simp only [step] at hs
      split at hs
      · next hsame =>
          cases hs
          refine h.of_frame nofun rfl ?_ (fun _ ha => ha) h.counted
          rw [← h.wakeupFd]
          exact hsame.2.1
      · cases hs
  | push =>
      cases hs
      refine h.of_frame nofun rfl rfl (fun _ ha => ha) fun hnot f hf t ht => ?_
      rcases List.mem_append.mp hf with hf | hf
      · exact (h.counted hnot f hf t ht).imp (List.mem_append_left _) id
      · -- the new functor's call is between its two steps
        rw [List.mem_singleton.mp hf] at ht
        cases ht
        exact .inl (List.mem_append_right _ (List.mem_singleton_self _))
  | quit =>
      cases hs
      -- whatever was in flight stays in flight
      exact h.of_frame nofun rfl rfl (fun _ ha => ha) fun hnot f hf t ht =>
        (h.counted hnot f hf t ht).imp (List.mem_append_left _) id
  | wakeup ticket =>
      simp only [step] at hs
      split at hs
      · cases hs
        obtain ⟨hfd, hpoller, hactive, -⟩ := wakeup_frame s
        exact h.of_frame nofun hfd (by show s.wakeup.poller.interest fd = _; rw [hpoller])
          (fun a ha => by rw [← hactive]; exact ha) fun _ _ _ _ _ => .inr (wakeup_eventfd s)
      · cases hs

theorem new_registration (this fd : Nat) : (new this fd).poller.interest fd
    = some ⟨Channel.kReadEvent ||| Channel.kCloseEvent, this, true⟩ := by
  have hevents : Channel.kNoneEvent ||| (Channel.kReadEvent ||| Channel.kCloseEvent)
      = Channel.kReadEvent ||| Channel.kCloseEvent := by decide
  simp [new, Channel.new, Channel.enableReading, Channel.update, EpollPoller.updateChannel,
    EpollPoller.update, EpollPoller.new, epollCtl, hevents]

theorem new_watched (this fd : Nat) : Watched fd [] (new this fd) := by
  have hone : anyBit (Channel.kReadEvent ||| Channel.kCloseEvent) EPOLLONESHOT = true := by decide
  have hnot : ¬ Reported fd [] := by
    rintro ⟨events, hmem, -⟩
    cases hmem
  exact ⟨rfl, ⟨_, new_registration this fd, hone, iff_of_true rfl hnot⟩, fun _ => nofun,
    fun _ => nofun⟩

end Watched

/-! ## Runs -/

theorem run_watched {this fd : Nat} {ls : List Label} {s : EventLoop}
    (hrun : exec step (new this fd) ls = some s) : Watched fd ls s :=
  exec_induction (P := fun ls s => Watched fd ls s) (new_watched this fd)
    (fun _ _ _ _ _ h hs => step_watched h hs) hrun

/-- **The first wakeup is the only one.** In every run, when a functor of a completed `queueInLoop`
of another thread is pending, wherever the loop thread is, so also when it is blocked: the
counter is not zero and `wakeupFd_` is armed if and only if no return of `epoll_wait` in the
run reported `wakeupFd_`. -/
theorem wakeup_armed_iff (this wakeupFd : Nat) {ls : List Label} {s : EventLoop}
    (hrun : exec step (new this wakeupFd) ls = some s)
    (hpending : ∃ f ∈ s.pendingFunctors, s.Completed f) :
    (s.eventfd ≠ 0 ∧ s.Armed) ↔ ¬ Reported wakeupFd ls := by
  have h := run_watched hrun
  obtain ⟨r, hr, -, harmed⟩ := h.registration
  constructor
  · rintro ⟨-, r', hr', harmed'⟩
    rw [h.wakeupFd, hr] at hr'
    cases hr'
    exact harmed.mp harmed'
  · intro hnot
    obtain ⟨f, hf, t, ht, hdone⟩ := hpending
    refine ⟨(h.counted hnot f hf t ht).resolve_left hdone, r, ?_, harmed.mpr hnot⟩
    rw [h.wakeupFd]
    exact hr

/-- The loop blocks, another thread queues a functor and wakes it. -/
def firstWakeup : List Label := [.loop, .loop, .push, .wakeup 0]

theorem wakeup_armed_iff_sample :
    ∃ s, exec step (new 1 5) firstWakeup = some s ∧ s.position = .polling ∧
      (∃ f ∈ s.pendingFunctors, s.Completed f) ∧
      ((s.eventfd ≠ 0 ∧ s.Armed) ↔ ¬ Reported 5 firstWakeup) := by
  refine ⟨_, rfl, rfl, ?_, wakeup_armed_iff 1 5 rfl ?_⟩ <;>
    exact ⟨⟨some 0⟩, List.mem_singleton_self _, 0, rfl, by decide⟩

/-- The wakeup is delivered, the functor runs, the loop blocks again and the next functor comes. -/
def secondWakeup : List Label :=
  firstWakeup ++ [.poll [(5, EPOLLIN)], .loop, .loop, .loop, .loop, .loop, .loop, .push, .wakeup 1]

theorem second_wakeup_lost :
    ∃ s, exec step (new 1 5) secondWakeup = some s ∧ s.position = .polling ∧
      (∃ f ∈ s.pendingFunctors, s.Completed f) ∧ s.eventfd = 1 ∧
      ¬ (s.eventfd ≠ 0 ∧ s.Armed) := by
  refine ⟨_, rfl, rfl, ⟨⟨some 1⟩, List.mem_singleton_self _, 1, rfl, by decide⟩, rfl, ?_⟩
  rintro ⟨-, r, hr, harmed⟩
  cases hr
  cases harmed

end HttpWebserver.EventLoop
