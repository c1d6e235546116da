import HttpWebserver.Reactor.Channel
import HttpWebserver.Lib.Machine

/-!
# Reactor — the acceptor

The model of `Reactor/Acceptor.{h,cc}` in the loop that it listens in. `listen` registers
`acceptChannel_` with the one-shot bit of the read mask, and no path of `handleRead` touches the
registration.

* Handlers, functors and other threads are arbitrary code that changes other channels; the
  descriptor of the listening socket and `acceptChannel_` are private to the acceptor.
* `epoll_wait` returns with any events that the kernel can report, and `accept` with any result.
* `Watched`: the registration along a run;
* **`listening_armed_iff`** — a listening acceptor is armed exactly when no return of `epoll_wait`
  has reported its descriptor since the last `listen`.
-/

namespace HttpWebserver

open Machine

structure Acceptor where
  poller : EpollPoller
  acceptChannel : Channel
  listening : Bool
  /-- `newConnectionCallback_` is set. -/
  newConnectionCallback : Bool
  /-- The connections that the callback was given. -/
  connections : List Int
  /-- The connections that were closed for want of a callback. -/
  closed : List Int
  destroyed : Bool
  /-- The descriptors of the active channels. -/
  activeChannels : List Nat

namespace Acceptor

/-- The constructor, with the address of the channel and the descriptor of the socket. -/
def new (this acceptFd : Nat) : Acceptor where
  poller := EpollPoller.new
  acceptChannel := { Channel.new this acceptFd with callbacks := [.read] }
  listening := false
  newConnectionCallback := false
  connections := []
  closed := []
  destroyed := false
  activeChannels := []

def acceptFd (s : Acceptor) : Nat := s.acceptChannel.fd

def listen (s : Acceptor) : Acceptor :=
  let (poller, c) := s.acceptChannel.enableReading s.poller
  { s with listening := true, poller := poller, acceptChannel := c }

/-- The read callback; `connfd` is what `accept` returns, and a negative one is only logged. -/
def handleRead (s : Acceptor) (connfd : Int) : Acceptor :=
  if 0 ≤ connfd then
    if s.newConnectionCallback then { s with connections := s.connections ++ [connfd] }
    else { s with closed := s.closed ++ [connfd] }
  else
    s

/-- `handleEvent` on the channel of the acceptor. -/
def handleAccept (s : Acceptor) (connfd : Int) : Acceptor :=
  if s.acceptChannel.handleEvent = some .read then s.handleRead connfd else s

/-- The destructor. -/
def destroy (s : Acceptor) : Acceptor :=
  let (poller, c) := s.acceptChannel.disableAll s.poller
  let (poller, c) := c.remove poller
  { s with poller := poller, acceptChannel := c, destroyed := true }

/-- An event that `epoll_wait` reports goes into the batch. -/
def fillActive (s : Acceptor) (event : Nat × BitVec 32) : Option Acceptor :=
  (s.poller.report event.1 event.2).map fun poller =>
    let c := s.acceptChannel
    { s with
      poller := poller
      acceptChannel := { c with revents := if event.1 = c.fd then event.2 else c.revents }
      activeChannels := s.activeChannels ++ [event.1] }

inductive Label where
  | listen
  | setNewConnectionCallback
  /-- The return of `epoll_wait`. -/
  | poll (events : List (Nat × BitVec 32))
  /-- `handleEvent` on the first of the active channels that are left; if it gets to `accept`,
  this returns `connfd`. -/
  | dispatch (connfd : Int)
  /-- The new connection callback, another handler, a functor or another thread changes other
  channels. -/
  | channels (poller : EpollPoller)
  | destroy

def step (s : Acceptor) (l : Label) : Option Acceptor :=
  if s.destroyed then none
  else
    match l with
    | .listen => some s.listen
    | .setNewConnectionCallback => some { s with newConnectionCallback := true }
    | .poll events =>
      if s.activeChannels = [] ∧ (events.map Prod.fst).Nodup then exec fillActive s events
      else none
    | .dispatch connfd =>
      match s.activeChannels with
      | [] => none
      | fd :: rest =>
        let s := { s with activeChannels := rest }
        some (if fd = s.acceptFd then s.handleAccept connfd else s)
    | .channels poller =>
      if poller.interest s.acceptFd = s.poller.interest s.acceptFd ∧
          poller.channels s.acceptFd = s.poller.channels s.acceptFd then
        some { s with poller := poller }
      else none
    | .destroy => some s.destroy

/-- The descriptor is registered for the channel of the acceptor, and the kernel would report a
connection that waits on it. -/
def Armed (s : Acceptor) : Prop :=
  ∃ r, s.poller.interest s.acceptFd = some r ∧ r.ptr = s.acceptChannel.this ∧
    anyBit r.events EPOLLIN = true ∧ r.armed = true

/-- A return of `epoll_wait` after the last call of `listen` reported the descriptor. -/
def Reported (fd : Nat) (ls : List Label) : Prop :=
  ∃ before events after, ls = before ++ .poll events :: after ∧ .listen ∉ after ∧
    ∃ e ∈ events, e.1 = fd

section Reported

variable {fd : Nat} {ls : List Label} {l : Label}

theorem reported_concat : Reported fd (ls ++ [l]) ↔
    l ≠ .listen ∧ Reported fd ls ∨ ∃ events, l = .poll events ∧ ∃ e ∈ events, e.1 = fd := by
  constructor
  · rintro ⟨before, events, after, hls, hnot, he⟩
    rcases List.eq_nil_or_concat after with rfl | ⟨after, l', rfl⟩
    · -- the report is the last step
      obtain ⟨-, hl⟩ := List.append_inj' hls rfl
      exact .inr ⟨events, (List.cons.inj hl).1, he⟩
    · rw [List.concat_eq_append] at hls hnot
      rw [← List.cons_append, ← List.append_assoc] at hls
      obtain ⟨hinit, hl⟩ := List.append_inj' hls rfl
      obtain ⟨rfl, -⟩ := List.cons.inj hl
      left
      constructor
      · rintro rfl
        exact hnot (List.mem_append_right _ (List.mem_singleton_self _))
      · exact ⟨before, events, after, hinit, fun h => hnot (List.mem_append_left _ h), he⟩
  · rintro (⟨hne, before, events, after, rfl, hnot, he⟩ | ⟨events, rfl, he⟩)
    · refine ⟨before, events, after ++ [l], by simp, fun hmem => ?_, he⟩
      rcases List.mem_append.mp hmem with hmem | hmem
      · exact hnot hmem
      · exact hne (List.mem_singleton.mp hmem).symm
    · exact ⟨ls, events, [], rfl, nofun, he⟩

theorem not_reported_listen : ¬ Reported fd (ls ++ [.listen]) := by
  rw [reported_concat]
  rintro (⟨hne, -⟩ | ⟨events, hl, -⟩)
  · exact hne rfl
  · cases hl

theorem reported_concat_of_ne (hlisten : l ≠ .listen) (hpoll : ∀ events, l ≠ .poll events) :
    Reported fd (ls ++ [l]) ↔ Reported fd ls := by
  rw [reported_concat]
  constructor
  · rintro (⟨-, h⟩ | ⟨events, hl, -⟩)
    · exact h
    · exact absurd hl (hpoll events)
  · exact fun h => .inl ⟨hlisten, h⟩

theorem reported_concat_poll {events : List (Nat × BitVec 32)} :
    Reported fd (ls ++ [.poll events]) ↔ Reported fd ls ∨ ∃ e ∈ events, e.1 = fd := by
  rw [reported_concat]
  constructor
  · rintro (⟨-, h⟩ | ⟨events', hl, he⟩)
    · exact .inl h
    · cases hl
      exact .inr he
  · rintro (h | he)
    · exact .inl ⟨nofun, h⟩
    · exact .inr ⟨events, rfl, he⟩

end Reported

/-! ## The registration along a run

The entry of the listening descriptor in the kernel's set, by whether it was reported since the
last `listen`. Only `listen` arms it. -/

/-- The mask that `listen` registers. -/
def listenMask : BitVec 32 := Channel.kReadEvent ||| Channel.kCloseEvent

/-- The channel and its registration; `reported` is whether the kernel has reported the
descriptor since the last `listen`. -/
structure Watched (this fd : Nat) (reported : Prop) (s : Acceptor) : Prop where
  this_eq : s.acceptChannel.this = this
  fd_eq : s.acceptChannel.fd = fd
  idle : s.listening = false → s.acceptChannel.status = .kNew ∧
    s.acceptChannel.events = Channel.kNoneEvent ∧ s.poller.interest fd = none
  registered : s.listening = true → s.acceptChannel.status = .kAdded ∧
    s.acceptChannel.events = listenMask ∧
    ∃ armed, s.poller.interest fd = some ⟨listenMask, this, armed⟩ ∧ (armed = true ↔ ¬ reported)

section Watched

variable {this fd : Nat} {reported reported' : Prop} {s s' : Acceptor} {l : Label}

theorem Watched.congr (h : Watched this fd reported s) (hiff : reported' ↔ reported) :
    Watched this fd reported' s :=
  ⟨h.this_eq, h.fd_eq, h.idle, by rw [hiff]; exact h.registered⟩

/-- A step that leaves the channel and its registration alone. -/
theorem Watched.of_frame (h : Watched this fd reported s)
    (hchannel : s'.acceptChannel = s.acceptChannel) (hlistening : s'.listening = s.listening)
    (hinterest : s'.poller.interest fd = s.poller.interest fd) : Watched this fd reported s' := by
  constructor
  · rw [hchannel]
    exact h.this_eq
  · rw [hchannel]
    exact h.fd_eq
  · rw [hchannel, hlistening, hinterest]
    exact h.idle
  · rw [hchannel, hlistening, hinterest]
    exact h.registered

theorem new_watched (this fd : Nat) : Watched this fd (Reported fd []) (new this fd) where
  this_eq := rfl
  fd_eq := rfl
  idle _ := ⟨rfl, rfl, rfl⟩
  registered := nofun

/-- `listen` adds the descriptor the first time, and modifies its entry every other time. -/
theorem listen_watched (h : Watched this fd reported s) : Watched this fd False s.listen := by
  have hmask : Channel.kNoneEvent ||| (Channel.kReadEvent ||| Channel.kCloseEvent) = listenMask ∧
      listenMask ||| (Channel.kReadEvent ||| Channel.kCloseEvent) = listenMask ∧
      (listenMask == Channel.kNoneEvent) = false := by decide
  obtain ⟨hfirst, hagain, hsome⟩ := hmask
  have hentry : s.listen.acceptChannel.this = this ∧ s.listen.acceptChannel.fd = fd ∧
      s.listen.acceptChannel.status = .kAdded ∧ s.listen.acceptChannel.events = listenMask ∧
      s.listen.poller.interest fd = some ⟨listenMask, this, true⟩ := by
    unfold listen Channel.enableReading Channel.update EpollPoller.updateChannel
    cases hl : s.listening with
    | false =>
      obtain ⟨hstatus, hevents, hnone⟩ := h.idle hl
      simp [hstatus, hevents, hfirst, h.this_eq, h.fd_eq, EpollPoller.update, epollCtl, hnone]
    | true =>
      obtain ⟨hstatus, hevents, armed, hsome', -⟩ := h.registered hl
      simp [hstatus, hevents, hagain, hsome, h.this_eq, h.fd_eq, EpollPoller.update, epollCtl,
        hsome', Channel.isNoneEvent]
  obtain ⟨hthis, hfd, hstatus, hevents, hinterest⟩ := hentry
  exact ⟨hthis, hfd, nofun, fun _ => ⟨hstatus, hevents, true, hinterest, by simp⟩⟩

/-- The kernel reports a descriptor, and disarms it if it is this one. -/
theorem fillActive_watched {event : Nat × BitVec 32} (h : Watched this fd reported s)
    (hs : s.fillActive event = some s') : Watched this fd (reported ∨ event.1 = fd) s' := by
  obtain ⟨poller, hreport, rfl⟩ := Option.map_eq_some_iff.mp hs
  obtain ⟨r, hr, hinterest⟩ := EpollPoller.report_spec hreport
  refine ⟨h.this_eq, h.fd_eq, fun hl => ?_, fun hl => ?_⟩
  · obtain ⟨hstatus, hevents, hnone⟩ := h.idle hl
    refine ⟨hstatus, hevents, ?_⟩
    show poller.interest fd = none
    -- only a registered descriptor is reported
    have hne : fd ≠ event.1 := by
      intro heq
      rw [← heq, hnone] at hr
      cases hr
    rw [hinterest, Function.update_of_ne hne]
    exact hnone
  · obtain ⟨hstatus, hevents, armed, hentry, harmed⟩ := h.registered hl
    refine ⟨hstatus, hevents, ?_⟩
    show ∃ armed, poller.interest fd = some ⟨listenMask, this, armed⟩ ∧ _
    rw [hinterest]
    rcases eq_or_ne event.1 fd with rfl | hne
    · have hone : anyBit listenMask EPOLLONESHOT = true := by decide
      cases hr.symm.trans hentry
      refine ⟨false, ?_, by simp⟩
      rw [Function.update_self, hone]
      rfl
    · refine ⟨armed, ?_, ?_⟩
      · rw [Function.update_of_ne hne.symm]
        exact hentry
      · rw [harmed, or_iff_left hne]

theorem poll_watched {events : List (Nat × BitVec 32)} (h : Watched this fd reported s)
    (hs : exec fillActive s events = some s') :
    Watched this fd (reported ∨ ∃ e ∈ events, e.1 = fd) s' := by
  refine exec_induction
    (P := fun events t => Watched this fd (reported ∨ ∃ e ∈ events, e.1 = fd) t) ?_ ?_ hs
  · exact h.congr (by simp)
  · intro events t event t' _ ht hstep
    refine (fillActive_watched ht hstep).congr ?_
    simp only [List.mem_append, List.mem_singleton, or_and_right, exists_or, exists_eq_left,
      or_assoc]

theorem handleAccept_frame (s : Acceptor) (connfd : Int) :
    (s.handleAccept connfd).acceptChannel = s.acceptChannel ∧
      (s.handleAccept connfd).listening = s.listening ∧
      (s.handleAccept connfd).poller = s.poller := by
  unfold handleAccept handleRead
  split
  · split
    · split
      · exact ⟨rfl, rfl, rfl⟩
      · exact ⟨rfl, rfl, rfl⟩
    · exact ⟨rfl, rfl, rfl⟩
  · exact ⟨rfl, rfl, rfl⟩

theorem step_watched {ls : List Label} (h : Watched this fd (Reported fd ls) s)
    (hs : s.step l = some s') (hlive : s'.destroyed = false) :
    Watched this fd (Reported fd (ls ++ [l])) s' := by
  unfold step at hs
  split at hs
  · cases hs
  cases l with
  | listen =>
    cases hs
    -- `listen` arms the entry and reports nothing
    exact (listen_watched h).congr (iff_false_intro not_reported_listen)
  | setNewConnectionCallback =>
    refine Watched.congr ?_ (reported_concat_of_ne nofun nofun)
    cases hs
    exact h.of_frame rfl rfl rfl
  | poll events =>
    simp only at hs
    split at hs
    · exact (poll_watched h hs).congr reported_concat_poll
    · cases hs
  | dispatch connfd =>
    refine Watched.congr ?_ (reported_concat_of_ne nofun nofun)
    simp only at hs
    split at hs
    · cases hs
    · cases hs
      -- the channel of the batch is the listening one, or another's
      split
      · obtain ⟨hchannel, hlistening, hpoller⟩ :=
          handleAccept_frame { s with activeChannels := _ } connfd
        exact h.of_frame hchannel hlistening (by rw [hpoller])
      · exact h.of_frame rfl rfl rfl
  | channels poller =>
    refine Watched.congr ?_ (reported_concat_of_ne nofun nofun)
    simp only at hs
    split at hs
    · next hsame =>
      -- other channels of the loop leave this descriptor's entry
      cases hs
      refine h.of_frame rfl rfl ?_
      rw [← h.fd_eq]
      exact hsame.1
    · cases hs
  | destroy =>
    cases hs
    cases hlive

end Watched

/-! ## Runs -/

theorem run_watched {this fd : Nat} {ls : List Label} {s : Acceptor}
    (hrun : exec step (new this fd) ls = some s) (hlive : s.destroyed = false) :
    Watched this fd (Reported fd ls) s := by
  refine exec_induction
    (P := fun ls s => s.destroyed = false → Watched this fd (Reported fd ls) s)
    (fun _ => new_watched this fd) ?_ hrun hlive
  intro ls s l s' _ ih hs hlive'
  have hlive : s.destroyed = false := by
    unfold step at hs
    split at hs
    · cases hs
    · next hnot => exact Bool.eq_false_iff.mpr hnot
  exact step_watched (ih hlive) hs hlive'

/-- **The first report is the last one.** In every run, and in every state in which the acceptor
listens and is not destroyed, so also whenever the loop enters `poll`: the descriptor is
registered and armed if and only if no return of `epoll_wait` has reported it since the last
call of `listen`. -/
theorem listening_armed_iff (this acceptFd : Nat) {ls : List Label} {s : Acceptor}
    (hrun : exec step (new this acceptFd) ls = some s) (hlistening : s.listening = true)
    (hlive : s.destroyed = false) : s.Armed ↔ ¬ Reported acceptFd ls := by
  have h := run_watched hrun hlive
  obtain ⟨-, -, armed, hentry, harmed⟩ := h.registered hlistening
  rw [← harmed]
  unfold Armed Acceptor.acceptFd
  rw [h.fd_eq, h.this_eq, hentry]
  constructor
  · rintro ⟨r, hr, -, -, hrarmed⟩
    cases hr
    exact hrarmed
  · intro harmed
    have hread : anyBit listenMask EPOLLIN = true := by decide
    exact ⟨_, rfl, rfl, hread, harmed⟩

/-- The acceptor listens and waits for its first connection. -/
def firstConnection : List Label := [.setNewConnectionCallback, .listen]

theorem listening_armed_iff_first :
    ∃ s, exec step (new 1 3) firstConnection = some s ∧ s.listening = true ∧ s.destroyed = false ∧
      (s.Armed ↔ ¬ Reported 3 firstConnection) :=
  ⟨_, rfl, rfl, rfl, listening_armed_iff 1 3 rfl rfl rfl⟩

/-- The first connection is accepted, and the loop goes back to `poll`. -/
def secondConnection : List Label := firstConnection ++ [.poll [(3, EPOLLIN)], .dispatch 7]

theorem second_connection_lost :
    ∃ s, exec step (new 1 3) secondConnection = some s ∧ s.listening = true ∧
      s.destroyed = false ∧ s.activeChannels = [] ∧ s.connections = [7] ∧ ¬ s.Armed := by
  refine ⟨_, rfl, rfl, rfl, rfl, rfl, ?_⟩
  rintro ⟨r, hr, -, -, harmed⟩
  cases hr
  cases harmed

end Acceptor

end HttpWebserver
