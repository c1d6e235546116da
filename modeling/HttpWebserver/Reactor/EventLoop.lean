import HttpWebserver.Reactor.Channel
import HttpWebserver.Lib.Machine
import Mathlib.Algebra.Group.Nat.Defs

/-!
# Reactor — the event loop

The model of `Reactor/EventLoop.{h,cc}` as a step relation: the loop thread in `loop`, and other
threads that call `queueInLoop` and `quit`.

* A call of another thread has two steps, since others can act between them: the first under
  the mutex (or the store of `quit_`), the second the write to the eventfd. A ticket says which
  calls are between the two.
* Handlers and functors are arbitrary code of the loop thread, which queues functors and changes
  other channels; `wakeupChannel_` is private to the loop.
* The eventfd is a counter. A write that would overflow it fails, a read resets it.
* `epoll_wait` returns with any events that the kernel can report, none of them for a timeout
  or an error. It can report `wakeupFd_` only while the counter is not zero.
-/

namespace HttpWebserver

/-- A functor, with the ticket of the call that queued it, if another thread did. -/
structure Functor where
  ticket : Option Nat
deriving DecidableEq, Repr

namespace EventLoop

/-- Where the loop thread is. -/
inductive Position where
  | constructed
  /-- At `while (!quit_)`. -/
  | test
  /-- In `epoll_wait`. -/
  | polling
  /-- At the first of the active channels that are left. -/
  | dispatching
  /-- At the start of `doPendingFunctors`. -/
  | swapping
  /-- At the functor with the given index. -/
  | running (functors : List Functor) (i : Nat)
  | exited
deriving DecidableEq, Repr

end EventLoop

structure EventLoop where
  poller : EpollPoller
  wakeupChannel : Channel
  /-- The counter behind `wakeupFd_`. -/
  eventfd : Nat
  looping : Bool
  quit : Bool
  callingPendingFunctors : Bool
  pendingFunctors : List Functor
  /-- The descriptors of the active channels. -/
  activeChannels : List Nat
  position : EventLoop.Position
  /-- The calls of other threads that have not written to the eventfd yet. -/
  inFlight : List Nat
  nextTicket : Nat

namespace EventLoop

/-- The constructor, with the address of the wakeup channel and its descriptor. -/
def new (this wakeupFd : Nat) : EventLoop :=
  let c := { Channel.new this wakeupFd with callbacks := [.read] }
  let (poller, c) := c.enableReading EpollPoller.new
  { poller := poller, wakeupChannel := c, eventfd := 0, looping := false, quit := false
    callingPendingFunctors := false, pendingFunctors := [], activeChannels := []
    position := .constructed, inFlight := [], nextTicket := 0 }

def wakeupFd (s : EventLoop) : Nat := s.wakeupChannel.fd

/-- `wakeup`: the write of a one, which fails when it would take the counter to its limit. -/
def wakeup (s : EventLoop) : EventLoop :=
  if s.eventfd + 1 < 2 ^ 64 - 1 then { s with eventfd := s.eventfd + 1 } else s

/-- The read callback of the wakeup channel. -/
def handleRead (s : EventLoop) : EventLoop := { s with eventfd := 0 }

/-- `handleEvent` on the wakeup channel. -/
def handleWakeup (s : EventLoop) : EventLoop :=
  if s.wakeupChannel.handleEvent = some .read then s.handleRead else s

/-- `queueInLoop` of the loop thread itself. -/
def queueInLoop (s : EventLoop) : EventLoop :=
  let s : EventLoop := { s with pendingFunctors := s.pendingFunctors ++ [⟨none⟩] }
  if s.callingPendingFunctors then s.wakeup else s

/-- Events that `epoll_wait` reports, one after the other. -/
def reportAll (s : EventLoop) : List (Nat × BitVec 32) → Option EventLoop
  | [] => some s
  | (fd, revents) :: events =>
    if fd = s.wakeupFd ∧ ¬ (revents = EPOLLIN ∧ s.eventfd ≠ 0) then none
    else
      match s.poller.report fd revents with
      | none => none
      | some poller =>
        let c := s.wakeupChannel
        reportAll { s with
          poller := poller
          wakeupChannel := { c with revents := if fd = s.wakeupFd then revents else c.revents }
          activeChannels := s.activeChannels ++ [fd] } events

inductive Label where
  /-- The next step of the loop thread. -/
  | loop
  /-- The return of `epoll_wait`. -/
  | poll (events : List (Nat × BitVec 32))
  /-- A handler or functor of the loop thread calls `queueInLoop`. -/
  | queueInLoop
  /-- A handler or functor of the loop thread calls `quit`. -/
  | quitInLoop
  /-- A handler or functor of the loop thread changes other channels. -/
  | channels (poller : EpollPoller)
  /-- Another thread is in `queueInLoop`, up to the end of the critical section. -/
  | push
  /-- Another thread is in `quit`, at the store. -/
  | quit
  /-- Another thread is in `wakeup`. -/
  | wakeup (ticket : Nat)

/-- The loop thread is in a handler or in a functor, and not in `handleRead`. -/
def inCallback (s : EventLoop) : Bool :=
  match s.position with
  | .dispatching => s.activeChannels.head?.any fun fd => fd ≠ s.wakeupFd
  | .running functors i => i < functors.length
  | _ => false

def loopStep (s : EventLoop) : Option EventLoop :=
  match s.position with
  | .constructed => some { s with looping := true, quit := false, position := .test }
  | .test =>
    if s.quit then some { s with looping := false, position := .exited }
    else some { s with activeChannels := [], position := .polling }
  | .polling => none
  | .dispatching =>
    match s.activeChannels with
    | [] => some { s with position := .swapping }
    | fd :: rest =>
      let s := if fd = s.wakeupFd then s.handleWakeup else s
      some { s with activeChannels := rest }
  | .swapping =>
    some { s with callingPendingFunctors := true, pendingFunctors := []
                  position := .running s.pendingFunctors 0 }
  | .running functors i =>
    if i < functors.length then some { s with position := .running functors (i + 1) }
    else if functors = [] then some { s with position := .test }
    else some { s with callingPendingFunctors := false, position := .test }
  | .exited => none

def step (s : EventLoop) : Label → Option EventLoop
  | .loop => s.loopStep
  | .poll events =>
    if s.position = .polling then
      (s.reportAll events).map fun s => { s with position := .dispatching }
    else none
  | .queueInLoop => if s.inCallback then some s.queueInLoop else none
  | .quitInLoop => if s.inCallback then some { s with quit := true } else none
  | .channels poller =>
    if s.inCallback ∧ poller.interest s.wakeupFd = s.poller.interest s.wakeupFd ∧
        poller.channels s.wakeupFd = s.poller.channels s.wakeupFd then
      some { s with poller := poller }
    else none
  | .push =>
    some { s with pendingFunctors := s.pendingFunctors ++ [⟨some s.nextTicket⟩]
                  inFlight := s.inFlight ++ [s.nextTicket], nextTicket := s.nextTicket + 1 }
  | .quit =>
    some { s with quit := true, inFlight := s.inFlight ++ [s.nextTicket]
                  nextTicket := s.nextTicket + 1 }
  | .wakeup ticket =>
    if ticket ∈ s.inFlight then
      some { s.wakeup with inFlight := s.inFlight.erase ticket }
    else none

end EventLoop

end HttpWebserver
