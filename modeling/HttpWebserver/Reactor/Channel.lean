import Mathlib.Logic.Function.Basic

/-!
# Reactor — channels and the poller

The model of `Reactor/Channel.{h,cc}`, `Reactor/Poller.{h,cc}` and
`Reactor/EpollPoller.{h,cc}`: what a channel is interested in, what the poller asks the
kernel to watch, and what the kernel does with an event it reports.

* The kernel's side is an interest set with one registration for each descriptor.
  `epollCtl` is partial: `none` is the call the kernel rejects, which the poller only logs. The
  poller keeps a record of its calls (`CtlCall`).
* A registration with `EPOLLONESHOT` is disarmed by the first event reported for it and armed
  again by the next `EPOLL_CTL_MOD`.
* Which events the kernel reports is the environment's choice; `report` says which reports are
  possible and what they leave behind.
-/

namespace HttpWebserver

def EPOLLIN : BitVec 32 := 0x001#32
def EPOLLPRI : BitVec 32 := 0x002#32
def EPOLLOUT : BitVec 32 := 0x004#32
def EPOLLERR : BitVec 32 := 0x008#32
def EPOLLHUP : BitVec 32 := 0x010#32
def EPOLLRDHUP : BitVec 32 := 0x2000#32
def EPOLLONESHOT : BitVec 32 := 0x40000000#32

/-- The bits of `mask` that are set in `events`, as a C condition. -/
def anyBit (events mask : BitVec 32) : Bool := events &&& mask != 0#32

/-- A channel's place in its poller. -/
inductive Status where
  | kNew
  | kAdded
  | kDeleted
deriving DecidableEq, Repr

inductive Callback where
  | close
  | error
  | read
  | write
deriving DecidableEq, Repr

/-- A channel: its address, its descriptor, and the members of the source. `callbacks` are the
callbacks that are set, `tie` whether the object tied to the channel is not null. -/
structure Channel where
  this : Nat
  fd : Nat
  events : BitVec 32
  revents : BitVec 32
  status : Status
  tied : Bool
  tie : Bool
  callbacks : List Callback
deriving DecidableEq, Repr

namespace Channel

def kNoneEvent : BitVec 32 := 0#32
def kReadEvent : BitVec 32 := EPOLLIN ||| EPOLLPRI ||| EPOLLONESHOT
def kCloseEvent : BitVec 32 := EPOLLHUP ||| EPOLLRDHUP
def kWriteEvent : BitVec 32 := EPOLLOUT ||| EPOLLONESHOT

/-- `Channel(loop, fd)`, constructed at the address `this`. -/
def new (this fd : Nat) : Channel where
  this := this
  fd := fd
  events := kNoneEvent
  revents := kNoneEvent
  status := .kNew
  tied := false
  tie := false
  callbacks := []

def isReading (c : Channel) : Bool := anyBit c.events kReadEvent

def isWriting (c : Channel) : Bool := anyBit c.events kWriteEvent

def isNoneEvent (c : Channel) : Bool := c.events == kNoneEvent

/-- The callback that `handleEventWithGuard` calls, if it is set. -/
def handleEventWithGuard (c : Channel) : Option Callback :=
  let chosen :=
    if anyBit c.revents EPOLLHUP && !anyBit c.revents EPOLLIN then some .close
    else if anyBit c.revents EPOLLERR then some .error
    else if anyBit c.revents (EPOLLIN ||| EPOLLRDHUP ||| EPOLLPRI) then some .read
    else if anyBit c.revents EPOLLOUT then some .write
    else none
  chosen.filter (· ∈ c.callbacks)

def handleEvent (c : Channel) : Option Callback :=
  if c.tied then
    if c.tie then c.handleEventWithGuard else none
  else
    c.handleEventWithGuard

end Channel

/-! ## The kernel's interest set

`epoll_ctl` as the manual describes it: to add a descriptor that is there, or to change or remove
one that is not, is rejected. -/

/-- What the kernel watches for one descriptor, and whether it will report on it. -/
structure Registration where
  events : BitVec 32
  ptr : Nat
  armed : Bool
deriving DecidableEq, Repr

inductive EpollOp where
  | ADD
  | MOD
  | DEL
deriving DecidableEq, Repr

/-- `epoll_ctl`; `none` is a rejected call. -/
def epollCtl (interest : Nat → Option Registration) (op : EpollOp) (fd : Nat)
    (events : BitVec 32) (ptr : Nat) : Option (Nat → Option Registration) :=
  match op, interest fd with
  | .ADD, none => some (Function.update interest fd (some ⟨events, ptr, true⟩))
  | .ADD, some _ => none
  | .MOD, none => none
  | .MOD, some _ => some (Function.update interest fd (some ⟨events, ptr, true⟩))
  | .DEL, none => none
  | .DEL, some _ => some (Function.update interest fd none)

/-! ## The poller

The poller records the calls it makes and whether they were taken, since the source goes on after
a failure as after a success. -/

/-- A call of `epoll_ctl`, and whether the kernel has taken it. -/
structure CtlCall where
  op : EpollOp
  fd : Nat
  events : BitVec 32
  ptr : Nat
  taken : Bool
deriving DecidableEq, Repr

/-- The poller's map from descriptors to channels, the kernel's interest set behind `epollfd_`, and
the calls that the poller has made of the kernel. -/
structure EpollPoller where
  channels : Nat → Option Nat
  interest : Nat → Option Registration
  calls : List CtlCall

namespace EpollPoller

def new : EpollPoller where
  channels := fun _ => none
  interest := fun _ => none
  calls := []

def hasChannel (p : EpollPoller) (c : Channel) : Bool := p.channels c.fd == some c.this

/-- `update(operation, channel)`; a rejected call changes nothing but the record. -/
def update (p : EpollPoller) (op : EpollOp) (c : Channel) : EpollPoller :=
  let result := epollCtl p.interest op c.fd c.events c.this
  { p with
    interest := result.getD p.interest
    calls := p.calls ++ [⟨op, c.fd, c.events, c.this, result.isSome⟩] }

def updateChannel (p : EpollPoller) (c : Channel) : EpollPoller × Channel :=
  if c.status = .kNew ∨ c.status = .kDeleted then
    let p :=
      if c.status = .kNew then { p with channels := Function.update p.channels c.fd (some c.this) }
      else p
    let c := { c with status := .kAdded }
    (p.update .ADD c, c)
  else
    if c.isNoneEvent then
      (p.update .DEL c, { c with status := .kDeleted })
    else
      (p.update .MOD c, c)

def removeChannel (p : EpollPoller) (c : Channel) : EpollPoller × Channel :=
  let p := { p with channels := Function.update p.channels c.fd none }
  let p := if c.status = .kAdded then p.update .DEL c else p
  (p, { c with status := .kNew })

/-- The kernel reports `revents` for `fd`: possible for an armed registration and events it
watches, errors and hang-ups always among them. A one-shot registration is disarmed. -/
def report (p : EpollPoller) (fd : Nat) (revents : BitVec 32) : Option EpollPoller :=
  match p.interest fd with
  | none => none
  | some r =>
    if r.armed ∧ revents ≠ 0#32 ∧ revents &&& (r.events ||| EPOLLERR ||| EPOLLHUP) = revents then
      some { p with interest := Function.update p.interest fd
                      (some { r with armed := !anyBit r.events EPOLLONESHOT }) }
    else
      none

theorem report_spec {p p' : EpollPoller} {fd : Nat} {revents : BitVec 32}
    (h : p.report fd revents = some p') :
    ∃ r, p.interest fd = some r ∧ p'.interest
      = Function.update p.interest fd (some { r with armed := !anyBit r.events EPOLLONESHOT }) := by
  unfold report at h
  split at h
  · cases h
  · next r hr =>
    split at h
    · cases h
      exact ⟨r, hr, rfl⟩
    · cases h

end EpollPoller

/-! ## A channel changes its events

`Channel::update` goes through the loop to its poller, so the poller is an argument and a
result. -/

namespace Channel

def update (c : Channel) (p : EpollPoller) : EpollPoller × Channel := p.updateChannel c

def enableReading (c : Channel) (p : EpollPoller) : EpollPoller × Channel :=
  update { c with events := c.events ||| (kReadEvent ||| kCloseEvent) } p

def enableWriting (c : Channel) (p : EpollPoller) : EpollPoller × Channel :=
  update { c with events := c.events ||| (kWriteEvent ||| kCloseEvent) } p

def disableReading (c : Channel) (p : EpollPoller) : EpollPoller × Channel :=
  update { c with events := c.events &&& ~~~kReadEvent } p

def disableWriting (c : Channel) (p : EpollPoller) : EpollPoller × Channel :=
  update { c with events := c.events &&& ~~~kWriteEvent } p

def disableAll (c : Channel) (p : EpollPoller) : EpollPoller × Channel :=
  update { c with events := kNoneEvent } p

def remove (c : Channel) (p : EpollPoller) : EpollPoller × Channel := p.removeChannel c

end Channel

end HttpWebserver
