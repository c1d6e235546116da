import HttpWebserver.Reactor.Channel
import HttpWebserver.Lib.Machine

/-!
# Reactor — the three views of a registration

A channel's `status_`, the map `channels_` of its poller and the kernel's interest set change in
different branches of `updateChannel` and `removeChannel`.

* `ctlCall`: the one call of `epoll_ctl` that an operation on a channel makes, if it makes any. It
  is what the poller records (`apply_calls`), and accounts for the interest set (`apply_interest`);
* `apply_spec`: an operation keeps the three views of its channel together and leaves the other
  descriptors alone;
* **`views_agree`** — from new channels with distinct descriptors, whatever is done to them, the
  kernel rejects no call and the three views agree.
-/

namespace HttpWebserver

open Machine

/-- A call on a channel that reaches the poller. -/
inductive ChannelOp where
  | enableReading
  | enableWriting
  | disableReading
  | disableWriting
  | disableAll
  | remove
deriving DecidableEq, Repr

namespace ChannelOp

def apply (op : ChannelOp) (c : Channel) (p : EpollPoller) : EpollPoller × Channel :=
  match op with
  | enableReading => c.enableReading p
  | enableWriting => c.enableWriting p
  | disableReading => c.disableReading p
  | disableWriting => c.disableWriting p
  | disableAll => c.disableAll p
  | remove => c.remove p

/-- The events of the channel when the poller is called. -/
def events (op : ChannelOp) (c : Channel) : BitVec 32 :=
  match op with
  | enableReading => c.events ||| (Channel.kReadEvent ||| Channel.kCloseEvent)
  | enableWriting => c.events ||| (Channel.kWriteEvent ||| Channel.kCloseEvent)
  | disableReading => c.events &&& ~~~Channel.kReadEvent
  | disableWriting => c.events &&& ~~~Channel.kWriteEvent
  | disableAll => Channel.kNoneEvent
  | remove => c.events

/-- The operation that is passed to `epoll_ctl`, as `apply_calls` reads it off the source. -/
def ctlCall (op : ChannelOp) (c : Channel) : Option EpollOp :=
  match op with
  | remove => if c.status = .kAdded then some .DEL else none
  | op =>
    if c.status = .kNew ∨ c.status = .kDeleted then some .ADD
    else if op.events c = Channel.kNoneEvent then some .DEL
    else some .MOD

end ChannelOp

/-- A poller with its channels. -/
structure Registry (ι : Type*) where
  poller : EpollPoller
  channel : ι → Channel

namespace Registry

variable {ι : Type*} [DecidableEq ι]

def start (this fd : ι → Nat) : Registry ι where
  poller := EpollPoller.new
  channel i := Channel.new (this i) (fd i)

/-- A call on the channel `l.1`. -/
def step (s : Registry ι) (l : ι × ChannelOp) : Option (Registry ι) :=
  let (poller, c) := l.2.apply (s.channel l.1) s.poller
  some { poller := poller, channel := Function.update s.channel l.1 c }

/-- The kernel has taken every call of `epoll_ctl` that the poller has made. -/
def Accepted (s : Registry ι) : Prop := ∀ call ∈ s.poller.calls, call.taken = true

/-- What the kernel watches, what the map holds and what the channels say. -/
structure Agree (s : Registry ι) : Prop where
  interest : ∀ fd r, s.poller.interest fd = some r ↔ ∃ i, (s.channel i).fd = fd ∧
    (s.channel i).status = .kAdded ∧ r = ⟨(s.channel i).events, (s.channel i).this, true⟩
  channels : ∀ fd p, s.poller.channels fd = some p ↔ ∃ i, (s.channel i).fd = fd ∧
    ((s.channel i).status = .kAdded ∨ (s.channel i).status = .kDeleted) ∧
      p = (s.channel i).this
  hasChannel : ∀ i, s.poller.hasChannel (s.channel i) = true ↔ (s.channel i).status ≠ .kNew

end Registry

/-! ## One operation

What an operation does to the entry of its own channel, by the channel's status, and that it
leaves all other entries alone. `apply_calls` reads the call of `epoll_ctl` off the record of the
poller, so that what the kernel is said to accept is what the poller has asked for. -/

section Apply

variable {p : EpollPoller} {c : Channel} {op : ChannelOp}

/-- What the poller and the kernel hold for the descriptor of a channel. -/
structure Tracked (p : EpollPoller) (c : Channel) : Prop where
  interest : p.interest c.fd =
    if c.status = .kAdded then some ⟨c.events, c.this, true⟩ else none
  channels : p.channels c.fd = if c.status = .kNew then none else some c.this

/-- The poller has the same entries for all other descriptors. -/
def Elsewhere (p p' : EpollPoller) (fd : Nat) : Prop :=
  ∀ fd' ≠ fd, p'.interest fd' = p.interest fd' ∧ p'.channels fd' = p.channels fd'

/-- What an operation makes of the poller and of its channel. -/
structure Applied (p : EpollPoller) (c : Channel) (r : EpollPoller × Channel) : Prop where
  tracked : Tracked r.1 r.2
  elsewhere : Elsewhere p r.1 c.fd
  fd : r.2.fd = c.fd

theorem epollCtl_add {interest : Nat → Option Registration} {fd : Nat}
    (h : interest fd = none) (events : BitVec 32) (this : Nat) :
    epollCtl interest .ADD fd events this
      = some (Function.update interest fd (some ⟨events, this, true⟩)) := by
  simp only [epollCtl, h]

theorem epollCtl_mod {interest : Nat → Option Registration} {fd : Nat} {r : Registration}
    (h : interest fd = some r) (events : BitVec 32) (this : Nat) :
    epollCtl interest .MOD fd events this
      = some (Function.update interest fd (some ⟨events, this, true⟩)) := by
  simp only [epollCtl, h]

theorem epollCtl_del {interest : Nat → Option Registration} {fd : Nat} {r : Registration}
    (h : interest fd = some r) (events : BitVec 32) (this : Nat) :
    epollCtl interest .DEL fd events this = some (Function.update interest fd none) := by
  simp only [epollCtl, h]

theorem epollCtl_elsewhere {interest : Nat → Option Registration} {o : EpollOp} {fd fd' ptr : Nat}
    {events : BitVec 32} (hne : fd' ≠ fd) :
    ((epollCtl interest o fd events ptr).getD interest) fd' = interest fd' := by
  cases hfd : interest fd with
  | none =>
    cases o with
    | ADD =>
      rw [epollCtl_add hfd, Option.getD_some]
      exact Function.update_of_ne hne _ _
    | MOD => simp only [epollCtl, hfd, Option.getD_none]
    | DEL => simp only [epollCtl, hfd, Option.getD_none]
  | some r =>
    cases o with
    | ADD => simp only [epollCtl, hfd, Option.getD_none]
    | MOD =>
      rw [epollCtl_mod hfd, Option.getD_some]
      exact Function.update_of_ne hne _ _
    | DEL =>
      rw [epollCtl_del hfd, Option.getD_some]
      exact Function.update_of_ne hne _ _

/-- Every call but `remove` writes the events and updates the channel. -/
theorem apply_update (hop : op ≠ .remove) (c : Channel) (p : EpollPoller) :
    op.apply c p = p.updateChannel { c with events := op.events c } := by
  cases op with
  | remove => exact absurd rfl hop
  | enableReading => rfl
  | enableWriting => rfl
  | disableReading => rfl
  | disableWriting => rfl
  | disableAll => rfl

theorem ctlCall_update (hop : op ≠ .remove) (c : Channel) :
    op.ctlCall c =
      if c.status = .kNew ∨ c.status = .kDeleted then some .ADD
      else if op.events c = Channel.kNoneEvent then some .DEL else some .MOD := by
  cases op with
  | remove => exact absurd rfl hop
  | enableReading => rfl
  | enableWriting => rfl
  | disableReading => rfl
  | disableWriting => rfl
  | disableAll => rfl

/-- **The call that is made.** An operation makes this call of `epoll_ctl` and no other. -/
theorem apply_calls (op : ChannelOp) (c : Channel) (p : EpollPoller) :
    (op.apply c p).1.calls = p.calls ++ (op.ctlCall c).toList.map fun o =>
      ⟨o, c.fd, op.events c, c.this,
        (epollCtl p.interest o c.fd (op.events c) c.this).isSome⟩ := by
  by_cases hop : op = .remove
  · subst hop
    unfold ChannelOp.apply Channel.remove EpollPoller.removeChannel ChannelOp.ctlCall
    cases c.status with
    | kNew => exact (List.append_nil _).symm
    | kDeleted => exact (List.append_nil _).symm
    | kAdded => rfl
  · rw [apply_update hop, ctlCall_update hop]
    generalize op.events c = events
    unfold EpollPoller.updateChannel EpollPoller.update Channel.isNoneEvent
    cases c.status with
    | kNew => rfl
    | kDeleted => rfl
    | kAdded =>
      by_cases hnone : events = Channel.kNoneEvent
      · simp [hnone]
      · simp [hnone]

/-- The call accounts for all that changes in the interest set. -/
theorem apply_interest (op : ChannelOp) (c : Channel) (p : EpollPoller) :
    (op.apply c p).1.interest = (op.ctlCall c).elim p.interest fun o =>
      (epollCtl p.interest o c.fd (op.events c) c.this).getD p.interest := by
  by_cases hop : op = .remove
  · subst hop
    unfold ChannelOp.apply Channel.remove EpollPoller.removeChannel ChannelOp.ctlCall
    cases c.status <;> rfl
  · rw [apply_update hop, ctlCall_update hop]
    generalize op.events c = events
    unfold EpollPoller.updateChannel EpollPoller.update Channel.isNoneEvent
    cases c.status with
    | kNew => rfl
    | kDeleted => rfl
    | kAdded =>
      by_cases hnone : events = Channel.kNoneEvent
      · simp [hnone]
      · simp [hnone]

/-- The channel afterwards, whatever the kernel says to the call. -/
theorem apply_channel (op : ChannelOp) (c : Channel) (p : EpollPoller) :
    (op.apply c p).2.this = c.this ∧ (op.apply c p).2.fd = c.fd ∧
      (op.apply c p).2.status =
        if op = .remove then .kNew
        else if op.ctlCall c = some .DEL then .kDeleted else .kAdded := by
  by_cases hop : op = .remove
  · subst hop
    exact ⟨rfl, rfl, rfl⟩
  · rw [apply_update hop, ctlCall_update hop, if_neg hop]
    generalize op.events c = events
    unfold EpollPoller.updateChannel Channel.isNoneEvent
    cases hstatus : c.status with
    | kNew => exact ⟨rfl, rfl, rfl⟩
    | kDeleted => exact ⟨rfl, rfl, rfl⟩
    | kAdded =>
      by_cases hnone : events = Channel.kNoneEvent
      · simp [hnone]
      · simp [hnone]

/-- A call on a channel leaves the other descriptors alone. -/
theorem apply_elsewhere (op : ChannelOp) (c : Channel) (p : EpollPoller) :
    Elsewhere p (op.apply c p).1 c.fd := by
  intro fd hne
  constructor
  · rw [apply_interest]
    cases op.ctlCall c with
    | none => rfl
    | some o => exact epollCtl_elsewhere hne
  · by_cases hop : op = .remove
    · subst hop
      show (p.removeChannel c).1.channels fd = p.channels fd
      unfold EpollPoller.removeChannel EpollPoller.update
      split
      · exact Function.update_of_ne hne _ _
      · exact Function.update_of_ne hne _ _
    · rw [apply_update hop]
      unfold EpollPoller.updateChannel EpollPoller.update
      cases c.status with
      | kNew => exact Function.update_of_ne hne _ _
      | kDeleted => rfl
      | kAdded =>
        simp only [reduceCtorEq, or_self, if_false]
        split
        · rfl
        · rfl

theorem updateChannel_tracked (h : Tracked p c) (events : BitVec 32) :
    Tracked (p.updateChannel { c with events := events }).1
      (p.updateChannel { c with events := events }).2 := by
  obtain ⟨hinterest, hchannels⟩ := h
  cases hstatus : c.status with
  | kNew =>
    -- it enters the map and the interest set
    rw [hstatus] at hinterest
    simp only [EpollPoller.updateChannel, EpollPoller.update, true_or, if_true,
      epollCtl_add hinterest, Option.getD_some]
    exact ⟨Function.update_self _ _ _, Function.update_self _ _ _⟩
  | kDeleted =>
    -- it is in the map already
    rw [hstatus] at hinterest hchannels
    simp only [EpollPoller.updateChannel, EpollPoller.update, or_true, if_true,
      reduceCtorEq, if_false, epollCtl_add hinterest, Option.getD_some]
    exact ⟨Function.update_self _ _ _, hchannels⟩
  | kAdded =>
    rw [hstatus] at hinterest hchannels
    by_cases hnone : events = Channel.kNoneEvent
    · have hdel := epollCtl_del hinterest events c.this
      simp only [EpollPoller.updateChannel, EpollPoller.update, reduceCtorEq, or_self,
        if_false, Channel.isNoneEvent, hnone, beq_self_eq_true, if_true] at hdel ⊢
      rw [hdel]
      exact ⟨Function.update_self _ _ _, hchannels⟩
    · have hmod := epollCtl_mod hinterest events c.this
      have hne : (events == Channel.kNoneEvent) = false := beq_eq_false_iff_ne.mpr hnone
      simp only [EpollPoller.updateChannel, EpollPoller.update, reduceCtorEq, or_self,
        if_false, Channel.isNoneEvent, hne, Bool.false_eq_true, hmod, Option.getD_some]
      exact ⟨Function.update_self _ _ _, hchannels⟩

theorem removeChannel_tracked (h : Tracked p c) :
    Tracked (p.removeChannel c).1 (p.removeChannel c).2 := by
  obtain ⟨hinterest, -⟩ := h
  by_cases hadded : c.status = .kAdded
  · rw [if_pos hadded] at hinterest
    have hdel := epollCtl_del hinterest c.events c.this
    simp only [EpollPoller.removeChannel, EpollPoller.update, hadded, if_true, hdel,
      Option.getD_some]
    exact ⟨Function.update_self _ _ _, Function.update_self _ _ _⟩
  · rw [if_neg hadded] at hinterest
    simp only [EpollPoller.removeChannel, if_neg hadded]
    exact ⟨hinterest, Function.update_self _ _ _⟩

/-- A new channel is registered, whatever the kernel holds for its descriptor. -/
theorem updateChannel_kNew (p : EpollPoller) (hnew : c.status = .kNew) :
    (p.updateChannel c).2.status = .kAdded ∧
      (p.updateChannel c).1.hasChannel (p.updateChannel c).2 = true ∧
      ((p.updateChannel c).1.interest (p.updateChannel c).2.fd).isSome := by
  simp only [EpollPoller.updateChannel, hnew, true_or, if_true, EpollPoller.update]
  refine ⟨trivial, ?_, ?_⟩
  · simp only [EpollPoller.hasChannel, Function.update_self, beq_self_eq_true]
  · cases hinterest : p.interest c.fd with
    | none =>
      rw [epollCtl_add hinterest, Option.getD_some, Function.update_self, Option.isSome_some]
    | some r =>
      -- the call is rejected, and the old registration stays
      simp only [epollCtl, hinterest, Option.getD_none, Option.isSome_some]

/-- The kernel may report an event that an added channel has asked for. -/
theorem Tracked.report {revents : BitVec 32} (h : Tracked p c) (hadded : c.status = .kAdded)
    (hne : revents ≠ 0#32) (hmask : revents &&& c.events = revents) :
    ∃ p', p.report c.fd revents = some p' := by
  have hinterest := h.interest
  rw [if_pos hadded] at hinterest
  have hwatched : revents &&& (c.events ||| EPOLLERR ||| EPOLLHUP) = revents := by
    ext i hi
    have hbit : (revents[i] && c.events[i]) = revents[i] := by rw [← BitVec.getElem_and, hmask]
    rw [BitVec.getElem_and, BitVec.getElem_or, BitVec.getElem_or]
    grind
  rw [EpollPoller.report, hinterest]
  exact ⟨_, if_pos ⟨rfl, hne, hwatched⟩⟩

theorem apply_tracked (h : Tracked p c) (op : ChannelOp) :
    Tracked (op.apply c p).1 (op.apply c p).2 := by
  by_cases hop : op = .remove
  · subst hop
    exact removeChannel_tracked h
  · rw [apply_update hop]
    exact updateChannel_tracked h _

theorem apply_applied (h : Tracked p c) (op : ChannelOp) : Applied p c (op.apply c p) where
  tracked := apply_tracked h op
  elsewhere := apply_elsewhere op c p
  fd := (apply_channel op c p).2.1

/-- The kernel takes the call. -/
theorem ctlCall_accepted (h : Tracked p c) (op : ChannelOp) {o : EpollOp}
    (ho : op.ctlCall c = some o) : (epollCtl p.interest o c.fd (op.events c) c.this).isSome := by
  have hinterest := h.interest
  -- the five setters share `updateChannel`, so the branches of `index_` are checked once
  have hupdate : (if c.status = .kNew ∨ c.status = .kDeleted then some EpollOp.ADD
      else if op.events c = Channel.kNoneEvent then some .DEL else some .MOD) = some o →
      (epollCtl p.interest o c.fd (op.events c) c.this).isSome := by
    intro ho
    cases hstatus : c.status with
    | kAdded =>
      rw [hstatus] at hinterest ho
      split at ho
      · next hbad => simp at hbad
      split at ho <;> cases ho
      · rw [epollCtl_del hinterest, Option.isSome_some]
      · rw [epollCtl_mod hinterest, Option.isSome_some]
    | kNew =>
      rw [hstatus] at hinterest ho
      cases ho
      rw [epollCtl_add hinterest, Option.isSome_some]
    | kDeleted =>
      rw [hstatus] at hinterest ho
      cases ho
      rw [epollCtl_add hinterest, Option.isSome_some]
  cases op with
  -- `removeChannel` calls only for a channel that is added
  | remove =>
    simp only [ChannelOp.ctlCall] at ho
    split at ho
    · next hadded =>
      cases ho
      rw [if_pos hadded] at hinterest
      rw [epollCtl_del hinterest, Option.isSome_some]
    · cases ho
  | enableReading => exact hupdate ho
  | enableWriting => exact hupdate ho
  | disableReading => exact hupdate ho
  | disableWriting => exact hupdate ho
  | disableAll => exact hupdate ho

end Apply

/-! ## Runs

Channels with distinct descriptors do not meet in the interest set or in the map, so `Tracked` is
kept for each channel by itself. -/

namespace Registry

section Runs

variable {ι : Type*} {s s' : Registry ι} {l : ι × ChannelOp}

/-- The channels have distinct descriptors, and nothing else is registered. -/
structure Consistent (s : Registry ι) : Prop where
  distinct : Function.Injective fun i => (s.channel i).fd
  tracked : ∀ i, Tracked s.poller (s.channel i)
  only : ∀ fd, (∀ i, (s.channel i).fd ≠ fd) →
    s.poller.interest fd = none ∧ s.poller.channels fd = none

theorem start_consistent (this : ι → Nat) {fd : ι → Nat} (hfd : Function.Injective fd) :
    (start this fd).Consistent where
  distinct := hfd
  tracked _ := ⟨rfl, rfl⟩
  only _ _ := ⟨rfl, rfl⟩

theorem Consistent.agree (h : s.Consistent) : s.Agree := by
  refine ⟨fun fd r => ⟨fun hr => ?_, ?_⟩, fun fd p => ⟨fun hp => ?_, ?_⟩, fun i => ?_⟩
  · -- the epoll set is that of the added channels
    by_cases hex : ∃ i, (s.channel i).fd = fd
    · obtain ⟨i, rfl⟩ := hex
      have hi := (h.tracked i).interest
      rw [hr] at hi
      split at hi
      · next hadded => exact ⟨i, rfl, hadded, Option.some.inj hi⟩
      · cases hi
    · rw [(h.only fd fun i hi => hex ⟨i, hi⟩).1] at hr
      cases hr
  · rintro ⟨i, rfl, hadded, rfl⟩
    rw [(h.tracked i).interest, if_pos hadded]
  · -- `channels_` is that of the channels with any history
    by_cases hex : ∃ i, (s.channel i).fd = fd
    · obtain ⟨i, rfl⟩ := hex
      have hi := (h.tracked i).channels
      rw [hp] at hi
      split at hi
      · cases hi
      · next hold =>
        refine ⟨i, rfl, ?_, Option.some.inj hi⟩
        cases hstatus : (s.channel i).status with
        | kNew => exact absurd hstatus hold
        | kAdded => exact .inl rfl
        | kDeleted => exact .inr rfl
    · rw [(h.only fd fun i hi => hex ⟨i, hi⟩).2] at hp
      cases hp
  · rintro ⟨i, rfl, hold, rfl⟩
    rw [(h.tracked i).channels, if_neg]
    intro hnew
    rw [hnew] at hold
    simp at hold
  · rw [EpollPoller.hasChannel, (h.tracked i).channels]
    by_cases hnew : (s.channel i).status = .kNew
    · simp [hnew]
    · simp [hnew]

variable [DecidableEq ι]

theorem step_consistent (h : s.Consistent) (hs : s.step l = some s') : s'.Consistent := by
  obtain ⟨i, op⟩ := l
  obtain ⟨htracked, helsewhere, hfd⟩ := apply_applied (h.tracked i) op
  generalize hr : op.apply (s.channel i) s.poller = r at htracked helsewhere hfd
  have hs' : s' = ⟨r.1, Function.update s.channel i r.2⟩ := by
    rw [← hr]
    exact (Option.some.inj hs).symm
  subst hs'
  have hfds : ∀ j, ((Function.update s.channel i r.2) j).fd = (s.channel j).fd := by
    intro j
    rcases eq_or_ne j i with rfl | hne
    · rw [Function.update_self]
      exact hfd
    · rw [Function.update_of_ne hne]
  refine ⟨fun j k hjk => h.distinct ?_, fun j => ?_, fun fd hother => ?_⟩
  · simpa only [hfds] using hjk
  · -- the called channel, by what one call does
    rcases eq_or_ne j i with rfl | hne
    · simp only [Function.update_self]
      exact htracked
    · -- another channel, so another descriptor
      have hsame := helsewhere (s.channel j).fd fun heq => hne (h.distinct heq)
      simp only [Function.update_of_ne hne]
      exact ⟨hsame.1.trans (h.tracked j).interest, hsame.2.trans (h.tracked j).channels⟩
  · simp only [hfds] at hother
    have hsame := helsewhere fd (hother i).symm
    obtain ⟨hinterest, hchannels⟩ := h.only fd hother
    exact ⟨hsame.1.trans hinterest, hsame.2.trans hchannels⟩

/-- The call of the step finds the registration that it needs. -/
theorem step_accepted (h : s.Consistent) (hacc : s.Accepted) (hs : s.step l = some s') :
    s'.Accepted := by
  obtain ⟨i, op⟩ := l
  cases hs
  intro call hcall
  have hcall : call ∈ (op.apply (s.channel i) s.poller).1.calls := hcall
  rw [apply_calls] at hcall
  rcases List.mem_append.mp hcall with hold | hnew
  · exact hacc call hold
  · obtain ⟨o, ho, rfl⟩ := List.mem_map.mp hnew
    exact ctlCall_accepted (h.tracked i) op (Option.mem_toList.mp ho)

/-- Every run is possible, and keeps both. -/
theorem exec_consistent (this : ι → Nat) {fd : ι → Nat} (hfd : Function.Injective fd)
    (ls : List (ι × ChannelOp)) :
    ∃ s, exec step (start this fd) ls = some s ∧ s.Consistent ∧ s.Accepted := by
  have hstart : (start this fd).Consistent ∧ (start this fd).Accepted :=
    ⟨start_consistent this hfd, fun _ hcall => absurd hcall List.not_mem_nil⟩
  exact exec_progress
    (I := fun _ (s : Registry ι) => s.Consistent ∧ s.Accepted) (P := fun _ _ => True)
    hstart (fun _ _ _ h _ => ⟨_, rfl, step_consistent h.1 rfl, step_accepted h.1 h.2 rfl⟩)
    along_true

/-- **The views agree.** Whatever is done, in whatever order, to channels with distinct
descriptors that start as new channels: the kernel has taken every call of `epoll_ctl`, and after
every operation the kernel's interest set, the poller's map and the channels' status agree. -/
theorem views_agree (this : ι → Nat) {fd : ι → Nat} (hfd : Function.Injective fd)
    (ls : List (ι × ChannelOp)) :
    ∃ s, exec step (start this fd) ls = some s ∧ s.Accepted ∧ s.Agree := by
  obtain ⟨s, hrun, hs, hacc⟩ := exec_consistent this hfd ls
  exact ⟨s, hrun, hacc, hs.agree⟩

/-- Two channels, one of them closed and registered again: six operations make six calls. -/
theorem views_agree_sample :
    (∃ s, exec step (start (· + 100) (· + 5))
        [(0, .enableReading), (1, .enableWriting), (0, .disableAll), (0, .enableReading),
          (1, .enableReading), (1, .remove)] = some s ∧
      s.poller.calls.map CtlCall.op = [.ADD, .ADD, .DEL, .ADD, .MOD, .DEL]) ∧
      ∃ s, exec step (start (· + 100) (· + 5))
        [(0, .enableReading), (1, .enableWriting), (0, .disableAll), (0, .enableReading),
          (1, .enableReading), (1, .remove)] = some s ∧ s.Accepted ∧ s.Agree :=
  ⟨⟨_, rfl, rfl⟩, views_agree (· + 100) (fun _ _ h => Nat.add_right_cancel h) _⟩

end Runs

end Registry

end HttpWebserver
