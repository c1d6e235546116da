import HttpWebserver.Reactor.Registration

/-!
# Reactor — what a channel asks for

The calls on a channel set and clear bits of `events_`. `kReadEvent` and `kWriteEvent` share
`EPOLLONESHOT`, and an enabling call sets `kCloseEvent`, which only `disableAll` clears.

* `Interest`: the four groups of bits as flags, and what each call makes of them
  (`Interest.call_events`);
* `after_reading`, `after_writing`, `after_oneShot`: the flags after a sequence of calls, read off
  its last calls;
* **`independent_iff`** — after which sequences the answers for the two directions are right and
  the last call leaves the other direction alone, and along which sequences they are so after every
  call;
* **`watched_for_events_iff`** — in which runs the kernel never watches a descriptor whose channel
  asks for nothing.
-/

namespace HttpWebserver

open Machine

/-- The groups of bits in the `events_` of a channel. -/
@[ext]
structure Interest where
  reading : Bool
  writing : Bool
  oneShot : Bool
  closing : Bool
deriving DecidableEq, Repr

namespace Interest

def kReadable : BitVec 32 := EPOLLIN ||| EPOLLPRI

/-- The value of `flag ? mask : 0`. -/
def bits (flag : Bool) (mask : BitVec 32) : BitVec 32 := if flag then mask else 0#32

def events (i : Interest) : BitVec 32 :=
  bits i.reading kReadable ||| bits i.writing EPOLLOUT ||| bits i.oneShot EPOLLONESHOT |||
    bits i.closing Channel.kCloseEvent

def none : Interest := ⟨false, false, false, false⟩

/-- A call as a change of the flags. -/
def call (i : Interest) : ChannelOp → Interest
  | .enableReading => ⟨true, i.writing, true, true⟩
  | .enableWriting => ⟨i.reading, true, true, true⟩
  | .disableReading => ⟨false, i.writing, false, i.closing⟩
  | .disableWriting => ⟨i.reading, false, false, i.closing⟩
  | .disableAll => none
  | .remove => i

/-- The flags of a new channel after a sequence of calls. -/
def after (ops : List ChannelOp) : Interest := ops.foldl call none

theorem after_concat (ops : List ChannelOp) (op : ChannelOp) :
    after (ops ++ [op]) = (after ops).call op := by
  rw [after, List.foldl_append]
  rfl

theorem events_inj : ∀ {i j : Interest}, i.events = j.events → i = j := by
  have hall : ∀ r w o c r' w' o' c' : Bool,
      events ⟨r, w, o, c⟩ = events ⟨r', w', o', c'⟩ → r = r' ∧ w = w' ∧ o = o' ∧ c = c' := by
    decide
  intro i j h
  obtain ⟨hr, hw, ho, hc⟩ := hall _ _ _ _ _ _ _ _ h
  exact Interest.ext hr hw ho hc

/-- The masks of the source do to the events what `call` does to the flags. -/
theorem call_events (op : ChannelOp) {i : Interest} {c : Channel} (h : c.events = i.events) :
    op.events c = (i.call op).events := by
  have hall : ∀ r w o k : Bool,
      events ⟨r, w, o, k⟩ ||| (Channel.kReadEvent ||| Channel.kCloseEvent)
        = events ⟨true, w, true, true⟩ ∧
      events ⟨r, w, o, k⟩ ||| (Channel.kWriteEvent ||| Channel.kCloseEvent)
        = events ⟨r, true, true, true⟩ ∧
      events ⟨r, w, o, k⟩ &&& ~~~Channel.kReadEvent = events ⟨false, w, false, k⟩ ∧
      events ⟨r, w, o, k⟩ &&& ~~~Channel.kWriteEvent = events ⟨r, false, false, k⟩ := by
    decide
  obtain ⟨her, hew, hdr, hdw⟩ := hall i.reading i.writing i.oneShot i.closing
  cases op with
  | enableReading => rw [ChannelOp.events, h]; exact her
  | enableWriting => rw [ChannelOp.events, h]; exact hew
  | disableReading => rw [ChannelOp.events, h]; exact hdr
  | disableWriting => rw [ChannelOp.events, h]; exact hdw
  | disableAll => show Channel.kNoneEvent = none.events; decide
  | remove => exact h

/-- The answers of a channel: each direction's mask has the shared bit. -/
theorem isReading_eq {i : Interest} {c : Channel} (h : c.events = i.events) :
    c.isReading = (i.reading || i.oneShot) ∧ c.isWriting = (i.writing || i.oneShot) := by
  have hall : ∀ r w o k : Bool,
      anyBit (events ⟨r, w, o, k⟩) Channel.kReadEvent = (r || o) ∧
      anyBit (events ⟨r, w, o, k⟩) Channel.kWriteEvent = (w || o) := by
    decide
  rw [Channel.isReading, Channel.isWriting, h]
  exact hall i.reading i.writing i.oneShot i.closing

/-- The readiness bits of each direction and the one-shot bit. -/
theorem events_bits (i : Interest) :
    i.events &&& kReadable = bits i.reading kReadable ∧
      i.events &&& EPOLLOUT = bits i.writing EPOLLOUT ∧
      anyBit i.events EPOLLONESHOT = i.oneShot := by
  have hall : ∀ r w o k : Bool,
      events ⟨r, w, o, k⟩ &&& kReadable = bits r kReadable ∧
      events ⟨r, w, o, k⟩ &&& EPOLLOUT = bits w EPOLLOUT ∧
      anyBit (events ⟨r, w, o, k⟩) EPOLLONESHOT = o := by
    decide
  exact hall i.reading i.writing i.oneShot i.closing

end Interest

/-! ## The calls so far

The flags of a channel are decided by the last of some calls each, and by no earlier one. -/

namespace ChannelOp

/-- The last call among those that `decides` picks. -/
def lastOf (decides : ChannelOp → Bool) (ops : List ChannelOp) : Option ChannelOp :=
  (ops.filter decides).getLast?

theorem lastOf_concat (decides : ChannelOp → Bool) (ops : List ChannelOp) (op : ChannelOp) :
    lastOf decides (ops ++ [op]) = if decides op then some op else lastOf decides ops := by
  cases hop : decides op <;> simp [lastOf, hop]

def decidesReading : ChannelOp → Bool
  | enableReading | disableReading | disableAll => true
  | enableWriting | disableWriting | remove => false

def decidesWriting : ChannelOp → Bool
  | enableWriting | disableWriting | disableAll => true
  | enableReading | disableReading | remove => false

/-- The last of the calls for reading enabled it. -/
def ReadingEnabled (ops : List ChannelOp) : Prop :=
  lastOf decidesReading ops = some enableReading

def WritingEnabled (ops : List ChannelOp) : Prop :=
  lastOf decidesWriting ops = some enableWriting

/-- The last call that changes the events is an enabling one. -/
def EnabledLast (ops : List ChannelOp) : Prop :=
  lastOf (· ≠ remove) ops = some enableReading ∨ lastOf (· ≠ remove) ops = some enableWriting

instance (ops : List ChannelOp) : Decidable (ReadingEnabled ops) :=
  inferInstanceAs (Decidable (_ = _))

instance (ops : List ChannelOp) : Decidable (WritingEnabled ops) :=
  inferInstanceAs (Decidable (_ = _))

/-- A sequence of calls on one channel. -/
def applyAll (ops : List ChannelOp) (c : Channel) (p : EpollPoller) : EpollPoller × Channel :=
  ops.foldl (fun r op => op.apply r.2 r.1) (p, c)

theorem applyAll_concat (ops : List ChannelOp) (op : ChannelOp) (c : Channel) (p : EpollPoller) :
    applyAll (ops ++ [op]) c p = op.apply (applyAll ops c p).2 (applyAll ops c p).1 := by
  rw [applyAll, List.foldl_append]
  rfl

end ChannelOp

open ChannelOp

namespace Interest

/-- A flag that some calls decide is as the last of them has left it. -/
theorem after_iff (flag : Interest → Bool) (decides : ChannelOp → Bool)
    (enables : ChannelOp → Prop) (hnew : flag none = false)
    (hcall : ∀ i op, flag (call i op) = true ↔ if decides op then enables op else flag i = true)
    (ops : List ChannelOp) :
    flag (after ops) = true ↔ ∃ op, lastOf decides ops = some op ∧ enables op := by
  induction ops using List.reverseRecOn with
  | nil =>
    show flag none = true ↔ _
    simp [hnew, lastOf]
  | append_singleton ops op ih =>
    rw [after_concat, lastOf_concat, hcall]
    split
    · simp
    · exact ih

theorem after_reading (ops : List ChannelOp) :
    (after ops).reading = true ↔ ReadingEnabled ops := by
  rw [after_iff reading decidesReading (· = enableReading) rfl]
  · simp [ReadingEnabled]
  · intro i op
    cases op <;> simp [call, decidesReading, none]

theorem after_writing (ops : List ChannelOp) :
    (after ops).writing = true ↔ WritingEnabled ops := by
  rw [after_iff writing decidesWriting (· = enableWriting) rfl]
  · simp [WritingEnabled]
  · intro i op
    cases op <;> simp [call, decidesWriting, none]

theorem after_oneShot (ops : List ChannelOp) :
    (after ops).oneShot = true ↔ EnabledLast ops := by
  rw [after_iff oneShot (· ≠ remove) (fun op => op = enableReading ∨ op = enableWriting) rfl]
  · simp [EnabledLast, and_or_left, exists_or]
  · intro i op
    cases op <;> simp [call, none]

end Interest

theorem apply_events (op : ChannelOp) (c : Channel) (p : EpollPoller) :
    (op.apply c p).2.events = op.events c := by
  by_cases hop : op = .remove
  · subst hop
    rfl
  · rw [apply_update hop]
    unfold EpollPoller.updateChannel
    split
    · rfl
    · split
      · rfl
      · rfl

/-- The events of a new channel after a sequence of calls. -/
theorem applyAll_events (this fd : Nat) (p : EpollPoller) (ops : List ChannelOp) :
    (applyAll ops (Channel.new this fd) p).2.events = (Interest.after ops).events := by
  induction ops using List.reverseRecOn with
  | nil =>
    show Channel.kNoneEvent = Interest.none.events
    decide
  | append_singleton ops op ih =>
    rw [applyAll_concat, apply_events, Interest.after_concat]
    exact Interest.call_events op ih

/-! ## Two directions

The masks of reading and writing share the one-shot bit, so a call for one direction can change
the answer for the other. The condition is on the bit that they share. -/

/-- A channel after the calls `ops` and after one more call: the readiness bits in `mask` and the
one-shot bit are the same. -/
def SameFor (mask : BitVec 32) (c c' : Channel) : Prop :=
  c'.events &&& mask = c.events &&& mask ∧
    anyBit c'.events EPOLLONESHOT = anyBit c.events EPOLLONESHOT

/-- After the calls `ops` on the channel `c`, the answers for reading and for writing are what the
last call for each direction made them, and the last of the calls, if it was for one direction, has
not changed the other, enabled one. -/
structure Independent (p : EpollPoller) (c : Channel) (ops : List ChannelOp) : Prop where
  reading : (applyAll ops c p).2.isReading = true ↔ ReadingEnabled ops
  writing : (applyAll ops c p).2.isWriting = true ↔ WritingEnabled ops
  readingKept : ∀ pre op, ops = pre ++ [op] → op = .enableWriting ∨ op = .disableWriting →
    ReadingEnabled pre → SameFor (EPOLLIN ||| EPOLLPRI) (applyAll pre c p).2 (applyAll ops c p).2
  writingKept : ∀ pre op, ops = pre ++ [op] → op = .enableReading ∨ op = .disableReading →
    WritingEnabled pre → SameFor EPOLLOUT (applyAll pre c p).2 (applyAll ops c p).2

/-- The call `op` behind the calls `pre` leaves the one bit for both directions as each of them
needs it. -/
def OneShotAgrees (pre : List ChannelOp) : ChannelOp → Prop
  | .enableReading => WritingEnabled pre ∧ EnabledLast pre
  | .enableWriting => ReadingEnabled pre ∧ EnabledLast pre
  | .disableReading => WritingEnabled pre → ¬ EnabledLast pre
  | .disableWriting => ReadingEnabled pre → ¬ EnabledLast pre
  | .disableAll => True
  | .remove => EnabledLast pre → ReadingEnabled pre ∧ WritingEnabled pre

namespace Interest

/-- The answers in these flags are right. -/
def Answers (i : Interest) : Prop := i.oneShot = true → i.reading = true ∧ i.writing = true

theorem answers_iff (i : Interest) :
    i.Answers ↔ ((i.reading || i.oneShot) = true ↔ i.reading = true) ∧
      ((i.writing || i.oneShot) = true ↔ i.writing = true) := by
  obtain ⟨r, w, o, k⟩ := i
  cases r <;> cases w <;> cases o <;> simp [Answers]

end Interest

section Independence

variable {this fd : Nat} {p : EpollPoller} {pre : List ChannelOp}

theorem bits_inj {mask : BitVec 32} (hmask : mask ≠ 0#32) (f g : Bool) :
    Interest.bits f mask = Interest.bits g mask ↔ f = g := by
  cases f <;> cases g <;> simp [Interest.bits, hmask, hmask.symm]

theorem sameFor_reading (op : ChannelOp) :
    SameFor (EPOLLIN ||| EPOLLPRI) (applyAll pre (Channel.new this fd) p).2
        (applyAll (pre ++ [op]) (Channel.new this fd) p).2 ↔
      ((Interest.after pre).call op).reading = (Interest.after pre).reading ∧
        ((Interest.after pre).call op).oneShot = (Interest.after pre).oneShot := by
  obtain ⟨hbefore, -, hshot⟩ := Interest.events_bits (Interest.after pre)
  obtain ⟨hafter, -, hshot'⟩ := Interest.events_bits ((Interest.after pre).call op)
  rw [Interest.kReadable] at hbefore hafter
  rw [SameFor, applyAll_events, applyAll_events, Interest.after_concat, hbefore, hafter, hshot,
    hshot', bits_inj (by decide)]

theorem sameFor_writing (op : ChannelOp) :
    SameFor EPOLLOUT (applyAll pre (Channel.new this fd) p).2
        (applyAll (pre ++ [op]) (Channel.new this fd) p).2 ↔
      ((Interest.after pre).call op).writing = (Interest.after pre).writing ∧
        ((Interest.after pre).call op).oneShot = (Interest.after pre).oneShot := by
  obtain ⟨-, hbefore, hshot⟩ := Interest.events_bits (Interest.after pre)
  obtain ⟨-, hafter, hshot'⟩ := Interest.events_bits ((Interest.after pre).call op)
  rw [SameFor, applyAll_events, applyAll_events, Interest.after_concat, hbefore, hafter, hshot,
    hshot', bits_inj (by decide)]

/-- The answers after a sequence of calls. -/
theorem answers_after (this fd : Nat) (p : EpollPoller) (ops : List ChannelOp) :
    (((applyAll ops (Channel.new this fd) p).2.isReading = true ↔ ReadingEnabled ops) ∧
      ((applyAll ops (Channel.new this fd) p).2.isWriting = true ↔ WritingEnabled ops)) ↔
      (Interest.after ops).Answers := by
  have heq := Interest.isReading_eq (applyAll_events this fd p ops)
  rw [heq.1, heq.2, ← Interest.after_reading, ← Interest.after_writing]
  exact (Interest.answers_iff _).symm

theorem forall_concat_eq {α : Type*} {as : List α} {a : α} {P : List α → α → Prop} :
    (∀ bs b, as ++ [a] = bs ++ [b] → P bs b) ↔ P as a := by
  constructor
  · exact fun h => h as a rfl
  · intro h bs b heq
    obtain ⟨rfl, hb⟩ := List.append_inj' heq rfl
    cases hb
    exact h

/-- What the last call has to leave in the flags. -/
theorem independent_concat (op : ChannelOp) :
    Independent p (Channel.new this fd) (pre ++ [op]) ↔
      ((Interest.after pre).call op).Answers ∧
      (op = .enableWriting ∨ op = .disableWriting → ReadingEnabled pre →
        ((Interest.after pre).call op).reading = (Interest.after pre).reading ∧
          ((Interest.after pre).call op).oneShot = (Interest.after pre).oneShot) ∧
      (op = .enableReading ∨ op = .disableReading → WritingEnabled pre →
        ((Interest.after pre).call op).writing = (Interest.after pre).writing ∧
          ((Interest.after pre).call op).oneShot = (Interest.after pre).oneShot) := by
  rw [← Interest.after_concat, ← answers_after this fd p]
  rw [Interest.after_concat, ← sameFor_reading, ← sameFor_writing]
  constructor
  · intro h
    exact ⟨⟨h.reading, h.writing⟩, h.readingKept pre op rfl, h.writingKept pre op rfl⟩
  · rintro ⟨⟨hreading, hwriting⟩, hreadingKept, hwritingKept⟩
    exact ⟨hreading, hwriting, forall_concat_eq.mpr hreadingKept, forall_concat_eq.mpr hwritingKept⟩

end Independence

/-- What the last call decides. -/
theorem independent_last (this fd : Nat) (p : EpollPoller) (ops : List ChannelOp) :
    Independent p (Channel.new this fd) ops ↔
      ∀ pre op, ops = pre ++ [op] → OneShotAgrees pre op := by
  induction ops using List.reverseRecOn with
  | nil =>
    refine iff_of_true ?_ fun pre op h => absurd h (by simp)
    have hanswers : (Interest.after []).Answers := fun h => absurd h (by decide)
    obtain ⟨hreading, hwriting⟩ := (answers_after this fd p []).mpr hanswers
    exact ⟨hreading, hwriting, fun pre op h => absurd h (by simp),
      fun pre op h => absurd h (by simp)⟩
  | append_singleton pre op =>
    rw [independent_concat, forall_concat_eq]
    unfold OneShotAgrees
    rw [← Interest.after_reading, ← Interest.after_writing, ← Interest.after_oneShot]
    generalize Interest.after pre = i
    obtain ⟨reading, writing, oneShot, closing⟩ := i
    -- what each call makes of the shared bit, beside the flags of the two directions
    cases op with
    | enableReading => cases writing <;> simp [Interest.call, Interest.Answers, eq_comm]
    | enableWriting => cases reading <;> simp [Interest.call, Interest.Answers, eq_comm]
    | disableReading => cases writing <;> simp [Interest.call, Interest.Answers, eq_comm]
    | disableWriting => cases reading <;> simp [Interest.call, Interest.Answers, eq_comm]
    | disableAll => simp [Interest.call, Interest.Answers, Interest.none]
    | remove => simp [Interest.call, Interest.Answers]

/-- **The two directions.** After a sequence of calls on a new channel the answers for reading and
writing are right, and the last call has left the other direction alone, exactly when no call was
made or the last one leaves the shared one-shot bit as both directions need it. They are so after
each call of the sequence exactly when each call leaves the bit so. -/
theorem independent_iff (this fd : Nat) (p : EpollPoller) (ops : List ChannelOp) :
    (Independent p (Channel.new this fd) ops ↔
        ∀ pre op, ops = pre ++ [op] → OneShotAgrees pre op) ∧
      ((∀ before, before <+: ops → Independent p (Channel.new this fd) before) ↔
        ∀ pre op, pre ++ [op] <+: ops → OneShotAgrees pre op) := by
  refine ⟨independent_last this fd p ops, fun h pre op hpre => ?_, fun h before hpre => ?_⟩
  · exact (independent_last this fd p _).mp (h _ hpre) pre op rfl
  · refine (independent_last this fd p before).mpr fun pre op heq => h pre op ?_
    rw [← heq]
    exact hpre

/-- `enableReading` on a new channel: it is writing, too. -/
theorem independent_enableReading :
    ¬ ∀ ops, ChannelOp.remove ∉ ops → Independent .new (Channel.new 0 5) ops := by
  intro h
  have hwriting := (h [.enableReading] (by decide)).writing
  exact absurd (hwriting.mp (by decide)) (by decide)

/-! ## Watched for nothing

`updateChannel` tests for `kNoneEvent` only where the channel is registered. A channel that is not
is added, whatever its events are. -/

/-- The flags of a channel, where only `disableAll` has cleared the close bits. -/
def Flagged (c : Channel) (i : Interest) : Prop :=
  c.events = i.events ∧ (i.closing = false → i = .none)

/-- A call that leaves no events is made on a channel that is registered. -/
def ChannelOp.Withdraws (c : Channel) : ChannelOp → Prop
  | .disableAll => c.status = .kAdded
  | .disableReading | .disableWriting => c.isNoneEvent = true → c.status = .kAdded
  | .enableReading | .enableWriting | .remove => True

/-- A channel that is registered asks for events. -/
def AsksIfAdded (c : Channel) : Prop := c.status = .kAdded → c.events ≠ Channel.kNoneEvent

section Watched

variable {p : EpollPoller} {c : Channel} {i : Interest} {op : ChannelOp}

theorem flagged_new (this fd : Nat) : Flagged (Channel.new this fd) .none := by
  refine ⟨?_, fun _ => rfl⟩
  show Channel.kNoneEvent = Interest.none.events
  decide

theorem Flagged.call (h : Flagged c i) (op : ChannelOp) (p : EpollPoller) :
    Flagged (op.apply c p).2 (i.call op) := by
  obtain ⟨hevents, hclosing⟩ := h
  refine ⟨(apply_events op c p).trans (Interest.call_events op hevents), fun hclear => ?_⟩
  cases op with
  | enableReading => cases hclear
  | enableWriting => cases hclear
  | disableAll => rfl
  | disableReading => rw [hclosing hclear]; rfl
  | disableWriting => rw [hclosing hclear]; rfl
  | remove => exact hclosing hclear

theorem Flagged.none_iff (h : Flagged c i) : c.events = Channel.kNoneEvent ↔ i = .none := by
  have hnone : Channel.kNoneEvent = Interest.none.events := by decide
  rw [h.1, hnone]
  exact ⟨Interest.events_inj, congrArg Interest.events⟩

/-- A disabling call leaves no events where there are none. -/
theorem Flagged.disable_none_iff (h : Flagged c i)
    (hop : op = .disableReading ∨ op = .disableWriting) :
    op.events c = Channel.kNoneEvent ↔ c.isNoneEvent = true := by
  have hcall := h.call op .new
  rw [← apply_events op c .new, hcall.none_iff, Channel.isNoneEvent, beq_iff_eq, h.none_iff]
  rcases hop with rfl | rfl
  · exact ⟨fun hnone => h.2 (congrArg Interest.closing hnone), fun hnone => by rw [hnone]; rfl⟩
  · exact ⟨fun hnone => h.2 (congrArg Interest.closing hnone), fun hnone => by rw [hnone]; rfl⟩

/-- An update without events on a channel that is not registered takes the branch that adds it. -/
theorem asksIfAdded_update (hop : op ≠ .remove) :
    AsksIfAdded (op.apply c p).2 ↔ (op.events c = Channel.kNoneEvent → c.status = .kAdded) := by
  rw [AsksIfAdded, apply_events, (apply_channel op c p).2.2, if_neg hop, ctlCall_update hop]
  by_cases hnone : op.events c = Channel.kNoneEvent
  · cases c.status <;> simp [hnone]
  · simp [hnone]

/-- **What one call does to a registered channel.** -/
theorem asksIfAdded_iff (h : Flagged c i) (op : ChannelOp) :
    AsksIfAdded (op.apply c p).2 ↔ op.Withdraws c := by
  cases op with
  | remove =>
    refine iff_of_true (fun hadded => ?_) trivial
    cases ((apply_channel .remove c p).2.2).symm.trans hadded
  | disableAll =>
    rw [asksIfAdded_update (by decide)]
    exact ⟨fun h => h rfl, fun h _ => h⟩
  | disableReading =>
    rw [asksIfAdded_update (by decide), h.disable_none_iff (.inl rfl)]
    exact Iff.rfl
  | disableWriting =>
    rw [asksIfAdded_update (by decide), h.disable_none_iff (.inr rfl)]
    exact Iff.rfl
  | enableReading =>
    refine iff_of_true (fun _ hnone => ?_) trivial
    cases congrArg Interest.closing ((h.call .enableReading p).none_iff.mp hnone)
  | enableWriting =>
    refine iff_of_true (fun _ hnone => ?_) trivial
    cases congrArg Interest.closing ((h.call .enableWriting p).none_iff.mp hnone)

end Watched

namespace Registry

section Runs

variable {ι : Type*} {s s' : Registry ι}

/-- A descriptor in the interest set belongs to a channel that asks for events. -/
def WatchedForEvents (s : Registry ι) : Prop :=
  ∀ i, (s.poller.interest (s.channel i).fd).isSome → (s.channel i).events ≠ Channel.kNoneEvent

theorem Consistent.watchedForEvents_iff (h : s.Consistent) :
    s.WatchedForEvents ↔ ∀ i, AsksIfAdded (s.channel i) := by
  refine forall_congr' fun i => imp_congr_left ?_
  rw [(h.tracked i).interest]
  by_cases hadded : (s.channel i).status = .kAdded
  · simp [hadded]
  · simp [hadded]

variable [DecidableEq ι]

theorem step_channel {i : ι} {op : ChannelOp} (h : s.step (i, op) = some s') (j : ι) :
    s'.channel j = if j = i then (op.apply (s.channel i) s.poller).2 else s.channel j := by
  cases h
  exact Function.update_apply _ _ _ _

/-- **Watched for its events.** Whatever is done to channels with distinct descriptors that start
as new channels: the kernel watches, in every state, only descriptors whose channel asks for
events, exactly when each call that leaves its channel without events is made on a channel that is
registered. -/
theorem watched_for_events_iff (this : ι → Nat) {fd : ι → Nat} (hfd : Function.Injective fd)
    (ls : List (ι × ChannelOp)) :
    (∀ js, js <+: ls → ∀ s, exec step (start this fd) js = some s → s.WatchedForEvents) ↔
      Along step (fun s l => l.2.Withdraws (s.channel l.1)) (start this fd) ls := by
  obtain ⟨s, hrun, -⟩ := exec_consistent this hfd ls
  let I : List (ι × ChannelOp) → Registry ι → Prop := fun _ s =>
    s.Consistent ∧ ∀ i, (∃ f, Flagged (s.channel i) f) ∧ AsksIfAdded (s.channel i)
  refine always_iff_along (I := I) ?_ ?_ ?_ ?_ hrun
  · refine ⟨start_consistent this hfd, fun i => ⟨⟨_, flagged_new _ _⟩, fun hadded => ?_⟩⟩
    cases hadded
  · exact fun js s _ hs => hs.1.watchedForEvents_iff.mpr fun i => (hs.2 i).2
  · rintro js s ⟨i, op⟩ t - ⟨hs, hall⟩ hop ht
    refine ⟨step_consistent hs ht, fun j => ?_⟩
    obtain ⟨f, hf⟩ := (hall i).1
    rw [step_channel ht]
    split
    · exact ⟨⟨_, hf.call op _⟩, (asksIfAdded_iff hf op).mpr hop⟩
    · exact hall j
  · rintro js s ⟨i, op⟩ t - ⟨hs, hall⟩ hop ht hgood
    obtain ⟨f, hf⟩ := (hall i).1
    have hasks := (step_consistent hs ht).watchedForEvents_iff.mp hgood i
    rw [step_channel ht, if_pos rfl] at hasks
    exact hop ((asksIfAdded_iff hf op).mp hasks)

/-- Two channels, one of them disabled twice. -/
theorem watched_for_events_iff_sample :
    (∀ js, js <+: [(0, .enableReading), (1, .enableWriting), (0, .disableAll), (0, .disableAll)] →
        ∀ s, exec step (start (· + 100) (· + 5)) js = some s → s.WatchedForEvents) ↔
      Along step (fun s l => l.2.Withdraws (s.channel l.1)) (start (· + 100) (· + 5))
        [(0, .enableReading), (1, .enableWriting), (0, .disableAll), (0, .disableAll)] :=
  watched_for_events_iff (· + 100) (fun _ _ h => Nat.add_right_cancel h) _

/-- The second `disableAll` adds the channel again, with no events. -/
theorem watched_for_nothing :
    ¬ ∀ (ls : List (Unit × ChannelOp)) s,
      exec step (start (fun _ => 100) (fun _ => 5)) ls = some s → s.WatchedForEvents := by
  intro h
  have hagain := h [((), .enableReading), ((), .disableAll), ((), .disableAll)] _ rfl ()
  exact hagain (by decide) rfl

end Runs

end Registry

end HttpWebserver
