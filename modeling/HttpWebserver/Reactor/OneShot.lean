import HttpWebserver.Reactor.Dispatch
import Mathlib.Data.Bool.Basic

/-!
# Reactor — one event for each time that a channel is enabled

`kReadEvent` and `kWriteEvent` have `EPOLLONESHOT`, so that a connection that is handed to a thread
is not reported to another one before it is enabled again.

* `apply_entry`: an entry of the interest set is an old one, or the call has made it, armed;
* `armed`, `pending`: what has been enabled and not been handled yet;
* `step_pending`: a step takes what it handles from there;
* **`handled_once_per_enable`** — `handleEvent` is not called on a channel more often than the
  channel is enabled, in any part of any run.
-/

namespace HttpWebserver

open Machine

namespace Dispatch

def Label.calls : Label → List (Nat × ChannelOp)
  | .poll _ => []
  | .dispatch calls => calls
  | .outside calls => calls

/-- A call on the channel at `a` that enables it. -/
def Enables (a : Nat) (l : Nat × ChannelOp) : Prop := l.1 = a ∧ l.2 ≠ .remove

instance (a : Nat) (l : Nat × ChannelOp) : Decidable (Enables a l) :=
  inferInstanceAs (Decidable (l.1 = a ∧ l.2 ≠ .remove))

/-- A channel that is handled as `HttpConnection` handles its own: enabled again, or removed. -/
def NotDisabled (a : Nat) (l : Nat × ChannelOp) : Prop :=
  l.1 = a → l.2 = .enableReading ∨ l.2 = .enableWriting ∨ l.2 = .remove

instance (a : Nat) (l : Nat × ChannelOp) : Decidable (NotDisabled a l) :=
  inferInstanceAs (Decidable (l.1 = a → _))

/-- The kernel may report an event for the channel at `a`. -/
def armed (r : Registry Nat) (a : Nat) : Bool :=
  (r.poller.interest (r.channel a).fd).any fun reg => reg.ptr == a && reg.armed

/-- The events of the channel that are to be handled, and the one that can be reported. -/
def pending (s : Dispatch) (a : Nat) : Nat :=
  s.activeChannels.count a + (armed s.registry a).toNat

/-- The call of `handleEvent` on the channel at `a`, if the step makes it. -/
def handlings (a : Nat) (s : Dispatch) (l : Label) : List Nat :=
  (s.handled l).toList.filter (· = a)

/-- The calls of the step that enable the channel at `a`. -/
def enablings (a : Nat) (_ : Dispatch) (l : Label) : List (Nat × ChannelOp) :=
  l.calls.filter (Enables a ·)

/-! ## One call -/

section Apply

variable {p : EpollPoller} {c : Channel} {op : ChannelOp}

theorem epollCtl_made {interest : Nat → Option Registration} {o : EpollOp} {fd ptr : Nat}
    {events : BitVec 32} {r : Registration}
    (h : ((epollCtl interest o fd events ptr).getD interest) fd = some r) :
    interest fd = some r ∨ (o ≠ .DEL ∧ r = ⟨events, ptr, true⟩) := by
  cases hfd : interest fd with
  | none =>
    cases o with
    | ADD =>
      rw [epollCtl_add hfd, Option.getD_some, Function.update_self] at h
      cases h
      exact .inr ⟨by decide, rfl⟩
    | MOD => simp [epollCtl, hfd] at h
    | DEL => simp [epollCtl, hfd] at h
  | some r₀ =>
    cases o with
    | ADD =>
      simp only [epollCtl, hfd, Option.getD_none] at h
      exact .inl h
    | MOD =>
      rw [epollCtl_mod hfd, Option.getD_some, Function.update_self] at h
      cases h
      exact .inr ⟨by decide, rfl⟩
    | DEL =>
      rw [epollCtl_del hfd, Option.getD_some, Function.update_self] at h
      cases h

/-- An entry after the call is an old one, or the call has made it for its channel. -/
theorem apply_entry {fd : Nat} {r : Registration}
    (h : (op.apply c p).1.interest fd = some r) :
    p.interest fd = some r ∨
      (fd = c.fd ∧ op ≠ .remove ∧ r = ⟨op.events c, c.this, true⟩) := by
  rcases eq_or_ne fd c.fd with rfl | hne
  · rw [apply_interest] at h
    cases hcall : op.ctlCall c with
    | none =>
      rw [hcall] at h
      exact .inl h
    | some o =>
      rw [hcall] at h
      rcases epollCtl_made h with hold | ⟨hdel, hmade⟩
      · exact .inl hold
      · refine .inr ⟨rfl, fun hremove => hdel ?_, hmade⟩
        -- the one call that `remove` may make
        subst hremove
        simp only [ChannelOp.ctlCall] at hcall
        split at hcall
        · exact (Option.some.inj hcall).symm
        · cases hcall
  · rw [(apply_elsewhere op c p fd hne).1] at h
    exact .inl h

theorem enabled_oneShot (c : Channel) (hop : op = .enableReading ∨ op = .enableWriting) :
    anyBit (op.events c) EPOLLONESHOT = true := by
  have hbit : ∀ events : BitVec 32, events.getLsbD 30 = true →
      anyBit events EPOLLONESHOT = true := by
    intro events hset
    rw [anyBit, bne_iff_ne]
    intro hzero
    have hbit := congrArg (BitVec.getLsbD · 30) hzero
    rw [BitVec.getLsbD_and, hset] at hbit
    revert hbit
    decide
  apply hbit
  rcases hop with rfl | rfl
  · show (c.events ||| (Channel.kReadEvent ||| Channel.kCloseEvent)).getLsbD 30 = true
    rw [BitVec.getLsbD_or, Bool.or_eq_true]
    exact .inr (by decide)
  · show (c.events ||| (Channel.kWriteEvent ||| Channel.kCloseEvent)).getLsbD 30 = true
    rw [BitVec.getLsbD_or, Bool.or_eq_true]
    exact .inr (by decide)

end Apply

/-! ## The calls of a step -/

section Calls

variable {r r' : Registry Nat} {a : Nat}

/-- All entries that point to the channel at `a` are disarmed by an event. -/
structure OneShot (a : Nat) (r : Registry Nat) : Prop where
  pointed : Pointed r
  entry : ∀ fd reg, r.poller.interest fd = some reg → reg.ptr = a →
    anyBit reg.events EPOLLONESHOT = true

theorem armed_iff : armed r a = true ↔
    ∃ reg, r.poller.interest (r.channel a).fd = some reg ∧ reg.ptr = a ∧ reg.armed = true := by
  simp only [armed, Option.any_eq_true, Bool.and_eq_true, beq_iff_eq]

theorem step_fd {l : Nat × ChannelOp} (hs : r.step l = some r') (b : Nat) :
    (r'.channel b).fd = (r.channel b).fd := by
  rw [(step_spec hs).2]
  rcases eq_or_ne b l.1 with rfl | hne
  · rw [Function.update_self]
    exact (apply_channel l.2 _ _).2.1
  · rw [Function.update_of_ne hne]

theorem call_oneShot (h : OneShot a r) {l : Nat × ChannelOp} (hl : NotDisabled a l)
    (hs : r.step l = some r') : OneShot a r' := by
  refine ⟨step_pointed h.pointed hs, fun fd reg hreg hptr => ?_⟩
  rw [(step_spec hs).1] at hreg
  rcases apply_entry hreg with hold | ⟨-, hop, rfl⟩
  · exact h.entry fd reg hold hptr
  · -- the entry is made by a call on this channel
    have hl₁ : l.1 = a := (h.pointed.this l.1).symm.trans hptr
    apply enabled_oneShot
    rcases hl hl₁ with hread | hwrite | hremove
    · exact .inl hread
    · exact .inr hwrite
    · exact absurd hremove hop

/-- Only a call that enables the channel arms it. -/
theorem call_armed (h : Pointed r) {l : Nat × ChannelOp} (hs : r.step l = some r')
    (harmed : armed r' a = true) : armed r a = true ∨ Enables a l := by
  obtain ⟨reg, hreg, hptr, hon⟩ := armed_iff.mp harmed
  rw [step_fd hs, (step_spec hs).1] at hreg
  rcases apply_entry hreg with hold | ⟨-, hop, rfl⟩
  · exact .inl (armed_iff.mpr ⟨reg, hold, hptr, hon⟩)
  · exact .inr ⟨(h.this l.1).symm.trans hptr, hop⟩

theorem calls_oneShot {ls : List (Nat × ChannelOp)} (h : OneShot a r)
    (hls : ∀ l ∈ ls, NotDisabled a l) (hrun : exec Registry.step r ls = some r') :
    OneShot a r' ∧ (armed r' a).toNat ≤ (armed r a).toNat + (ls.filter (Enables a ·)).length := by
  refine exec_induction (P := fun ls r' => (∀ l ∈ ls, NotDisabled a l) → OneShot a r' ∧
    (armed r' a).toNat ≤ (armed r a).toNat + (ls.filter (Enables a ·)).length) ?_ ?_ hrun hls
  · exact fun _ => ⟨h, Nat.le_add_right _ _⟩
  · intro ls r₁ l r₂ _ ih hs hls
    obtain ⟨hls, hl⟩ := List.forall_mem_append.mp hls
    obtain ⟨h₁, hcount⟩ := ih hls
    have hl := hl l List.mem_cons_self
    refine ⟨call_oneShot h₁ hl hs, ?_⟩
    rw [List.filter_append, List.length_append, List.filter_singleton]
    by_cases henables : Enables a l
    · rw [decide_eq_true henables, cond_true, List.length_singleton]
      have hone := Bool.toNat_le (armed r₂ a)
      omega
    · have hstays : (armed r₂ a).toNat ≤ (armed r₁ a).toNat :=
        Bool.toNat_le_toNat fun hon => (call_armed h₁.pointed hs hon).resolve_right henables
      omega

end Calls

/-! ## Rounds

A report turns an armed entry into an element of the batch, and a handling takes that element off.
Only an enabling call arms the entry again: the number of handlings, with what is pending, is
bounded by the number of enabling calls. -/

section Rounds

variable {s s' : Dispatch} {a : Nat} {l : Label}

/-- The report that is possible for a descriptor, and what it leaves behind there. -/
theorem report_armed {p p' : EpollPoller} {fd : Nat} {revents : BitVec 32}
    (h : p.report fd revents = some p') {r : Registration} (hr : p.interest fd = some r) :
    r.armed = true ∧ p'.interest =
      Function.update p.interest fd (some { r with armed := !anyBit r.events EPOLLONESHOT }) := by
  unfold EpollPoller.report at h
  rw [hr] at h
  simp only at h
  split at h
  · next hcan =>
    cases h
    exact ⟨hcan.1, rfl⟩
  · cases h

/-- An event that is reported was armed, and only its entry changes. -/
theorem fillActive_interest {event : Nat × BitVec 32} {reg : Registration}
    (hreg : s.registry.poller.interest event.1 = some reg)
    (hs : s.fillActive event = some s') :
    reg.armed = true ∧ s'.registry.poller.interest =
      Function.update s.registry.poller.interest event.1
        (some { reg with armed := !anyBit reg.events EPOLLONESHOT }) := by
  unfold fillActive at hs
  rw [hreg] at hs
  obtain ⟨poller, hreport, rfl⟩ := Option.map_eq_some_iff.mp hs
  exact report_armed hreport hreg

theorem fillActive_oneShot {event : Nat × BitVec 32} (h : OneShot a s.registry)
    (hs : s.fillActive event = some s') : OneShot a s'.registry := by
  obtain ⟨reg, hreg, -, -, hchannel, hentry⟩ := fillActive_spec hs
  obtain ⟨-, hinterest⟩ := fillActive_interest hreg hs
  refine ⟨h.pointed.of_same hchannel hentry, fun fd reg' hreg' hptr => ?_⟩
  rw [hinterest] at hreg'
  rcases eq_or_ne fd event.1 with rfl | hne
  · rw [Function.update_self] at hreg'
    cases hreg'
    exact h.entry _ reg hreg hptr
  · rw [Function.update_of_ne hne] at hreg'
    exact h.entry fd reg' hreg' hptr

/-- The event goes into the batch, and its entry is disarmed. -/
theorem fillActive_pending {event : Nat × BitVec 32} (h : OneShot a s.registry)
    (hs : s.fillActive event = some s') : s'.pending a ≤ s.pending a := by
  obtain ⟨reg, hreg, hbatch, -, hchannel, -⟩ := fillActive_spec hs
  obtain ⟨hon, hinterest⟩ := fillActive_interest hreg hs
  have hfd := (h.pointed.entry event.1 reg hreg).1
  unfold pending
  rw [hbatch, List.count_append, List.count_singleton]
  by_cases hptr : reg.ptr = a
  · -- the entry was armed and is disarmed; the batch has the channel once more
    subst hptr
    have hbefore : armed s.registry reg.ptr = true :=
      armed_iff.mpr ⟨reg, by rw [hfd]; exact hreg, rfl, hon⟩
    have hafter : armed s'.registry reg.ptr = false := by
      rw [armed, (hchannel reg.ptr).2.1, hfd, hinterest, Function.update_self]
      simp [h.entry event.1 reg hreg rfl]
    rw [hbefore, hafter]
    simp
  · -- the report of another channel arms nothing
    have hstays : (armed s'.registry a).toNat ≤ (armed s.registry a).toNat := by
      refine Bool.toNat_le_toNat fun hafter => ?_
      obtain ⟨reg', hreg', hptr', hon'⟩ := armed_iff.mp hafter
      rw [(hchannel a).2.1, hinterest] at hreg'
      rcases eq_or_ne (s.registry.channel a).fd event.1 with heq | hne
      · -- the descriptor is this channel's, but the entry is another one's
        rw [heq, Function.update_self] at hreg'
        cases hreg'
        exact absurd hptr' hptr
      · rw [Function.update_of_ne hne] at hreg'
        exact armed_iff.mpr ⟨reg', hreg', hptr', hon'⟩
    rw [if_neg (by simpa using hptr)]
    omega

theorem fillActiveChannels_pending {events : List (Nat × BitVec 32)} (h : OneShot a s.registry)
    (hs : s.fillActiveChannels events = some s') :
    OneShot a s'.registry ∧ s'.pending a ≤ s.pending a := by
  refine exec_invariant (I := fun t => OneShot a t.registry ∧ t.pending a ≤ s.pending a) ?_
    ⟨h, Nat.le_refl _⟩ hs
  rintro t event t' ⟨ht, hle⟩ hfill
  exact ⟨fillActive_oneShot ht hfill, Nat.le_trans (fillActive_pending ht hfill) hle⟩

/-- A step handles what is pending, and its calls add to it. -/
theorem step_pending (h : OneShot a s.registry) (hl : ∀ c ∈ l.calls, NotDisabled a c)
    (hs : s.step l = some s') :
    OneShot a s'.registry ∧ (s.handlings a l).length + s'.pending a ≤
      s.pending a + (s.enablings a l).length := by
  cases l with
  | poll events =>
    simp only [step] at hs
    split at hs
    · -- a report moves from armed to the batch, so it adds nothing
      obtain ⟨h', hle⟩ := fillActiveChannels_pending (s := { s with calls := [] }) h hs
      refine ⟨h', ?_⟩
      show 0 + s'.pending a ≤ s.pending a + 0
      rw [Nat.zero_add]
      exact hle
    · cases hs
  | dispatch calls =>
    simp only [step] at hs
    split at hs
    · cases hs
    · next b rest hactive =>
      split at hs
      · cases hs
      · obtain ⟨r, hrun, rfl⟩ := Option.map_eq_some_iff.mp hs
        have hcalls : ∀ c ∈ calls, NotDisabled a c := hl
        obtain ⟨h', hle⟩ := calls_oneShot h hcalls hrun
        refine ⟨h', ?_⟩
        -- the handled channel leaves the batch, and each enabling call arms it at most once
        simp only [handlings, handled, pending, enablings, Label.calls, hactive, List.head?_cons,
          Option.toList_some, List.count_cons, List.filter_cons, List.filter_nil]
        by_cases hb : b = a
        · simp only [hb, decide_true, if_true, List.length_singleton, beq_self_eq_true]
          omega
        · simp only [hb, decide_false, Bool.false_eq_true, if_false, List.length_nil,
            beq_iff_eq]
          omega
  | outside calls =>
    simp only [step] at hs
    split at hs
    · obtain ⟨r, hrun, rfl⟩ := Option.map_eq_some_iff.mp hs
      have hcalls : ∀ c ∈ calls, NotDisabled a c := hl
      obtain ⟨h', hle⟩ := calls_oneShot h hcalls hrun
      refine ⟨h', ?_⟩
      show 0 + (s.activeChannels.count a + (armed r a).toNat) ≤
        s.activeChannels.count a + (armed s.registry a).toNat +
          (calls.filter (Enables a ·)).length
      omega
    · cases hs

theorem start_oneShot (fd : Nat → Nat) (callbacks : Nat → List Callback) :
    OneShot a (start fd callbacks).registry where
  pointed := (start_inv fd callbacks).pointed
  entry _ _ hreg := by cases hreg

variable {fd : Nat → Nat} {callbacks : Nat → List Callback} {pre ls : List Label} {t : Dispatch}

/-- **Handled once for each time it is enabled.** Take a channel that is enabled and removed, and
never disabled. In any run, whatever the other channels do, `handleEvent` is not called on it more
often than it is enabled; and in any later part of the run not more often than it is enabled there,
apart from what was pending before: events in the batch, and one that its entry is armed for. -/
theorem handled_once_per_enable (hpre : exec step (start fd callbacks) pre = some s)
    (hrun : exec step s ls = some t)
    (hcalls : ∀ l ∈ pre ++ ls, ∀ c ∈ l.calls, NotDisabled a c) :
    (emitted step (handlings a) (start fd callbacks) pre).length + s.pending a ≤
        (emitted step (enablings a) (start fd callbacks) pre).length ∧
      (emitted step (handlings a) s ls).length + t.pending a ≤
        s.pending a + (emitted step (enablings a) s ls).length := by
  obtain ⟨hbefore, hafter⟩ := List.forall_mem_append.mp hcalls
  have hstart := start_oneShot (a := a) fd callbacks
  have hpart : ∀ {u v : Dispatch} {ks : List Label}, OneShot a u.registry →
      (∀ l ∈ ks, ∀ c ∈ l.calls, NotDisabled a c) → exec step u ks = some v →
      (emitted step (handlings a) u ks).length + v.pending a ≤
        u.pending a + (emitted step (enablings a) u ks).length := fun hu hks hrun =>
    emitted_potential (I := fun u => OneShot a u.registry)
      (fun _ _ _ hu hl hstep => (step_pending hu hl hstep).1)
      (fun _ _ _ hu hl hstep => (step_pending hu hl hstep).2) hu hks hrun
  have hs : OneShot a s.registry :=
    exec_along (P := fun _ l => ∀ c ∈ l.calls, NotDisabled a c)
      (I := fun _ u => OneShot a u.registry) hstart
      (fun _ _ _ _ _ hu hl hstep => (step_pending hu hl hstep).1) hpre
      ((along_inputs hpre).mpr hbefore)
  refine ⟨?_, hpart hs hafter hrun⟩
  have hfirst := hpart hstart hbefore hpre
  rwa [show (start fd callbacks).pending a = 0 from rfl, Nat.zero_add] at hfirst

/-- A connection's channel is enabled, reported and handled, and enabled again by its handler. -/
def enabledAgain : List Label :=
  [.outside [(100, .enableReading)], .poll [(5, EPOLLIN)], .dispatch [(100, .enableWriting)]]

/-- It is reported again, together with another channel, and then removed. -/
def reportedAgain : List Label :=
  [.outside [(101, .enableReading)], .poll [(6, EPOLLIN), (5, EPOLLOUT)], .dispatch [],
    .dispatch [(100, .remove)]]

theorem handled_once_per_enable_again :
    ∃ s t, exec step (start (· - 95) fun _ => [.read, .write]) enabledAgain = some s ∧
      exec step s reportedAgain = some t ∧
      (∀ l ∈ enabledAgain ++ reportedAgain, ∀ c ∈ l.calls, NotDisabled 100 c) ∧
      (emitted step (handlings 100) (start (· - 95) fun _ => [.read, .write])
          enabledAgain).length + s.pending 100 ≤
        (emitted step (enablings 100) (start (· - 95) fun _ => [.read, .write])
          enabledAgain).length ∧
        (emitted step (handlings 100) s reportedAgain).length + t.pending 100 ≤
          s.pending 100 + (emitted step (enablings 100) s reportedAgain).length :=
  ⟨_, _, rfl, rfl, by decide,
    handled_once_per_enable (show exec step (start (· - 95) fun _ => [.read, .write])
      enabledAgain = _ from rfl) rfl (by decide)⟩

end Rounds

end Dispatch

end HttpWebserver
