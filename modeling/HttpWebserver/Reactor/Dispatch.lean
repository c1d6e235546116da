import HttpWebserver.Reactor.Registration

/-!
# Reactor — one dispatch round

`loop` fills `activeChannels_` with the pointers that `epoll_wait` returns and then calls
`handleEvent` on all of them. A handler that removes a channel changes the poller's map and the
channel's status, and not the batch.

* `fillActiveChannels`: the registration of a reported descriptor says which channel it is for
  (`Pointed`), and this channel is in the poller when the round starts;
* `run_status`: after any calls, a channel is out of the poller exactly when the last call on it
  was `remove`;
* `round_in_order`: the loop handles the batch from the front to the back, whatever the handlers do;
* `LeavesBatch`: the handlers of a round do not leave a channel removed whose turn is to come;
* **`handled_unremoved_iff`** — a channel that a handler has left removed is not handled in the
  round any more, exactly when each round leaves its batch so. The same decides whether every
  channel on which `handleEvent` is called is in the poller.
-/

namespace HttpWebserver

open Machine

/-- The last of the calls on the channel at the address `a`. -/
def lastCall (calls : List (Nat × ChannelOp)) (a : Nat) : Option ChannelOp :=
  (calls.reverse.find? fun l => l.1 = a).map Prod.snd

/-- The loop thread with its channels, which are indexed by their addresses. -/
structure Dispatch where
  registry : Registry Nat
  activeChannels : List Nat
  /-- The calls that the handlers of this round have made. -/
  calls : List (Nat × ChannelOp)

namespace Dispatch

/-- No channel is registered yet, and none is tied: nothing calls `tie`. -/
def start (fd : Nat → Nat) (callbacks : Nat → List Callback) : Dispatch where
  registry :=
    { poller := EpollPoller.new
      channel := fun a => { Channel.new a (fd a) with callbacks := callbacks a } }
  activeChannels := []
  calls := []

/-- An event of `epoll_wait` goes into the batch; `data.ptr` is what was registered. -/
def fillActive (s : Dispatch) (event : Nat × BitVec 32) : Option Dispatch :=
  match s.registry.poller.interest event.1 with
  | none => none
  | some r =>
    (s.registry.poller.report event.1 event.2).map fun poller =>
      let c := { s.registry.channel r.ptr with revents := event.2 }
      { s with
        registry := { poller := poller, channel := Function.update s.registry.channel r.ptr c }
        activeChannels := s.activeChannels ++ [r.ptr] }

def fillActiveChannels (s : Dispatch) (events : List (Nat × BitVec 32)) : Option Dispatch :=
  exec fillActive s events

inductive Label where
  /-- The batch is cleared, and `poll` returns; no events for a timeout or an error. -/
  | poll (events : List (Nat × BitVec 32))
  /-- `handleEvent` on the first of the active channels that are left; the callback, if one is
  called, makes the calls. -/
  | dispatch (calls : List (Nat × ChannelOp))
  /-- Code outside the handlers, while no channel of a batch is left: before the loop, in the
  functors, or in another thread. -/
  | outside (calls : List (Nat × ChannelOp))

def step (s : Dispatch) : Label → Option Dispatch
  | .poll events =>
    -- one call of `epoll_wait` reports a descriptor once
    if s.activeChannels = [] ∧ (events.map Prod.fst).Nodup then
      fillActiveChannels { s with calls := [] } events
    else none
  | .dispatch calls =>
    match s.activeChannels with
    | [] => none
    | a :: rest =>
      if (s.registry.channel a).handleEvent = none ∧ calls ≠ [] then none
      else
        (exec Registry.step s.registry calls).map fun registry =>
          { registry := registry, activeChannels := rest, calls := s.calls ++ calls }
  | .outside calls =>
    if s.activeChannels = [] then
      (exec Registry.step s.registry calls).map fun registry => { s with registry := registry }
    else none

/-- The channel on which the step calls `handleEvent`. -/
def handled (s : Dispatch) : Label → Option Nat
  | .dispatch _ => s.activeChannels.head?
  | _ => none

/-- A channel on which `handleEvent` is called is in the poller; `kNew` is its status outside. -/
def Registered (s : Dispatch) (l : Label) : Prop :=
  ∀ a, s.handled l = some a → (s.registry.channel a).status ≠ .kNew

/-- No handler of the round has removed the channel on which `handleEvent` is called, unless the
channel was registered again. -/
def NotRemoved (s : Dispatch) (l : Label) : Prop :=
  ∀ a, s.handled l = some a → lastCall s.calls a ≠ some .remove

/-- The calls of the handlers of a round, one list for each handler: when the turn of a channel of
the batch comes, the handlers before it have not left it removed. -/
def LeavesBatch (batch : List Nat) (handlers : List (List (Nat × ChannelOp))) : Prop :=
  ∀ i a, i < handlers.length → batch[i]? = some a →
    lastCall (handlers.take i).flatten a ≠ some .remove

/-- Each round of the run leaves the batch alone that `poll` returned. -/
def EachRound (s₀ : Dispatch) (ls : List Label) : Prop :=
  ∀ before events handlers, before ++ .poll events :: handlers.map .dispatch <+: ls →
    ∀ s, exec step s₀ (before ++ [.poll events]) = some s → LeavesBatch s.activeChannels handlers

end Dispatch

/-! ## One call -/

section Apply

variable {p : EpollPoller} {c : Channel} {op : ChannelOp}

/-- Only a call that adds or modifies leaves an entry for the descriptor. -/
theorem epollCtl_entry {interest : Nat → Option Registration} {o : EpollOp} {fd ptr : Nat}
    {events : BitVec 32} {r : Registration}
    (h : ((epollCtl interest o fd events ptr).getD interest) fd = some r) :
    o ≠ .DEL ∧ (r.ptr = ptr ∨ interest fd = some r) := by
  cases hfd : interest fd with
  | none =>
    cases o with
    | ADD =>
      rw [epollCtl_add hfd, Option.getD_some, Function.update_self] at h
      cases h
      exact ⟨by decide, .inl rfl⟩
    | MOD =>
      simp [epollCtl, hfd] at h
    | DEL =>
      simp [epollCtl, hfd] at h
  | some r₀ =>
    cases o with
    | ADD =>
      -- rejected, as the descriptor has an entry already
      simp only [epollCtl, hfd, Option.getD_none] at h
      exact ⟨by decide, .inr h⟩
    | MOD =>
      rw [epollCtl_mod hfd, Option.getD_some, Function.update_self] at h
      cases h
      exact ⟨by decide, .inl rfl⟩
    | DEL =>
      rw [epollCtl_del hfd, Option.getD_some, Function.update_self] at h
      cases h

theorem apply_status_kNew (op : ChannelOp) (c : Channel) (p : EpollPoller) :
    (op.apply c p).2.status = .kNew ↔ op = .remove := by
  rw [(apply_channel op c p).2.2]
  split
  · next h => exact iff_of_true rfl h
  · next h =>
    split
    · exact iff_of_false nofun h
    · exact iff_of_false nofun h

theorem ctlCall_eq_some (h : op ≠ .remove) (c : Channel) : ∃ o, op.ctlCall c = some o := by
  have hchosen : ∀ events, ∃ o, (if c.status = .kNew ∨ c.status = .kDeleted then some EpollOp.ADD
      else if events = Channel.kNoneEvent then some .DEL else some .MOD) = some o := by
    intro events
    split
    · exact ⟨_, rfl⟩
    · split
      · exact ⟨_, rfl⟩
      · exact ⟨_, rfl⟩
  cases op with
  | remove => exact absurd rfl h
  | enableReading => exact hchosen _
  | enableWriting => exact hchosen _
  | disableReading => exact hchosen _
  | disableWriting => exact hchosen _
  | disableAll => exact hchosen _

/-- An entry for the descriptor of the channel is its own, or the call was none that could have
taken it away. -/
theorem apply_interest_self {r : Registration}
    (h : (op.apply c p).1.interest c.fd = some r) :
    (op.apply c p).2.status = .kAdded ∧ r.ptr = c.this ∨
      p.interest c.fd = some r ∧ ((op.apply c p).2.status = .kAdded ∨ c.status ≠ .kAdded) := by
  rw [apply_interest] at h
  rw [(apply_channel op c p).2.2]
  by_cases hremove : op = .remove
  · subst hremove
    by_cases hadded : c.status = .kAdded
    · -- the entry is deleted
      rw [ChannelOp.ctlCall, if_pos hadded] at h
      exact absurd rfl (epollCtl_entry h).1
    · rw [ChannelOp.ctlCall, if_neg hadded] at h
      exact .inr ⟨h, .inr hadded⟩
  · rw [if_neg hremove]
    obtain ⟨o, hcall⟩ := ctlCall_eq_some hremove c
    rw [hcall] at h ⊢
    obtain ⟨hdel, hentry⟩ := epollCtl_entry h
    rw [if_neg fun heq => hdel (Option.some.inj heq)]
    exact hentry.imp (fun hptr => ⟨rfl, hptr⟩) fun hold => ⟨hold, .inl rfl⟩

end Apply

namespace Dispatch

/-! ## The calls of a handler

A handler makes any calls on any channels. What matters to the round is the last call on each
channel: whether it removed it. -/

section Calls

variable {r r' : Registry Nat} {ls : List (Nat × ChannelOp)}

theorem lastCall_append (ls ls' : List (Nat × ChannelOp)) (a : Nat) :
    lastCall (ls ++ ls') a = (lastCall ls' a).or (lastCall ls a) := by
  unfold lastCall
  rw [List.reverse_append, List.find?_append, Option.map_or]

theorem lastCall_concat (ls : List (Nat × ChannelOp)) (l : Nat × ChannelOp) (a : Nat) :
    lastCall (ls ++ [l]) a = if l.1 = a then some l.2 else lastCall ls a := by
  unfold lastCall
  rw [List.reverse_concat, List.find?_cons]
  by_cases hla : l.1 = a
  · simp [hla]
  · simp [hla]

/-- An entry of the interest set points to the channel that it was made for, and this channel
is in the poller. -/
structure Pointed (r : Registry Nat) : Prop where
  this : ∀ a, (r.channel a).this = a
  entry : ∀ fd reg, r.poller.interest fd = some reg →
    (r.channel reg.ptr).fd = fd ∧ (r.channel reg.ptr).status = .kAdded

theorem Pointed.of_same (h : Pointed r)
    (hchannel : ∀ a, (r'.channel a).this = (r.channel a).this ∧
      (r'.channel a).fd = (r.channel a).fd ∧ (r'.channel a).status = (r.channel a).status)
    (hentry : ∀ fd reg, r'.poller.interest fd = some reg →
      ∃ reg₀, r.poller.interest fd = some reg₀ ∧ reg₀.ptr = reg.ptr) : Pointed r' := by
  refine ⟨fun a => (hchannel a).1.trans (h.this a), fun fd reg hreg => ?_⟩
  obtain ⟨reg₀, hreg₀, hptr⟩ := hentry fd reg hreg
  rw [(hchannel reg.ptr).2.1, (hchannel reg.ptr).2.2, ← hptr]
  exact h.entry fd reg₀ hreg₀

theorem step_spec {a : Nat} {op : ChannelOp} (hs : r.step (a, op) = some r') :
    r'.poller = (op.apply (r.channel a) r.poller).1 ∧
      r'.channel = Function.update r.channel a (op.apply (r.channel a) r.poller).2 := by
  cases hs
  exact ⟨rfl, rfl⟩

theorem step_pointed (h : Pointed r) {l : Nat × ChannelOp} (hs : r.step l = some r') :
    Pointed r' := by
  obtain ⟨a, op⟩ := l
  obtain ⟨hthis, hfd, -⟩ := apply_channel op (r.channel a) r.poller
  obtain ⟨hpoller, hchannel⟩ := step_spec hs
  constructor
  · intro b
    rw [hchannel]
    rcases eq_or_ne b a with rfl | hne
    · rw [Function.update_self, hthis]
      exact h.this b
    · rw [Function.update_of_ne hne]
      exact h.this b
  · intro fd reg hreg
    rw [hpoller] at hreg
    rw [hchannel]
    -- an entry that was there before points to this channel or to another one
    have hold : r.poller.interest fd = some reg →
        ((op.apply (r.channel a) r.poller).2.status = .kAdded ∨ reg.ptr ≠ a) →
        (Function.update r.channel a (op.apply (r.channel a) r.poller).2 reg.ptr).fd = fd ∧
          (Function.update r.channel a (op.apply (r.channel a) r.poller).2 reg.ptr).status
            = .kAdded := by
      intro hentry hstatus
      obtain ⟨hptrfd, hadded⟩ := h.entry fd reg hentry
      rcases eq_or_ne reg.ptr a with rfl | hne
      · rw [Function.update_self]
        exact ⟨hfd.trans hptrfd, hstatus.resolve_right fun hne => hne rfl⟩
      · rw [Function.update_of_ne hne]
        exact ⟨hptrfd, hadded⟩
    rcases eq_or_ne fd (r.channel a).fd with rfl | hne
    · rcases apply_interest_self hreg with ⟨hadded, hptr⟩ | ⟨hentry, hstatus⟩
      · rw [hptr, h.this a, Function.update_self]
        exact ⟨hfd, hadded⟩
      · apply hold hentry
        refine hstatus.imp_right fun hnot heq => hnot ?_
        rw [← heq]
        exact (h.entry _ reg hentry).2
    · have hentry : r.poller.interest fd = some reg :=
        ((apply_elsewhere op (r.channel a) r.poller) fd hne).1.symm.trans hreg
      apply hold hentry
      right
      intro heq
      apply hne
      rw [← heq]
      exact (h.entry fd reg hentry).1.symm

/-- After any calls, a channel is out of the poller when the last call on it removed it, and
when it was out before and there is no call on it. -/
theorem run_status (hrun : exec Registry.step r ls = some r') (a : Nat) :
    (r'.channel a).status = .kNew ↔
      (lastCall ls a).elim ((r.channel a).status = .kNew) (· = .remove) := by
  refine exec_induction (P := fun ls r' => ((r'.channel a).status = .kNew ↔
    (lastCall ls a).elim ((r.channel a).status = .kNew) (· = .remove))) Iff.rfl ?_ hrun
  intro ls u l t _ ih hs
  obtain ⟨b, op⟩ := l
  rw [(step_spec hs).2, lastCall_concat]
  rcases eq_or_ne b a with rfl | hne
  · rw [Function.update_self, if_pos rfl]
    exact apply_status_kNew op _ _
  · rw [Function.update_of_ne hne.symm, if_neg hne]
    exact ih

theorem run_pointed (h : Pointed r) (hrun : exec Registry.step r ls = some r') : Pointed r' :=
  exec_invariant (fun _ _ _ hr hs => step_pointed hr hs) h hrun

end Calls

/-! ## Rounds

The batch is filled once, when `poll` returns, with channels that are registered; then the
handlers run, one for each element. A channel of the batch can only be unregistered by a handler
of the same round. -/

section Rounds

variable {s s' : Dispatch} {l : Label}

/-- While a round lasts, a channel of the batch is out of the poller exactly when the round's
last call on it removed it. -/
structure Inv (s : Dispatch) : Prop where
  pointed : Pointed s.registry
  active : ∀ a ∈ s.activeChannels,
    (s.registry.channel a).status = .kNew ↔ lastCall s.calls a = some .remove

theorem start_inv (fd : Nat → Nat) (callbacks : Nat → List Callback) :
    Inv (start fd callbacks) where
  pointed := ⟨fun _ => rfl, nofun⟩
  active := nofun

/-- Only `revents_` changes, and whether the descriptor is armed. -/
theorem fillActive_spec {event : Nat × BitVec 32} (h : s.fillActive event = some s') :
    ∃ reg, s.registry.poller.interest event.1 = some reg ∧
      s'.activeChannels = s.activeChannels ++ [reg.ptr] ∧ s'.calls = s.calls ∧
      (∀ a, (s'.registry.channel a).this = (s.registry.channel a).this ∧
        (s'.registry.channel a).fd = (s.registry.channel a).fd ∧
        (s'.registry.channel a).status = (s.registry.channel a).status) ∧
      ∀ fd reg', s'.registry.poller.interest fd = some reg' →
        ∃ reg₀, s.registry.poller.interest fd = some reg₀ ∧ reg₀.ptr = reg'.ptr := by
  unfold fillActive at h
  split at h
  · cases h
  · next reg hreg =>
    obtain ⟨poller, hreport, rfl⟩ := Option.map_eq_some_iff.mp h
    obtain ⟨reg₀, hreg₀, hinterest⟩ := EpollPoller.report_spec hreport
    cases hreg.symm.trans hreg₀
    -- `setRevents` writes one member of the channel that is reported
    refine ⟨reg, hreg, rfl, rfl, fun a => ?_, fun fd reg' hreg' => ?_⟩
    · show (Function.update s.registry.channel reg.ptr _ a).this = _ ∧
        (Function.update s.registry.channel reg.ptr _ a).fd = _ ∧
        (Function.update s.registry.channel reg.ptr _ a).status = _
      rcases eq_or_ne a reg.ptr with rfl | hne
      · rw [Function.update_self]
        exact ⟨rfl, rfl, rfl⟩
      · rw [Function.update_of_ne hne]
        exact ⟨rfl, rfl, rfl⟩
    · -- and the report disarms the entry of one descriptor
      rw [hinterest] at hreg'
      rcases eq_or_ne fd event.1 with rfl | hne
      · rw [Function.update_self] at hreg'
        cases hreg'
        exact ⟨reg, hreg, rfl⟩
      · rw [Function.update_of_ne hne] at hreg'
        exact ⟨reg', hreg', rfl⟩

/-- The channels that are reported are in the poller. -/
theorem fillActiveChannels_spec {events : List (Nat × BitVec 32)} (hp : Pointed s.registry)
    (hactive : ∀ a ∈ s.activeChannels, (s.registry.channel a).status = .kAdded)
    (h : s.fillActiveChannels events = some s') :
    Pointed s'.registry ∧ s'.calls = s.calls ∧
      ∀ a ∈ s'.activeChannels, (s'.registry.channel a).status = .kAdded := by
  refine exec_invariant (I := fun t => Pointed t.registry ∧ t.calls = s.calls ∧
    ∀ a ∈ t.activeChannels, (t.registry.channel a).status = .kAdded) ?_ ⟨hp, rfl, hactive⟩ h
  rintro t event t' ⟨hp, hcalls, hactive⟩ ht
  obtain ⟨reg, hreg, hbatch, hcalls', hchannel, hentry⟩ := fillActive_spec ht
  refine ⟨hp.of_same hchannel hentry, hcalls'.trans hcalls, fun a ha => ?_⟩
  rw [(hchannel a).2.2]
  rw [hbatch] at ha
  rcases List.mem_append.mp ha with ha | ha
  · exact hactive a ha
  · rw [List.mem_singleton.mp ha]
    exact (hp.entry event.1 reg hreg).2

theorem step_inv (h : Inv s) (hs : s.step l = some s') : Inv s' := by
  cases l with
  | poll events =>
    simp only [step] at hs
    split at hs
    · next hempty =>
      have hnone : ∀ a ∈ s.activeChannels, (s.registry.channel a).status = .kAdded := by
        rw [hempty.1]
        exact nofun
      obtain ⟨hp, hcalls, hactive⟩ :=
        fillActiveChannels_spec (s := { s with calls := [] }) h.pointed hnone hs
      refine ⟨hp, fun a ha => ?_⟩
      -- the round has made no calls yet
      rw [hactive a ha, hcalls]
      show Status.kAdded = .kNew ↔ none = some ChannelOp.remove
      exact iff_of_false nofun nofun
    · cases hs
  | dispatch calls =>
    simp only [step] at hs
    split at hs
    · cases hs
    · next a rest hactive =>
      split at hs
      · cases hs
      · obtain ⟨r, hrun, rfl⟩ := Option.map_eq_some_iff.mp hs
        refine ⟨run_pointed h.pointed hrun, fun b hb => ?_⟩
        have hbefore := h.active b (by rw [hactive]; exact List.mem_cons_of_mem _ hb)
        show (r.channel b).status = .kNew ↔ lastCall (s.calls ++ calls) b = some .remove
        rw [run_status hrun b, lastCall_append]
        cases lastCall calls b with
        | none =>
          rw [Option.none_or]
          exact hbefore
        | some op =>
          rw [Option.some_or]
          exact (Option.some.injEq op .remove).symm ▸ Iff.rfl
  | outside calls =>
    simp only [step] at hs
    split at hs
    · next hempty =>
      obtain ⟨r, hrun, rfl⟩ := Option.map_eq_some_iff.mp hs
      refine ⟨run_pointed h.pointed hrun, fun b hb => ?_⟩
      rw [hempty] at hb
      cases hb
    · cases hs

/-- `poll` starts a round: no handler of it has made a call. -/
theorem poll_calls {events : List (Nat × BitVec 32)} (hs : s.step (.poll events) = some s') :
    s'.calls = [] := by
  simp only [step] at hs
  split at hs
  · refine exec_invariant (I := fun t => t.calls = []) ?_ rfl hs
    intro t event t' hcalls ht
    obtain ⟨reg, -, -, hsame, -⟩ := fillActive_spec ht
    exact hsame.trans hcalls
  · cases hs

theorem dispatch_spec {calls : List (Nat × ChannelOp)} (hs : s.step (.dispatch calls) = some s') :
    s.activeChannels ≠ [] ∧ s'.activeChannels = s.activeChannels.tail ∧
      s'.calls = s.calls ++ calls := by
  simp only [step] at hs
  split at hs
  · cases hs
  · next a rest hactive =>
    split at hs
    · cases hs
    · obtain ⟨r, -, rfl⟩ := Option.map_eq_some_iff.mp hs
      rw [hactive]
      exact ⟨nofun, rfl, rfl⟩

/-- **The batch in order.** Each handler has its turn where its channel stands in the batch, and
what the handlers before it have called does not change that. -/
theorem round_in_order {handlers : List (List (Nat × ChannelOp))}
    (hrun : exec step s (handlers.map .dispatch) = some s') :
    s'.activeChannels = s.activeChannels.drop handlers.length ∧
      s'.calls = s.calls ++ handlers.flatten := by
  induction handlers using List.reverseRecOn generalizing s' with
  | nil =>
    cases hrun
    exact ⟨rfl, (List.append_nil _).symm⟩
  | append_singleton handlers calls ih =>
    rw [List.map_append, List.map_singleton] at hrun
    obtain ⟨t, ht, hs⟩ := exec_concat_eq_some.mp hrun
    obtain ⟨hactive, hcalls⟩ := ih ht
    obtain ⟨-, htail, happend⟩ := dispatch_spec hs
    constructor
    · rw [htail, hactive, List.tail_drop, List.length_append]
      rfl
    · rw [happend, hcalls, List.flatten_append, List.flatten_singleton, List.append_assoc]

/-- Behind the last `poll` of the run only handlers have run. -/
def InRound (s₀ : Dispatch) (ls : List Label) (s : Dispatch) : Prop :=
  ∃ (before : List Label) (events : List (Nat × BitVec 32))
      (handlers : List (List (Nat × ChannelOp))) (t : Dispatch),
    ls = before ++ .poll events :: handlers.map .dispatch ∧
      exec step s₀ (before ++ [.poll events]) = some t ∧
      exec step t (handlers.map .dispatch) = some s

/-- A batch that is not done was returned by the last `poll`. -/
theorem exec_round {s₀ : Dispatch} (hnone : s₀.activeChannels = []) {ls : List Label}
    (hrun : exec step s₀ ls = some s) (hactive : s.activeChannels ≠ []) : InRound s₀ ls s := by
  refine exec_induction (P := fun ls s => s.activeChannels ≠ [] → InRound s₀ ls s)
    (fun h => absurd hnone h) ?_ hrun hactive
  intro ls u l v hu ih hv hactive
  cases l with
  | poll events => exact ⟨ls, events, [], v, rfl, exec_concat_eq_some.mpr ⟨u, hu, hv⟩, rfl⟩
  | dispatch calls =>
    obtain ⟨before, events, handlers, t, rfl, ht, hround⟩ := ih (dispatch_spec hv).1
    refine ⟨before, events, handlers ++ [calls], t, ?_, ht, ?_⟩
    · rw [List.map_append, List.append_assoc]
      rfl
    · rw [List.map_append]
      exact exec_concat_eq_some.mpr ⟨u, hround, hv⟩
  | outside calls =>
    -- the batch was done before, and is still
    simp only [step] at hv
    split at hv
    · next hempty =>
      obtain ⟨r, -, rfl⟩ := Option.map_eq_some_iff.mp hv
      exact absurd hempty hactive
    · cases hv

/-- What the handler's turn is about, from the batch that `poll` has returned. -/
theorem handled_in_round {s₀ t u : Dispatch} {before : List Label}
    {events : List (Nat × BitVec 32)} {handlers : List (List (Nat × ChannelOp))}
    (ht : exec step s₀ (before ++ [.poll events]) = some t)
    (hround : exec step t (handlers.map .dispatch) = some u) (calls : List (Nat × ChannelOp)) :
    u.handled (.dispatch calls) = t.activeChannels[handlers.length]? ∧
      u.calls = handlers.flatten := by
  obtain ⟨s, -, hpoll⟩ := exec_concat_eq_some.mp ht
  obtain ⟨hactive, hcalls⟩ := round_in_order hround
  constructor
  · rw [handled, hactive, List.head?_drop]
  · rw [hcalls, poll_calls hpoll, List.nil_append]

/-- What is said about one turn is said about the batch and the calls of the round. -/
theorem notRemoved_iff {s₀ t : Dispatch} (hnone : s₀.activeChannels = []) {ls : List Label}
    (hrun : exec step s₀ ls = some t) : Along step NotRemoved s₀ ls ↔ EachRound s₀ ls := by
  rw [along_iff_before]
  constructor
  · intro h before events handlers hpre v hv i a hi ha
    -- the run up to the turn of the channel
    have hcut : handlers.map Label.dispatch
        = (handlers.take i).map .dispatch ++ .dispatch handlers[i] ::
          (handlers.drop (i + 1)).map .dispatch := by
      rw [← List.map_cons, ← List.map_append, ← List.drop_eq_getElem_cons hi,
        List.take_append_drop]
    have hturn : (before ++ .poll events :: (handlers.take i).map .dispatch) ++
        [.dispatch handlers[i]] <+: ls := by
      refine List.IsPrefix.trans ⟨(handlers.drop (i + 1)).map .dispatch, ?_⟩ hpre
      rw [hcut]
      simp only [List.append_assoc, List.cons_append, List.nil_append]
    obtain ⟨rest, hrest⟩ := (List.prefix_append _ _).trans hturn
    rw [← hrest] at hrun
    obtain ⟨u, hu, -⟩ := exec_append_eq_some.mp hrun
    have hsplit : exec step s₀ ((before ++ [.poll events]) ++ (handlers.take i).map .dispatch)
        = some u := by
      rw [List.append_assoc]
      exact hu
    obtain ⟨v', hv', hround⟩ := exec_append_eq_some.mp hsplit
    cases hv.symm.trans hv'
    obtain ⟨hhandled, hcalls⟩ := handled_in_round hv hround handlers[i]
    rw [List.length_take, Nat.min_eq_left (Nat.le_of_lt hi), ha] at hhandled
    rw [← hcalls]
    exact h _ _ hturn u hu a hhandled
  · intro h js l hpre u hu a ha
    cases l with
    | poll events => cases ha
    | outside calls => cases ha
    | dispatch calls =>
      have hactive : u.activeChannels ≠ [] := by
        intro hempty
        rw [handled, hempty] at ha
        cases ha
      obtain ⟨before, events, handlers, v, rfl, hv, hround⟩ := exec_round hnone hu hactive
      obtain ⟨hhandled, hcalls⟩ := handled_in_round hv hround calls
      have hleaves : LeavesBatch v.activeChannels (handlers ++ [calls]) := by
        refine h before events (handlers ++ [calls]) ?_ v hv
        rw [List.map_append, List.map_singleton, ← List.cons_append, ← List.append_assoc]
        exact hpre
      have hturn := hleaves handlers.length a (by simp) (hhandled.symm.trans ha)
      rw [List.take_left] at hturn
      rw [hcalls]
      exact hturn

/-- **The batch is never looked at again.** In every run, from any channels and with any batches
and any calls of the handlers: no channel is handled after a handler of the same round has removed
it and it was not registered again, exactly when each round leaves its batch alone. The same
condition decides whether each channel on which the loop calls `handleEvent` is in the poller. -/
theorem handled_unremoved_iff (fd : Nat → Nat) (callbacks : Nat → List Callback)
    {ls : List Label} {s : Dispatch} (hrun : exec step (start fd callbacks) ls = some s) :
    (Along step NotRemoved (start fd callbacks) ls ↔ EachRound (start fd callbacks) ls) ∧
      (Along step Registered (start fd callbacks) ls ↔ EachRound (start fd callbacks) ls) := by
  have hsame : Along step Registered (start fd callbacks) ls ↔
      Along step NotRemoved (start fd callbacks) ls := by
    refine along_congr (fun _ _ _ h hs => step_inv h hs) ?_ (start_inv fd callbacks)
    intro s l h
    refine forall_congr' fun a => imp_congr_right fun ha => not_congr (h.active a ?_)
    cases l with
    | poll events => cases ha
    | dispatch calls => exact List.mem_of_mem_head? ha
    | outside calls => cases ha
  exact ⟨notRemoved_iff rfl hrun, hsame.trans (notRemoved_iff rfl hrun)⟩

/-- The handler of the first channel removes the second and registers it again, and the handler of
the second removes the first, which had its turn. -/
def removeBack : List Label :=
  [.outside [(100, .enableReading), (101, .enableReading)],
    .poll [(5, EPOLLIN), (6, EPOLLIN)],
    .dispatch [(101, .remove), (101, .enableReading)], .dispatch [(100, .remove)]]

theorem handled_unremoved_iff_sample :
    ∃ s, exec step (start (· - 95) fun _ => [.read]) removeBack = some s ∧
      (s.registry.channel 100).status = .kNew ∧
      Along step NotRemoved (start (· - 95) fun _ => [.read]) removeBack ∧
      EachRound (start (· - 95) fun _ => [.read]) removeBack := by
  have hnot : Along step NotRemoved (start (· - 95) fun _ => [.read]) removeBack := by
    refine (along_cons rfl).mpr ⟨nofun, (along_cons rfl).mpr ⟨nofun, (along_cons rfl).mpr
      ⟨fun a _ => by simp [lastCall], (along_cons rfl).mpr ⟨fun a ha => ?_, trivial⟩⟩⟩⟩
    cases ha
    decide
  refine ⟨_, rfl, rfl, hnot, (handled_unremoved_iff (· - 95) (fun _ => [.read])
    (show exec step (start (· - 95) fun _ => [.read]) removeBack = some _ from rfl)).1.mp hnot⟩

/-- Two channels are ready together, and the handler of the first removes the second. -/
def removeNext : List Label :=
  [.outside [(100, .enableReading), (101, .enableReading)],
    .poll [(5, EPOLLIN), (6, EPOLLIN)], .dispatch [(101, .remove)]]

/-- The second channel is in the batch still, and `handleEvent` is called on it. -/
theorem removed_channel_handled :
    (∃ s s', exec step (start (· - 95) fun _ => [.read]) removeNext = some s ∧
      s.handled (.dispatch []) = some 101 ∧ s.step (.dispatch []) = some s') ∧
      ¬ Along step NotRemoved (start (· - 95) fun _ => [.read]) (removeNext ++ [.dispatch []]) := by
  constructor
  · exact ⟨_, _, rfl, rfl, rfl⟩
  · intro h
    -- what the first handler called last on the second channel
    have hlast := (along_concat.mp h).2 _ rfl 101 rfl
    exact hlast rfl

end Rounds

end Dispatch

end HttpWebserver
