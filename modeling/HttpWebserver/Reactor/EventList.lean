import HttpWebserver.Reactor.OneShot
import Mathlib.Algebra.Group.Nat.Defs
import Mathlib.Data.List.Perm.Subperm

/-!
# Reactor — the event list of the poller

`epoll_wait` gets the length of `events_` as the most events it may return. When it fills the list,
more descriptors may have been ready than are reported; `poll` then makes the list twice as long.

* `run_dispatch`: a run with the event list is a run of the loop, so what holds of every run of the
  loop holds here;
* `poll_le`: a batch has no more events than there are descriptors;
* `step_cases`: a call that fills the list makes it twice as long, and only such a call leaves a
  ready descriptor out;
* **`rarely_left_out`** — the list stays below twice the number of descriptors, so in the whole life
  of the loop a ready descriptor is left out in logarithmically many calls.
-/

namespace HttpWebserver

open Machine

/-- `EpollPoller::kInitEventListSize`. -/
def kInitEventListSize : Nat := 16

/-- The loop thread, and `events_.size()` of its poller. -/
structure Polling where
  dispatch : Dispatch
  eventListSize : Nat

namespace Polling

def start (fd : Nat → Nat) (callbacks : Nat → List Callback) : Polling where
  dispatch := Dispatch.start fd callbacks
  eventListSize := kInitEventListSize

inductive Label where
  /-- `epoll_wait` returns the events, none for a timeout, while the descriptors `left` are ready
  as well. -/
  | poll (events : List (Nat × BitVec 32)) (left : List Nat)
  /-- `epoll_wait` returns -1, for a signal or another error. -/
  | failed
  | dispatch (calls : List (Nat × ChannelOp))
  | outside (calls : List (Nat × ChannelOp))

/-- The kernel can report an event for the descriptor. -/
def reportable (s : Polling) (fd : Nat) : Bool :=
  (s.dispatch.registry.poller.interest fd).any Registration.armed

/-- What `epoll_wait` may return: no more than the list takes, and all that is ready before that. -/
def Returns (s : Polling) (events : List (Nat × BitVec 32)) (left : List Nat) : Prop :=
  events.length ≤ s.eventListSize ∧ (left ≠ [] → events.length = s.eventListSize) ∧
    ∀ fd ∈ left, s.reportable fd ∧ fd ∉ events.map Prod.fst

instance (s : Polling) (events : List (Nat × BitVec 32)) (left : List Nat) :
    Decidable (s.Returns events left) :=
  inferInstanceAs (Decidable (_ ∧ _ ∧ _))

/-- `poll` behind `epoll_wait`. -/
def poll (s : Polling) (events : List (Nat × BitVec 32)) : Option Polling :=
  (s.dispatch.step (.poll events)).map fun dispatch =>
    if events = [] then { s with dispatch := dispatch }
    else if s.eventListSize ≤ events.length then
      { dispatch := dispatch, eventListSize := events.length * 2 }
    else { s with dispatch := dispatch }

def step (s : Polling) : Label → Option Polling
  | .poll events left => if s.Returns events left then s.poll events else none
  | .failed => s.poll []
  | .dispatch calls =>
    (s.dispatch.step (.dispatch calls)).map fun dispatch => { s with dispatch := dispatch }
  | .outside calls =>
    (s.dispatch.step (.outside calls)).map fun dispatch => { s with dispatch := dispatch }

/-- The step of the loop. -/
def Label.inLoop : Label → Dispatch.Label
  | .poll events _ => .poll events
  | .failed => .poll []
  | .dispatch calls => .dispatch calls
  | .outside calls => .outside calls

/-- The batch, if it fills the list. -/
def filled (s : Polling) : Label → List (List (Nat × BitVec 32))
  | .poll events _ => if events.length = s.eventListSize then [events] else []
  | _ => []

/-- A ready descriptor is left out. -/
def Label.leavesOut : Label → Bool
  | .poll _ left => !left.isEmpty
  | _ => false

/-! ## One step -/

section Step

variable {s s' : Polling} {l : Label} {fd : Nat → Nat} {limit : Nat}

theorem poll_spec {events : List (Nat × BitVec 32)} (hs : s.poll events = some s') :
    s.dispatch.step (.poll events) = some s'.dispatch ∧ s'.eventListSize =
      if events ≠ [] ∧ s.eventListSize ≤ events.length then events.length * 2
      else s.eventListSize := by
  obtain ⟨dispatch, hstep, rfl⟩ := Option.map_eq_some_iff.mp hs
  by_cases hnil : events = []
  · subst hnil
    simp [hstep]
  · by_cases hfull : s.eventListSize ≤ events.length
    · simp [hnil, hfull, hstep]
    · simp [hnil, hfull, hstep]

theorem step_dispatch (hs : s.step l = some s') :
    s.dispatch.step l.inLoop = some s'.dispatch := by
  cases l with
  | poll events left =>
    simp only [step] at hs
    split at hs
    · exact (poll_spec hs).1
    · cases hs
  | failed => exact (poll_spec hs).1
  | dispatch calls =>
    obtain ⟨dispatch, hstep, rfl⟩ := Option.map_eq_some_iff.mp hs
    exact hstep
  | outside calls =>
    obtain ⟨dispatch, hstep, rfl⟩ := Option.map_eq_some_iff.mp hs
    exact hstep

/-- A call that fills the list makes it twice as long; it is the only one to leave anything out. -/
theorem step_cases (hpos : 0 < s.eventListSize) (hs : s.step l = some s') :
    (s.filled l = [] ∧ l.leavesOut = false ∧ s'.eventListSize = s.eventListSize) ∨
      ∃ events left, l = .poll events left ∧ events.length = s.eventListSize ∧
        s.filled l = [events] ∧ s'.eventListSize = s.eventListSize * 2 := by
  cases l with
  | poll events left =>
    simp only [step] at hs
    split at hs
    · next hreturns =>
      obtain ⟨hle, hleft, -⟩ := hreturns
      have hsize := (poll_spec hs).2
      -- a full array is doubled, and only a full one leaves events behind
      by_cases hfull : events.length = s.eventListSize
      · have hne : events ≠ [] := by
          rintro rfl
          rw [← hfull] at hpos
          exact Nat.lt_irrefl 0 hpos
        rw [if_pos ⟨hne, Nat.le_of_eq hfull.symm⟩, hfull] at hsize
        exact .inr ⟨events, left, rfl, hfull, if_pos hfull, hsize⟩
      · rw [if_neg fun h => hfull (Nat.le_antisymm hle h.2)] at hsize
        have hnil : left = [] := by
          by_contra hne
          exact hfull (hleft hne)
        refine .inl ⟨if_neg hfull, ?_, hsize⟩
        rw [hnil]
        rfl
    · cases hs
  | failed =>
    have hsize := (poll_spec hs).2
    rw [if_neg fun h => h.1 rfl] at hsize
    exact .inl ⟨rfl, rfl, hsize⟩
  | dispatch calls =>
    obtain ⟨dispatch, -, rfl⟩ := Option.map_eq_some_iff.mp hs
    exact .inl ⟨rfl, rfl, rfl⟩
  | outside calls =>
    obtain ⟨dispatch, -, rfl⟩ := Option.map_eq_some_iff.mp hs
    exact .inl ⟨rfl, rfl, rfl⟩

end Step

/-! ## The descriptors -/

section Descriptors

variable {s s' : Dispatch} {limit : Nat}

/-- All channels have descriptors below the limit of the process. -/
structure Limited (limit : Nat) (s : Dispatch) : Prop where
  pointed : Dispatch.Pointed s.registry
  fd : ∀ a, (s.registry.channel a).fd < limit

theorem fillActive_limited (h : Limited limit s) {event : Nat × BitVec 32}
    (hs : s.fillActive event = some s') : Limited limit s' ∧ event.1 < limit := by
  obtain ⟨reg, hreg, -, -, hchannel, hentry⟩ := Dispatch.fillActive_spec hs
  refine ⟨⟨h.pointed.of_same hchannel hentry, fun a => ?_⟩, ?_⟩
  · rw [(hchannel a).2.1]
    exact h.fd a
  · -- the descriptor is that of the channel it is registered for
    rw [← (h.pointed.entry event.1 reg hreg).1]
    exact h.fd reg.ptr

theorem calls_limited (h : Limited limit s) {calls : List (Nat × ChannelOp)}
    {registry : Registry Nat} (hrun : exec Registry.step s.registry calls = some registry) :
    Dispatch.Pointed registry ∧ ∀ a, (registry.channel a).fd < limit := by
  refine ⟨Dispatch.run_pointed h.pointed hrun, ?_⟩
  refine exec_invariant (I := fun r => ∀ a, (r.channel a).fd < limit) ?_ h.fd hrun
  intro r l r' hr hs a
  rw [Dispatch.step_fd hs]
  exact hr a

/-- A batch has no more events than there are descriptors, since it has each at most once. -/
theorem poll_le (h : Limited limit s) {events : List (Nat × BitVec 32)}
    (hs : s.step (.poll events) = some s') : Limited limit s' ∧ events.length ≤ limit := by
  simp only [Dispatch.step] at hs
  split at hs
  · next hpoll =>
    have hbatch : Limited limit s' ∧ ∀ fd ∈ events.map Prod.fst, fd < limit := by
      refine exec_induction (P := fun events s' => Limited limit s' ∧
        ∀ fd ∈ events.map Prod.fst, fd < limit) ?_ ?_ hs
      · exact ⟨⟨h.pointed, h.fd⟩, fun fd hfd => by cases hfd⟩
      · rintro events t event t' - ⟨ht, hevents⟩ hfill
        obtain ⟨ht', hevent⟩ := fillActive_limited ht hfill
        refine ⟨ht', ?_⟩
        rw [List.map_append, List.forall_mem_append]
        exact ⟨hevents, List.forall_mem_singleton.mpr hevent⟩
    refine ⟨hbatch.1, ?_⟩
    have hsub : events.map Prod.fst ⊆ List.range limit := fun fd hfd =>
      List.mem_range.mpr (hbatch.2 fd hfd)
    have hle := (List.Nodup.subperm hpoll.2 hsub).length_le
    rwa [List.length_map, List.length_range] at hle
  · cases hs

theorem step_limited (h : Limited limit s) {l : Dispatch.Label} (hs : s.step l = some s') :
    Limited limit s' := by
  cases l with
  | poll events => exact (poll_le h hs).1
  | dispatch calls =>
    simp only [Dispatch.step] at hs
    split at hs
    · cases hs
    · split at hs
      · cases hs
      · obtain ⟨r, hrun, rfl⟩ := Option.map_eq_some_iff.mp hs
        obtain ⟨hpointed, hfd⟩ := calls_limited h hrun
        exact ⟨hpointed, hfd⟩
  | outside calls =>
    simp only [Dispatch.step] at hs
    split at hs
    · obtain ⟨r, hrun, rfl⟩ := Option.map_eq_some_iff.mp hs
      obtain ⟨hpointed, hfd⟩ := calls_limited h hrun
      exact ⟨hpointed, hfd⟩
    · cases hs

end Descriptors

/-! ## Runs

The length of the list is sixteen times a power of two, and to fill it takes as many events. A
process has a limit on its descriptors, and so there is one on the number of times the list can be
filled. -/

section Runs

variable {s s' : Polling} {fd : Nat → Nat} {callbacks : Nat → List Callback} {limit : Nat}
  {l : Label} {ls : List Label}

/-- What holds of all runs of the loop holds of its runs with the event list. -/
theorem run_dispatch (hrun : exec step s ls = some s') :
    exec Dispatch.step s.dispatch (ls.map Label.inLoop) = some s'.dispatch := by
  induction ls generalizing s with
  | nil =>
    cases hrun
    rfl
  | cons l ls ih =>
    obtain ⟨t, ht, hrest⟩ := Option.bind_eq_some_iff.mp hrun
    rw [List.map_cons, exec_cons, step_dispatch ht, Option.bind_some]
    exact ih hrest

/-- The length of the list, where `filled` calls have filled it so far. -/
structure Inv (limit filled : Nat) (s : Polling) : Prop where
  limited : Limited limit s.dispatch
  size : s.eventListSize = kInitEventListSize * 2 ^ filled
  small : s.eventListSize ≤ max kInitEventListSize (2 * limit)

theorem Inv.pos {filled : Nat} (h : Inv limit filled s) : 0 < s.eventListSize := by
  rw [h.size]
  exact Nat.mul_pos (by decide) (Nat.two_pow_pos filled)

theorem step_inv {filled : Nat} (h : Inv limit filled s) (hs : s.step l = some s') :
    Inv limit (filled + (s.filled l).length) s' := by
  have hdispatch := step_dispatch hs
  have hlimited := step_limited h.limited hdispatch
  rcases step_cases h.pos hs with ⟨hnil, -, hsize⟩ | ⟨events, left, rfl, hfull, hone, hsize⟩
  · rw [hnil]
    exact ⟨hlimited, hsize.trans h.size, hsize.trans_le h.small⟩
  · rw [hone]
    refine ⟨hlimited, ?_, ?_⟩
    · rw [hsize, h.size, Nat.mul_assoc, List.length_singleton, Nat.pow_succ]
    · -- the batch that fills the list is no longer than the limit
      have hle := (poll_le h.limited hdispatch).2
      rw [hfull] at hle
      rw [hsize, Nat.mul_comm]
      exact Nat.le_trans (Nat.mul_le_mul_left 2 hle) (Nat.le_max_right _ _)

theorem start_inv (hfd : ∀ a, fd a < limit) : Inv limit 0 (start fd callbacks) where
  limited := ⟨(Dispatch.start_inv fd callbacks).pointed, hfd⟩
  size := rfl
  small := Nat.le_max_left _ _

theorem run_inv (hfd : ∀ a, fd a < limit) (hrun : exec step (start fd callbacks) ls = some s) :
    Inv limit (emitted step filled (start fd callbacks) ls).length s ∧
      ls.countP Label.leavesOut ≤ (emitted step filled (start fd callbacks) ls).length := by
  refine exec_induction (P := fun ls s =>
    Inv limit (emitted step filled (start fd callbacks) ls).length s ∧
      ls.countP Label.leavesOut ≤ (emitted step filled (start fd callbacks) ls).length)
    ⟨start_inv hfd, Nat.le_refl 0⟩ ?_ hrun
  rintro ls s l t hls ⟨h, hcount⟩ hstep
  rw [emitted_concat hls, List.length_append, List.countP_append, List.countP_singleton]
  refine ⟨step_inv h hstep, Nat.add_le_add hcount ?_⟩
  rcases step_cases h.pos hstep with ⟨-, hleaves, -⟩ | ⟨events, left, -, -, hone, -⟩
  · rw [hleaves, if_neg Bool.false_ne_true]
    exact Nat.zero_le _
  · rw [hone]
    split
    · exact Nat.le_refl 1
    · exact Nat.zero_le _

/-- **Ready descriptors are rarely left out.** Take any channels with descriptors below the limit of
the process, and any run, however long, with any calls of the handlers. It is a run of the loop; the
event list has been made twice as long once for each call of `epoll_wait` that filled it, and stays
below twice the limit. No other call leaves a ready descriptor out, so the number of those that do
is bounded by the logarithm of the limit. -/
theorem rarely_left_out (hfd : ∀ a, fd a < limit)
    (hrun : exec step (start fd callbacks) ls = some s) :
    exec Dispatch.step (Dispatch.start fd callbacks) (ls.map Label.inLoop) = some s.dispatch ∧
      s.eventListSize =
        kInitEventListSize * 2 ^ (emitted step filled (start fd callbacks) ls).length ∧
      s.eventListSize ≤ max kInitEventListSize (2 * limit) ∧
      kInitEventListSize * 2 ^ ls.countP Label.leavesOut ≤
        max kInitEventListSize (2 * limit) := by
  obtain ⟨⟨-, hsize, hsmall⟩, hcount⟩ := run_inv hfd hrun
  refine ⟨run_dispatch hrun, hsize, hsmall, Nat.le_trans ?_ hsmall⟩
  rw [hsize]
  exact Nat.mul_le_mul_left _ (Nat.pow_le_pow_right (by decide) hcount)

/-- The channels at the addresses from 0 on, with the descriptors behind the first four. -/
def manyChannels (a : Nat) : Nat := a % 32 + 4

/-- Seventeen channels are ready, and one of them waits for the second call. -/
def burst : List Label :=
  [.outside ((List.range 17).map fun a => (a, .enableReading)),
    .poll ((List.range 16).map fun a => (a + 4, EPOLLIN)) [20]] ++
    List.replicate 16 (.dispatch []) ++ [.poll [(20, EPOLLIN)] []]

theorem rarely_left_out_burst :
    (∀ a, manyChannels a < 36) ∧
      ∃ s, exec step (start manyChannels fun _ => []) burst = some s ∧
        exec Dispatch.step (Dispatch.start manyChannels fun _ => [])
            (burst.map Label.inLoop) = some s.dispatch ∧
          s.eventListSize = kInitEventListSize *
            2 ^ (emitted step filled (start manyChannels fun _ => []) burst).length ∧
          s.eventListSize ≤ max kInitEventListSize (2 * 36) ∧
          kInitEventListSize * 2 ^ burst.countP Label.leavesOut ≤
            max kInitEventListSize (2 * 36) := by
  have hfd : ∀ a, manyChannels a < 36 := fun a => by
    unfold manyChannels
    omega
  exact ⟨hfd, _, rfl, rarely_left_out hfd (show exec step _ burst = _ from rfl)⟩

end Runs

end Polling

end HttpWebserver
