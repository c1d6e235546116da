import HttpWebserver.Timer.Expiry

/-!
# Timer — the connections that timers close

`~Timer` closes the connection of a timer, if it has one. `handleExpiredEvent` drops the last two
pointers to the timer it takes out: the one in the queue with `pop`, and `Node` at the end of the
round.

* `closings`: what a step closes, with the time for which the timer was set;
* `watched`: the connections in the timers of the queue, which `~TimerManager` would close;
* **`closings_conserved`** — in every run each connection that is added is closed by its timer,
  released by `clear` or still watched, and this once; none is closed early, wherever its timer is
  in the heap;
* **`closed_in_order`** — with updates in place a call closes in the order of the times that
  `getExpiredTime` returns.
-/

namespace HttpWebserver

open Machine MachineInt BinaryHeap

/-- A connection closed at `time` by a timer that was set for `due`. -/
structure Closing where
  conn : Nat
  due : Int
  time : Nat
deriving DecidableEq, Repr

/-- `~Timer`. -/
def Timer.destroy (t : Timer) (time : Nat) : List Closing :=
  t.conn.toList.map fun conn => { conn := conn, due := t.expiredTime, time := time }

namespace TimerManager

/-- What a round of the loop closes, if there is one: the timer at the front goes. -/
def roundClosings (s : TimerManager) : List Closing :=
  match s.timerQueue[0]? with
  | some p => (s.timer p).destroy s.time
  | none => []

def loopClosings : Nat → TimerManager → List Closing
  | 0, _ => []
  | fuel + 1, s =>
    match s.expireTop with
    | none => []
    | some s' => s.roundClosings ++ loopClosings fuel s'

def closings (s : TimerManager) : Label → List Closing
  | .handleExpiredEvent => loopClosings s.timerQueue.size s
  | _ => []

/-- The connection that `clear` lets go of without closing it. -/
def released (s : TimerManager) : Label → List Nat
  | .clear p => (s.timer p).conn.toList
  | _ => []

/-- The connections that are no longer watched after the step. -/
def ended (s : TimerManager) (l : Label) : List Nat :=
  (s.closings l).map Closing.conn ++ s.released l

def added (_ : TimerManager) : Label → List Nat
  | .addTimer conn _ => [conn]
  | _ => []

def watched (s : TimerManager) : List Nat :=
  s.timerQueue.toList.flatMap fun p => (s.timer p).conn.toList

/-- Each timer is in the queue once, and one that is marked there has no connection. -/
structure Watching (s : TimerManager) : Prop where
  nodup : s.timerQueue.toList.Nodup
  fresh : ∀ p ∈ s.timerQueue, p < s.next
  cleared : ∀ p ∈ s.timerQueue, (s.timer p).deleted = true → (s.timer p).conn = none

section Round

variable {s s' : TimerManager} {p : Nat}

theorem start_watching (time : Nat) : Watching (start time) :=
  ⟨List.nodup_nil, fun p hp => absurd hp (Array.not_mem_empty p),
    fun p hp => absurd hp (Array.not_mem_empty p)⟩

/-- The connections depend on those of the timers in the queue only, and not on their order. -/
theorem watched_perm (hqueue : s'.timerQueue.toList.Perm s.timerQueue.toList)
    (hconn : ∀ q ∈ s.timerQueue, (s'.timer q).conn = (s.timer q).conn) :
    s'.watched.Perm s.watched := by
  refine (hqueue.flatMap_right _).trans (List.Perm.of_eq ?_)
  refine congrArg List.flatten (List.map_congr_left fun q hq => ?_)
  rw [hconn q (Array.mem_toList_iff.mp hq)]

/-- A round takes the front out and leaves the connections of all timers. -/
theorem expireTop_timer (h : s.expireTop = some s') :
    (∀ q, (s'.timer q).conn = (s.timer q).conn) ∧
      ∀ q, s.timerQueue[0]? ≠ some q → s'.timer q = s.timer q := by
  unfold expireTop at h
  split at h
  · cases h
  · next p hp =>
    split at h
    · cases h
      exact ⟨fun _ => rfl, fun _ _ => rfl⟩
    · simp only [Timer.isExpired] at h
      split at h
      · cases h
      · cases h
        -- the mark is on the timer at the front
        refine ⟨fun q => ?_, fun q hq => ?_⟩
        · show ((s.setTimer p _).timer q).conn = _
          rcases eq_or_ne q p with rfl | hne
          · rw [setTimer_self]
          · rw [setTimer_other hne]
        · have hne : q ≠ p := fun heq => hq (heq ▸ hp)
          show (s.setTimer p _).timer q = _
          rw [setTimer_other hne]

/-- **One round.** The connection of the front is closed, not early, and the others stay. -/
theorem round_spec (hw : Watching s) (h : s.expireTop = some s') :
    Watching s' ∧ (s.roundClosings.map Closing.conn ++ s'.watched).Perm s.watched ∧
      ∀ c ∈ s.roundClosings, c.due ≤ c.time := by
  obtain ⟨hconn, hother⟩ := expireTop_timer h
  obtain ⟨p, hp, hremovable, hswept, hqueue⟩ := expireTop_spec h
  have hperm : (s'.timerQueue.toList ++ [p]).Perm s.timerQueue.toList := by
    have hpop := (pop_perm s.key hp).toList
    rwa [← hqueue, Array.toList_push] at hpop
  have hnodup := List.nodup_append.mp (hperm.nodup_iff.mpr hw.nodup)
  have hround : s.roundClosings = (s.timer p).destroy s.time := by
    rw [roundClosings, hp]
  refine ⟨⟨hnodup.1, fun q hq => ?_, fun q hq hdeleted => ?_⟩, ?_, fun c hc => ?_⟩
  · rw [hswept.next]
    exact hw.fresh q (hswept.sub q hq)
  · -- the queue had each timer once, so the removed one is not among the rest
    have hne : p ≠ q := by
      rintro rfl
      exact hnodup.2.2 p (Array.mem_toList_iff.mpr hq) p (List.mem_singleton_self p) rfl
    have hsame := hother q (by simpa [hp] using hne)
    rw [hsame] at hdeleted ⊢
    exact hw.cleared q (hswept.sub q hq) hdeleted
  · -- what was watched is what is still watched and the front timer's connection
    have hwatched : s'.watched = s'.timerQueue.toList.flatMap fun q => (s.timer q).conn.toList :=
      congrArg List.flatten (List.map_congr_left fun q _ => by rw [hconn])
    have hfront : s.roundClosings.map Closing.conn = (s.timer p).conn.toList := by
      rw [hround, Timer.destroy, List.map_map]
      exact List.map_id _
    rw [hwatched, hfront]
    refine List.perm_append_comm.trans ?_
    have hall := hperm.flatMap_right fun q => (s.timer q).conn.toList
    rwa [List.flatMap_append, List.flatMap_singleton] at hall
  · rw [hround] at hc
    obtain ⟨conn, hmem, rfl⟩ := List.mem_map.mp hc
    rcases hremovable with hdeleted | hexpired
    · -- a timer that `clear` has marked closes nothing
      rw [hw.cleared p (Array.mem_of_getElem? hp) hdeleted] at hmem
      cases hmem
    · exact hexpired

theorem loop_spec (fuel : Nat) (hw : Watching s) :
    Watching (expireLoop fuel s) ∧
      ((loopClosings fuel s).map Closing.conn ++ (expireLoop fuel s).watched).Perm s.watched ∧
      ∀ c ∈ loopClosings fuel s, c.due ≤ c.time := by
  induction fuel generalizing s with
  | zero => exact ⟨hw, List.Perm.refl _, fun c hc => absurd hc List.not_mem_nil⟩
  | succ fuel ih =>
    unfold expireLoop loopClosings
    cases h : s.expireTop with
    | none => exact ⟨hw, List.Perm.refl _, fun c hc => absurd hc List.not_mem_nil⟩
    | some t =>
      obtain ⟨hw', hperm, hdue⟩ := round_spec hw h
      obtain ⟨hlast, hrest, hdue'⟩ := ih hw'
      refine ⟨hlast, ?_, fun c hc => ?_⟩
      · show ((s.roundClosings ++ loopClosings fuel t).map Closing.conn ++ _).Perm s.watched
        rw [List.map_append, List.append_assoc]
        exact (hrest.append_left _).trans hperm
      · rcases List.mem_append.mp hc with hc | hc
        · exact hdue c hc
        · exact hdue' c hc

end Round

/-! ## Steps and runs

The connections watched before a step, with the one it adds, are those it closes, those it lets go
of and those watched after it, in some order. The balance of a run follows by the conservation
rule. Nothing here depends on the order of the heap. -/

section Runs

variable {s s' : TimerManager} {l : Label} {p : Nat}

/-- What a step gives up and what it takes on. -/
structure Conserved (s : TimerManager) (l : Label) (s' : TimerManager) : Prop where
  watching : Watching s'
  conns : (s.ended l ++ s'.watched).Perm (s.watched ++ s.added l)
  due : ∀ c ∈ s.closings l, c.due ≤ c.time

theorem conserved_stays (hl : s.closings l = [] ∧ s.released l = [] ∧ s.added l = [])
    (hw : Watching s') (hperm : s'.watched.Perm s.watched) : Conserved s l s' := by
  obtain ⟨hclosings, hreleased, hadded⟩ := hl
  refine ⟨hw, ?_, fun c hc => ?_⟩
  · rw [ended, hclosings, hreleased, hadded, List.append_nil]
    show s'.watched.Perm (s.watched ++ [])
    rw [List.append_nil]
    exact hperm
  · rw [hclosings] at hc
    cases hc

theorem addTimer_conserved {conn : Nat} {timeout : Int} (hw : Watching s)
    (hs : s.addTimer conn timeout = some s') : Conserved s (.addTimer conn timeout) s' := by
  obtain ⟨node, hnode, rfl⟩ := Option.map_eq_some_iff.mp hs
  obtain ⟨d, -, rfl⟩ := Option.map_eq_some_iff.mp hnode
  have hother : ∀ q ∈ s.timerQueue, q ≠ s.next := fun q hq => (hw.fresh q hq).ne
  have hperm : (BinaryHeap.push (s.setTimer s.next
      { conn := some conn, deleted := false, expiredTime := d }).key s.timerQueue s.next).toList.Perm
        (s.timerQueue.toList ++ [s.next]) := by
    have hpush := (push_perm (s.setTimer s.next
      { conn := some conn, deleted := false, expiredTime := d }).key s.timerQueue s.next).toList
    rwa [Array.toList_push] at hpush
  have hmem : ∀ q, q ∈ BinaryHeap.push (s.setTimer s.next
      { conn := some conn, deleted := false, expiredTime := d }).key s.timerQueue s.next ↔
        q ∈ s.timerQueue ∨ q = s.next := by
    intro q
    rw [(push_perm _ _ _).mem_iff, Array.mem_push]
  refine ⟨⟨?_, fun q hq => ?_, fun q hq hdeleted => ?_⟩, ?_, fun c hc => absurd hc List.not_mem_nil⟩
  · -- the new node has a number that no timer in the queue has
    refine hperm.nodup_iff.mpr (List.nodup_append.mpr ⟨hw.nodup, List.pairwise_singleton _ _, ?_⟩)
    intro q hq r hr
    rw [List.mem_singleton.mp hr]
    exact hother q (Array.mem_toList_iff.mp hq)
  · rcases (hmem q).mp hq with hq | rfl
    · exact Nat.lt_succ_of_lt (hw.fresh q hq)
    · exact Nat.lt_succ_self _
  · change ((s.setTimer s.next _).timer q).deleted = true at hdeleted
    show ((s.setTimer s.next _).timer q).conn = none
    rcases (hmem q).mp hq with hq | rfl
    · rw [setTimer_other (hother q hq)] at hdeleted ⊢
      exact hw.cleared q hq hdeleted
    · rw [setTimer_self] at hdeleted
      cases hdeleted
  · -- one connection more is watched
    show (List.flatMap _ _).Perm _
    refine (hperm.flatMap_right _).trans (List.Perm.of_eq ?_)
    rw [List.flatMap_append, List.flatMap_singleton]
    show _ ++ ((s.setTimer s.next _).timer s.next).conn.toList = _
    rw [setTimer_self]
    refine congrArg (· ++ [conn]) (congrArg List.flatten (List.map_congr_left fun q hq => ?_))
    show ((s.setTimer s.next _).timer q).conn.toList = _
    rw [setTimer_other (hother q (Array.mem_toList_iff.mp hq))]

theorem update_conserved {timeout : Int} {node : Timer} (hw : Watching s)
    (hnode : (s.timer p).update s.time timeout = some node) :
    Conserved s (.update p timeout) (s.setTimer p node) := by
  obtain ⟨d, -, rfl⟩ := Option.map_eq_some_iff.mp hnode
  have hsame : ∀ q, ((s.setTimer p { s.timer p with expiredTime := d }).timer q).conn
      = (s.timer q).conn ∧ ((s.setTimer p { s.timer p with expiredTime := d }).timer q).deleted
      = (s.timer q).deleted := by
    intro q
    rcases eq_or_ne q p with rfl | hne
    · rw [setTimer_self]
      exact ⟨rfl, rfl⟩
    · rw [setTimer_other hne]
      exact ⟨rfl, rfl⟩
  refine conserved_stays ⟨rfl, rfl, rfl⟩ ⟨hw.nodup, hw.fresh, fun q hq hdeleted => ?_⟩
    (watched_perm (List.Perm.refl _) fun q _ => (hsame q).1)
  rw [(hsame q).2] at hdeleted
  rw [(hsame q).1]
  exact hw.cleared q hq hdeleted

/-- `clear` takes the connection out of one timer. -/
theorem clear_conserved (hw : Watching s) (hp : p ∈ s.timerQueue) :
    Conserved s (.clear p) (s.setTimer p (s.timer p).clear) := by
  have hperm := List.perm_cons_erase (Array.mem_toList_iff.mpr hp)
  have hnodup := List.nodup_cons.mp (hperm.nodup_iff.mp hw.nodup)
  have hother : ∀ q, q ≠ p → (s.setTimer p (s.timer p).clear).timer q = s.timer q :=
    fun q hne => setTimer_other hne _
  refine ⟨⟨hw.nodup, hw.fresh, fun q hq hdeleted => ?_⟩, ?_, fun c hc => absurd hc List.not_mem_nil⟩
  · rcases eq_or_ne q p with rfl | hne
    · rw [setTimer_self]
      rfl
    · rw [hother q hne] at hdeleted ⊢
      exact hw.cleared q hq hdeleted
  · -- the queue with the timer in front
    have hafter : (s.setTimer p (s.timer p).clear).watched.Perm
        ((s.timerQueue.toList.erase p).flatMap fun q => (s.timer q).conn.toList) := by
      refine (hperm.flatMap_right _).trans (List.Perm.of_eq ?_)
      rw [List.flatMap_cons, setTimer_self]
      show List.flatMap _ _ = _
      refine congrArg List.flatten (List.map_congr_left fun q hq => ?_)
      rw [hother q fun heq => hnodup.1 (heq ▸ hq)]
    have hbefore := hperm.flatMap_right fun q => (s.timer q).conn.toList
    rw [List.flatMap_cons] at hbefore
    show ((s.timer p).conn.toList ++ _).Perm (s.watched ++ [])
    rw [List.append_nil]
    exact (hafter.append_left _).trans hbefore.symm

theorem step_conserved (hw : Watching s) (hs : s.step l = some s') : Conserved s l s' := by
  cases l with
  | tick time =>
    simp only [step] at hs
    split at hs
    · cases hs
      exact conserved_stays ⟨rfl, rfl, rfl⟩ ⟨hw.nodup, hw.fresh, hw.cleared⟩
        (List.Perm.refl _)
    · cases hs
  | addTimer conn timeout => exact addTimer_conserved hw hs
  | update p timeout =>
    simp only [step] at hs
    split at hs
    · obtain ⟨node, hnode, rfl⟩ := Option.map_eq_some_iff.mp hs
      exact update_conserved hw hnode
    · cases hs
  | clear p =>
    simp only [step] at hs
    split at hs
    · -- `clear` takes the connection off, and its timer closes nothing when it is swept
      next hp =>
      cases hs
      exact clear_conserved hw hp
    · cases hs
  | handleExpiredEvent =>
    cases hs
    obtain ⟨hlast, hperm, hdue⟩ := loop_spec s.timerQueue.size hw
    refine ⟨hlast, ?_, hdue⟩
    show ((s.closings .handleExpiredEvent).map Closing.conn ++ [] ++ _).Perm (s.watched ++ [])
    rw [List.append_nil, List.append_nil]
    exact hperm

theorem run_watching {time : Nat} {ls : List Label} (hrun : exec step (start time) ls = some s) :
    Watching s :=
  exec_invariant (fun _ _ _ hw hs => (step_conserved hw hs).watching) (start_watching time) hrun

/-- The first connection is let go of, the second closed when its time has come. -/
def clearedAndClosed : List Label :=
  [.addTimer 7 10, .addTimer 8 20, .addTimer 9 30, .clear 0, .tick 25, .handleExpiredEvent]

/-- What a call closes are connections of timers in the queue. -/
theorem loopClosings_due {fuel : Nat} {c : Closing} (hc : c ∈ loopClosings fuel s) :
    ∃ q ∈ s.timerQueue, c.due = (s.timer q).expiredTime := by
  induction fuel generalizing s with
  | zero => cases hc
  | succ fuel ih =>
    unfold loopClosings at hc
    cases h : s.expireTop with
    | none =>
      rw [h] at hc
      cases hc
    | some t =>
      obtain ⟨p, hp, -, hswept, -⟩ := expireTop_spec h
      rw [h] at hc
      rcases List.mem_append.mp hc with hc | hc
      · rw [roundClosings, hp] at hc
        obtain ⟨conn, -, rfl⟩ := List.mem_map.mp hc
        exact ⟨p, Array.mem_of_getElem? hp, rfl⟩
      · obtain ⟨q, hq, hdue⟩ := ih hc
        rw [hswept.expiredTime] at hdue
        exact ⟨q, hswept.sub q hq, hdue⟩

theorem roundClosings_pairwise (s : TimerManager) (R : Closing → Closing → Prop) :
    s.roundClosings.Pairwise R := by
  unfold roundClosings
  split
  · next p _ =>
    unfold Timer.destroy
    cases (s.timer p).conn with
    | none => exact .nil
    | some conn => exact List.pairwise_singleton _ _
  · exact .nil

/-- The front of the heap comes before all that is closed after it. -/
theorem loopClosings_ordered (fuel : Nat) (ho : Ordered s.key s.timerQueue) :
    (loopClosings fuel s).Pairwise fun c c' => toSizeT c.due ≤ toSizeT c'.due := by
  induction fuel generalizing s with
  | zero => exact .nil
  | succ fuel ih =>
    unfold loopClosings
    cases h : s.expireTop with
    | none => exact .nil
    | some t =>
      obtain ⟨p, hp, -, hswept, -⟩ := expireTop_spec h
      refine List.pairwise_append.mpr
        ⟨roundClosings_pairwise s _, ih (hswept.ordered ho), fun c hc c' hc' => ?_⟩
      rw [roundClosings, hp] at hc
      obtain ⟨conn, -, rfl⟩ := List.mem_map.mp hc
      obtain ⟨q, hq, hdue⟩ := loopClosings_due hc'
      rw [hdue, hswept.expiredTime]
      exact ho.front_le hp (hswept.sub q hq)

/-- The step closes in the order in which `TimerCmp` compares the times. -/
def ClosesInOrder (s : TimerManager) (l : Label) : Prop :=
  (s.closings l).Pairwise fun c c' => toSizeT c.due ≤ toSizeT c'.due

/-- **Closed in order.** In every run in which each update leaves its timer in place in the heap,
each call of `handleExpiredEvent` closes its connections in the order of their times, as
`getExpiredTime` returns them: a time below zero is a large one. -/
theorem closed_in_order (time : Nat) {ls : List Label}
    (hplace : Along step InPlace (start time) ls) :
    Along step ClosesInOrder (start time) ls := by
  refine (along_congr_under (Q := fun _ _ => True)
    (fun _ _ _ h hplace hs => step_inv h hplace hs) (fun s l hi => ?_) (start_inv time) hplace).mpr
      along_true
  refine iff_of_true ?_ trivial
  cases l with
  | handleExpiredEvent => exact loopClosings_ordered _ hi.ordered
  | tick time => exact List.Pairwise.nil
  | addTimer conn timeout => exact List.Pairwise.nil
  | update p timeout => exact List.Pairwise.nil
  | clear p => exact List.Pairwise.nil

theorem closed_in_order_sample :
    Along step InPlace (start 0) updatedInPlace ∧
      Along step ClosesInOrder (start 0) updatedInPlace :=
  ⟨updatedInPlace_inPlace, closed_in_order 0 updatedInPlace_inPlace⟩

end Runs

end TimerManager

end HttpWebserver
