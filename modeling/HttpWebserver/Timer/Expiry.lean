import HttpWebserver.Timer.Timer

/-!
# Timer — what `handleExpiredEvent` removes

The loop looks at the front of the heap only. It finds all expired timers as long as the array is in
the order of the keys that `TimerCmp` reads now, and this order is that of `expiredTime_`.

* `Swept`: what the loop does to the queue, whatever its order;
* `loop_done`: the loop ends with an empty queue or a timer that is not expired at the front;
* `Inv`: the queue is in order, kept by every step that is `InPlace`;
* **`expired_removed_iff`** — in a run whose updates are in place, each call removes exactly the
  expired timers if and only if the signs of the times agree as `SignsAgree` says.
-/

namespace HttpWebserver.TimerManager

open Machine MachineInt BinaryHeap

/-! ## One call of `handleExpiredEvent`

What holds of each round holds of the loop. The timers are the same and only lose their place in
the queue, or are marked as deleted; the queue is in order behind each `pop`; and the loop ends at
a timer that may not be taken out. -/

section Loop

variable {s s' : TimerManager} {p q : Nat}

/-- The timer may be taken out. -/
def Removable (s : TimerManager) (p : Nat) : Prop :=
  (s.timer p).deleted = true ∨ (s.timer p).expiredTime ≤ s.time

/-- What rounds of the loop do. -/
structure Swept (s s' : TimerManager) : Prop where
  time : s'.time = s.time
  next : s'.next = s.next
  expiredTime : ∀ p, (s'.timer p).expiredTime = (s.timer p).expiredTime
  removable : ∀ p, s'.Removable p → s.Removable p
  deleted : ∀ p, (s.timer p).deleted = true → (s'.timer p).deleted = true
  sub : ∀ p ∈ s'.timerQueue, p ∈ s.timerQueue
  removed : ∀ p ∈ s.timerQueue, p ∉ s'.timerQueue → s.Removable p
  ordered : Ordered s.key s.timerQueue → Ordered s'.key s'.timerQueue

theorem Swept.refl (s : TimerManager) : Swept s s where
  time := rfl
  next := rfl
  expiredTime _ := rfl
  removable _ h := h
  deleted _ h := h
  sub _ h := h
  removed _ h hnot := absurd h hnot
  ordered h := h

theorem Swept.trans {s'' : TimerManager} (h : Swept s s') (h' : Swept s' s'') : Swept s s'' where
  time := h'.time.trans h.time
  next := h'.next.trans h.next
  expiredTime p := (h'.expiredTime p).trans (h.expiredTime p)
  removable p hp := h.removable p (h'.removable p hp)
  deleted p hp := h'.deleted p (h.deleted p hp)
  sub p hp := h.sub p (h'.sub p hp)
  removed p hp hnot := by
    by_cases hp' : p ∈ s'.timerQueue
    · exact h.removable p (h'.removed p hp' hnot)
    · exact h.removed p hp hp'
  ordered hs := h'.ordered (h.ordered hs)

theorem mem_pop_iff (key : Nat → Nat) {a : Array Nat} (hp : a[0]? = some p) :
    q ∈ a ↔ q ∈ BinaryHeap.pop key a ∨ q = p := by
  rw [← (pop_perm key hp).mem_iff, Array.mem_push]

theorem pop_swept (hp : s.timerQueue[0]? = some p) (hremovable : s.Removable p) :
    Swept s s.pop where
  time := rfl
  next := rfl
  expiredTime _ := rfl
  removable _ h := h
  deleted _ h := h
  sub q hq := (mem_pop_iff s.key hp).mpr (.inl hq)
  removed q hq hnot := by
    rcases (mem_pop_iff s.key hp).mp hq with hq | rfl
    · exact absurd hq hnot
    · exact hremovable
  ordered h := pop_ordered h hp

/-- `isExpired` marks a timer as deleted, which is no change of a key. -/
theorem setDeleted_swept (hexpired : (s.timer p).expiredTime ≤ s.time) :
    Swept s (s.setTimer p { s.timer p with deleted := true }) := by
  have hsame : ∀ q, ((s.setTimer p { s.timer p with deleted := true }).timer q).expiredTime
      = (s.timer q).expiredTime := by
    intro q
    show (Function.update s.timer p _ q).expiredTime = _
    rcases eq_or_ne q p with rfl | hne
    · rw [Function.update_self]
    · rw [Function.update_of_ne hne]
  refine ⟨rfl, rfl, hsame, fun q hq => ?_, fun q hq => ?_, fun q hq => hq,
    fun q hq hnot => absurd hq hnot, fun h => h.congr fun q _ => ?_⟩
  · rcases eq_or_ne q p with rfl | hne
    · exact .inr hexpired
    · unfold Removable setTimer at hq
      simp only [Function.update_of_ne hne] at hq
      exact hq
  · show (Function.update s.timer p _ q).deleted = true
    rcases eq_or_ne q p with rfl | hne
    · rw [Function.update_self]
    · rw [Function.update_of_ne hne]
      exact hq
  · unfold key Timer.getExpiredTime
    rw [hsame]

/-- A round takes out the front, which may be taken out. -/
theorem expireTop_spec (h : s.expireTop = some s') :
    ∃ p, s.timerQueue[0]? = some p ∧ s.Removable p ∧ Swept s s' ∧
      s'.timerQueue = BinaryHeap.pop s.key s.timerQueue := by
  unfold expireTop at h
  split at h
  · cases h
  · next p hp =>
    split at h
    · next hdeleted =>
      cases h
      exact ⟨p, hp, .inl hdeleted, pop_swept hp (.inl hdeleted), rfl⟩
    · -- an expired timer is marked first, which moves nothing in the heap
      unfold Timer.isExpired at h
      by_cases hlater : (s.time : Int) < (s.timer p).expiredTime
      · rw [if_pos hlater] at h
        cases h
      · rw [if_neg hlater] at h
        cases h
        have hexpired := Int.not_lt.mp hlater
        have hmark := setDeleted_swept hexpired
        refine ⟨p, hp, .inr hexpired, hmark.trans (pop_swept hp (.inl ?_)), ?_⟩
        · show (Function.update s.timer p _ p).deleted = true
          rw [Function.update_self]
        · have hkey : (s.setTimer p { s.timer p with deleted := true }).key = s.key := by
            funext q
            unfold key Timer.getExpiredTime
            rw [hmark.expiredTime]
          show BinaryHeap.pop (s.setTimer p { s.timer p with deleted := true }).key _ = _
          rw [hkey]
          rfl

theorem expireTop_none (h : s.expireTop = none) (hp : s.timerQueue[0]? = some p) :
    ¬ s.Removable p := by
  unfold expireTop at h
  rw [hp] at h
  simp only at h
  split at h
  · cases h
  · next hlive =>
    unfold Timer.isExpired at h
    by_cases hlater : (s.time : Int) < (s.timer p).expiredTime
    · rintro (hdeleted | hexpired)
      · exact hlive hdeleted
      · exact absurd hlater (Int.not_lt.mpr hexpired)
    · rw [if_neg hlater] at h
      cases h

theorem expireLoop_swept (fuel : Nat) (s : TimerManager) : Swept s (expireLoop fuel s) := by
  induction fuel generalizing s with
  | zero => exact .refl s
  | succ fuel ih =>
    unfold expireLoop
    cases h : s.expireTop with
    | none => exact .refl s
    | some t =>
      obtain ⟨p, -, -, hswept, -⟩ := expireTop_spec h
      exact hswept.trans (ih t)

/-- With a round for each timer the loop comes to its end. -/
theorem loop_done {fuel : Nat} (hfuel : s.timerQueue.size ≤ fuel) :
    (expireLoop fuel s).expireTop = none := by
  induction fuel generalizing s with
  | zero =>
    show s.expireTop = none
    cases h : s.expireTop with
    | none => rfl
    | some t =>
      obtain ⟨p, hp, -⟩ := expireTop_spec h
      have hsize := (Array.getElem?_eq_some_iff.mp hp).1
      omega
  | succ fuel ih =>
    unfold expireLoop
    cases h : s.expireTop with
    | none => exact h
    | some t =>
      obtain ⟨p, hp, -, -, hqueue⟩ := expireTop_spec h
      apply ih
      have hsize := (pop_perm s.key hp).size_eq
      rw [Array.size_push, ← hqueue] at hsize
      omega

/-- A timer behind one that stays is not reached. -/
theorem loop_keeps {fuel : Nat} (ho : Ordered s.key s.timerQueue) (hq : q ∈ s.timerQueue)
    (hlive : ¬ s.Removable q) (hp : p ∈ s.timerQueue) (hlt : s.key q < s.key p) :
    p ∈ (expireLoop fuel s).timerQueue := by
  induction fuel generalizing s with
  | zero => exact hp
  | succ fuel ih =>
    unfold expireLoop
    cases h : s.expireTop with
    | none => exact hp
    | some t =>
      obtain ⟨x, hx, hremovable, hswept, hqueue⟩ := expireTop_spec h
      have hkey : ∀ r, t.key r = s.key r := by
        intro r
        unfold key Timer.getExpiredTime
        rw [hswept.expiredTime]
      -- the front comes no later than `q`, so it is not `p`
      have hfront := ho.front_le hx hq
      have hstays : ∀ r, r ∈ s.timerQueue → r ≠ x → r ∈ t.timerQueue := by
        intro r hr hne
        rw [hqueue]
        exact ((mem_pop_iff s.key hx).mp hr).resolve_right hne
      apply ih (hswept.ordered ho)
      · apply hstays q hq
        rintro rfl
        exact hlive hremovable
      · exact fun hremovable' => hlive (hswept.removable q hremovable')
      · apply hstays p hp
        rintro rfl
        exact absurd hlt (Nat.not_lt.mpr hfront)
      · rw [hkey, hkey]
        exact hlt

end Loop

/-! ## The order of the queue along a run

The comparison is of `getExpiredTime()`, a `size_t`, while `isExpired` compares the signed times.
As long as the updates keep the heap in order, a call is therefore exact except where a time below
zero stands behind all others in the queue. -/

section Runs

variable {s s' : TimerManager} {l : Label} {p : Nat}

structure Inv (s : TimerManager) : Prop where
  ordered : Ordered s.key s.timerQueue
  range : ∀ p ∈ s.timerQueue,
    -2 ^ 63 ≤ (s.timer p).expiredTime ∧ (s.timer p).expiredTime < 2 ^ 63
  /-- `new` returns no address of a timer in the queue. -/
  fresh : ∀ p ∈ s.timerQueue, p < s.next

theorem start_inv (time : Nat) : Inv (start time) where
  ordered i x y hx := by cases hx
  range p hp := absurd hp (Array.not_mem_empty p)
  fresh p hp := absurd hp (Array.not_mem_empty p)

theorem deadline_range {time : Nat} {timeout d : Int} (h : deadline time timeout = some d) :
    -2 ^ 63 ≤ d ∧ d < 2 ^ 63 := by
  unfold deadline at h
  split at h
  · cases h
    omega
  · cases h

theorem setTimer_self (s : TimerManager) (p : Nat) (node : Timer) :
    (s.setTimer p node).timer p = node := Function.update_self _ _ _

theorem setTimer_other {q : Nat} (hne : q ≠ p) (node : Timer) :
    (s.setTimer p node).timer q = s.timer q := Function.update_of_ne hne _ _

theorem addTimer_inv {conn : Nat} {timeout : Int} (h : Inv s)
    (hs : s.addTimer conn timeout = some s') : Inv s' := by
  obtain ⟨node, hnode, rfl⟩ := Option.map_eq_some_iff.mp hs
  obtain ⟨d, hd, rfl⟩ := Option.map_eq_some_iff.mp hnode
  have hother : ∀ q ∈ s.timerQueue, q ≠ s.next := fun q hq => (h.fresh q hq).ne
  have hmem : ∀ q, q ∈ BinaryHeap.push (s.setTimer s.next
      { conn := some conn, deleted := false, expiredTime := d }).key s.timerQueue s.next ↔
        q ∈ s.timerQueue ∨ q = s.next := by
    intro q
    rw [(push_perm _ _ _).mem_iff, Array.mem_push]
  refine ⟨?_, fun q hq => ?_, fun q hq => ?_⟩
  · -- the keys of the timers in the queue are as before
    have hqueue : Ordered (s.setTimer s.next
        { conn := some conn, deleted := false, expiredTime := d }).key s.timerQueue := by
      refine h.ordered.congr fun q hq => ?_
      unfold key
      rw [setTimer_other (hother q hq)]
    exact push_ordered hqueue s.next
  · -- the due time of the new timer fits `int64_t`, as those of the others did
    rcases (hmem q).mp hq with hq | rfl
    · show -2 ^ 63 ≤ ((s.setTimer s.next _).timer q).expiredTime ∧
        ((s.setTimer s.next _).timer q).expiredTime < 2 ^ 63
      rw [setTimer_other (hother q hq)]
      exact h.range q hq
    · show -2 ^ 63 ≤ ((s.setTimer s.next _).timer s.next).expiredTime ∧
        ((s.setTimer s.next _).timer s.next).expiredTime < 2 ^ 63
      rw [setTimer_self]
      exact deadline_range hd
  · rcases (hmem q).mp hq with hq | rfl
    · exact Nat.lt_succ_of_lt (h.fresh q hq)
    · exact Nat.lt_succ_self _

/-- An update between the parent and the children keeps the order. -/
theorem update_inv {timeout : Int} {node : Timer} (h : Inv s)
    (hplace : s.InPlace (.update p timeout))
    (hnode : (s.timer p).update s.time timeout = some node) : Inv (s.setTimer p node) := by
  obtain ⟨d, hd, rfl⟩ := Option.map_eq_some_iff.mp hnode
  have hself : (s.setTimer p { s.timer p with expiredTime := d }).key p = toSizeT d := by
    unfold key
    rw [setTimer_self]
    rfl
  have hother : ∀ q, q ≠ p →
      (s.setTimer p { s.timer p with expiredTime := d }).key q = s.key q := by
    intro q hne
    unfold key
    rw [setTimer_other hne]
  refine ⟨fun i x y hx hy => ?_, fun q hq => ?_, h.fresh⟩
  · -- each pair of parent and child, by which of them is the timer
    rcases eq_or_ne i 0 with rfl | hi
    · exact InOrder.refl _ _ 0 x y hx hy
    · rcases eq_or_ne x p with rfl | hxp
      · rcases eq_or_ne y x with rfl | hyp
        · exact le_rfl
        · -- the timer is the parent
          rw [hself, hother y hyp]
          exact (hplace d hd (parent i) hx).2 i y hi rfl hy
      · rcases eq_or_ne y p with rfl | hyp
        · -- the timer is the child
          rw [hself, hother x hxp]
          exact (hplace d hd i hy).1 x hi hx
        · rw [hother x hxp, hother y hyp]
          exact h.ordered i x y hx hy
  · rcases eq_or_ne q p with rfl | hne
    · rw [setTimer_self]
      exact deadline_range hd
    · rw [setTimer_other hne]
      exact h.range q hq

theorem clear_inv (h : Inv s) (p : Nat) : Inv (s.setTimer p (s.timer p).clear) := by
  have hsame : ∀ q, ((s.setTimer p (s.timer p).clear).timer q).expiredTime
      = (s.timer q).expiredTime := by
    intro q
    rcases eq_or_ne q p with rfl | hne
    · rw [setTimer_self]
      rfl
    · rw [setTimer_other hne]
  refine ⟨h.ordered.congr fun q _ => ?_, fun q hq => ?_, h.fresh⟩
  · unfold key Timer.getExpiredTime
    rw [hsame]
  · rw [hsame]
    exact h.range q hq

theorem handleExpiredEvent_inv (h : Inv s) : Inv s.handleExpiredEvent := by
  have hswept := expireLoop_swept s.timerQueue.size s
  refine ⟨hswept.ordered h.ordered, fun p hp => ?_, fun p hp => ?_⟩
  · rw [handleExpiredEvent, hswept.expiredTime]
    exact h.range p (hswept.sub p hp)
  · rw [handleExpiredEvent, hswept.next]
    exact h.fresh p (hswept.sub p hp)

theorem step_inv (h : Inv s) (hplace : s.InPlace l) (hs : s.step l = some s') : Inv s' := by
  cases l with
  | tick time =>
    simp only [step] at hs
    split at hs
    · cases hs
      exact ⟨h.ordered, h.range, h.fresh⟩
    · cases hs
  | addTimer conn timeout => exact addTimer_inv h hs
  | update p timeout =>
    simp only [step] at hs
    split at hs
    · obtain ⟨node, hnode, rfl⟩ := Option.map_eq_some_iff.mp hs
      exact update_inv h hplace hnode
    · cases hs
  | clear p =>
    simp only [step] at hs
    split at hs
    · cases hs
      exact clear_inv h p
    · cases hs
  | handleExpiredEvent =>
    cases hs
    exact handleExpiredEvent_inv h

/-- With the queue in order, what a call removes is decided by the signs. -/
theorem exact_iff (h : Inv s) : s.Exact l ↔ s.SignsAgree l := by
  cases l with
  | tick time => exact Iff.rfl
  | addTimer conn timeout => exact Iff.rfl
  | update p timeout => exact Iff.rfl
  | clear p => exact Iff.rfl
  | handleExpiredEvent =>
    have hswept := expireLoop_swept s.timerQueue.size s
    have hkey : ∀ q ∈ s.timerQueue, 0 ≤ (s.timer q).expiredTime →
        (s.key q : Int) = (s.timer q).expiredTime := by
      intro q hq hnonneg
      have hrange := h.range q hq
      exact toSizeT_of_nonneg hnonneg (by omega)
    constructor
    · rintro ⟨hkept, -⟩ ⟨p, hp, hneg⟩ q hq hnonneg
      by_contra hlive
      -- the negative time is the larger key
      have hlt : s.key q < s.key p := by
        have hq' := hkey q hq hnonneg
        have hrange := h.range q hq
        have hrange' := h.range p hp
        have hp' : (s.key p : Int) = (s.timer p).expiredTime + 2 ^ 64 :=
          toSizeT_of_neg (by omega) hneg
        omega
      have hlater := hkept p (loop_keeps h.ordered hq hlive hp hlt)
      rw [handleExpiredEvent, hswept.expiredTime] at hlater
      omega
    · intro hsigns
      refine ⟨fun p hp => ?_, hswept.removed⟩
      have hfront : 0 < s.handleExpiredEvent.timerQueue.size := Array.size_pos_of_mem hp
      obtain ⟨r, hr⟩ : ∃ r, s.handleExpiredEvent.timerQueue[0]? = some r :=
        ⟨_, Array.getElem?_eq_getElem hfront⟩
      have hlive := expireTop_none (loop_done le_rfl) hr
      have hrq := hswept.sub r (Array.mem_of_getElem? hr)
      have hpq := hswept.sub p hp
      have hlive' : ¬ s.Removable r := by
        rintro (hdeleted | hexpired)
        · exact hlive (.inl (hswept.deleted r hdeleted))
        · apply hlive
          right
          rw [hswept.expiredTime, hswept.time]
          exact hexpired
      have hlater : (s.time : Int) < (s.timer r).expiredTime :=
        Int.not_le.mp fun hle => hlive' (.inr hle)
      rw [handleExpiredEvent, hswept.expiredTime]
      by_cases hneg : (s.timer p).expiredTime < 0
      · exact absurd (hsigns ⟨p, hpq, hneg⟩ r hrq (by omega)) hlive'
      · have hle := (hswept.ordered h.ordered).front_le hr hp
        unfold key Timer.getExpiredTime at hle
        rw [hswept.expiredTime, hswept.expiredTime] at hle
        have hr' : (toSizeT (s.timer r).expiredTime : Int) = (s.timer r).expiredTime :=
          hkey r hrq (by omega)
        have hp' : (toSizeT (s.timer p).expiredTime : Int) = (s.timer p).expiredTime :=
          hkey p hpq (Int.not_lt.mp hneg)
        omega

/-- **Expired timers are the ones removed.** In every run with any timeouts in which each update
leaves its timer in place in the heap: every call of `handleExpiredEvent` leaves no expired timer
in the queue and takes out no other than deleted or expired ones, exactly when at each call the
signs of the times in the queue agree. -/
theorem expired_removed_iff (time : Nat) {ls : List Label}
    (hplace : Along step InPlace (start time) ls) :
    Along step Exact (start time) ls ↔ Along step SignsAgree (start time) ls :=
  along_congr_under (fun _ _ _ h hplace hs => step_inv h hplace hs) (fun _ _ h => exact_iff h)
    (start_inv time) hplace

/-- The second timer is put off and stays behind the first one. -/
def updatedInPlace : List Label :=
  [.addTimer 1 10, .addTimer 2 20, .update 1 30, .tick 25, .handleExpiredEvent]

theorem updatedInPlace_inPlace : Along step InPlace (start 0) updatedInPlace := by
  have hadded : ((exec step (start 0) [.addTimer 1 10, .addTimer 2 20]).map fun s =>
      (s.time, s.timerQueue, s.key 0)) = some (0, #[0, 1], 10) := by decide +kernel
  obtain ⟨s, hs, heq⟩ := Option.map_eq_some_iff.mp hadded
  simp only [Prod.mk.injEq] at heq
  obtain ⟨htime, hqueue, hkey⟩ := heq
  have hplace : s.InPlace (.update 1 30) := by
    intro d hd i hi
    rw [htime] at hd
    cases hd
    rw [hqueue] at hi ⊢
    match i, hi with
    | 1, _ =>
      constructor
      · intro q _ hq
        have hfirst : q = 0 := (Option.some.inj hq).symm
        rw [hfirst, hkey]
        decide
      · -- the last place has no child
        intro j q hzero hj hq
        have hsize := (Array.getElem?_eq_some_iff.mp hq).1
        have hchild := (parent_eq_iff hzero).mp hj
        simp only [List.size_toArray, List.length_cons, List.length_nil] at hsize
        omega
  refine ⟨trivial, fun s₁ h₁ => ⟨trivial, fun s₂ h₂ => ⟨?_, fun _ _ => ⟨trivial, fun _ _ =>
    ⟨trivial, fun _ _ => trivial⟩⟩⟩⟩⟩
  rw [exec_cons, h₁, Option.bind_some, exec_cons, h₂] at hs
  cases hs
  exact hplace

theorem expired_removed_iff_sample :
    Along step InPlace (start 0) updatedInPlace ∧
      (Along step Exact (start 0) updatedInPlace ↔
        Along step SignsAgree (start 0) updatedInPlace) :=
  ⟨updatedInPlace_inPlace, expired_removed_iff 0 updatedInPlace_inPlace⟩

/-- A timer stays in the queue although it is expired. -/
theorem not_exact_of_stays {time now : Nat} {ls : List Label} {queue : Array Nat} {d : Int}
    (hstays : ((exec step (start time) ls).map fun s => (s.time,
      s.handleExpiredEvent.timerQueue, (s.handleExpiredEvent.timer p).expiredTime))
        = some (now, queue, d)) (hp : p ∈ queue) (hd : d ≤ now) :
    ¬ Along step Exact (start time) (ls ++ [.handleExpiredEvent]) := by
  intro h
  obtain ⟨s, hs, heq⟩ := Option.map_eq_some_iff.mp hstays
  simp only [Prod.mk.injEq] at heq
  obtain ⟨rfl, rfl, rfl⟩ := heq
  have hexact : ExpiredRemoved s s.handleExpiredEvent := (along_concat.mp h).2 s hs
  exact absurd (hexact.kept p hp) (Int.not_lt.mpr hd)

/-- The first timer is put off behind the second one, which then expires below it in the heap. -/
def updatedOutOfPlace : List Label :=
  [.addTimer 1 10, .addTimer 2 20, .update 0 30, .tick 25]

/-- The second timer is added with a time before the start of the clock. -/
def addedNegative : List Label := [.addTimer 1 10, .addTimer 2 (-20)]

theorem expired_timer_stays :
    ¬ Along step Exact (start 0) (updatedOutOfPlace ++ [.handleExpiredEvent]) ∧
      ¬ Along step Exact (start 0) (addedNegative ++ [.handleExpiredEvent]) := by
  constructor
  · have hstays : ((exec step (start 0) updatedOutOfPlace).map fun s => (s.time,
        s.handleExpiredEvent.timerQueue, (s.handleExpiredEvent.timer 1).expiredTime))
          = some (25, #[0, 1], 20) := by decide +kernel
    exact not_exact_of_stays hstays (by simp) (by decide)
  · have hstays : ((exec step (start 0) addedNegative).map fun s => (s.time,
        s.handleExpiredEvent.timerQueue, (s.handleExpiredEvent.timer 1).expiredTime))
          = some (0, #[0, 1], -20) := by decide +kernel
    exact not_exact_of_stays hstays (by simp) (by decide)

end Runs

end HttpWebserver.TimerManager
