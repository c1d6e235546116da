import HttpWebserver.Lib.CString
import HttpWebserver.Lib.Decimal
import HttpWebserver.ThreadPool.StartLoop
import Mathlib.Data.Int.CardIntervalMod

/-!
# ThreadPool — the pool of loops

The model of `ThreadPool/EventLoopThreadPool.{h,cc}`: the base thread, which starts the pool and
asks it for loops, and the threads of the pool, which run meanwhile.

* A loop is named by the index of its thread in `threads_`: it is a local variable of `threadFunc`.
* `start` makes the threads one after the other, and waits in `startLoop` of each of them.
* The threads take any steps of `EventLoopThread`, and other threads call their loops. The base
  thread is in one call at a time.
* `++next_` beyond the range of `int` is undefined, so no step.

* **`pool_loops`** — which loops the pool has when `start` has returned;
* **`getNextLoop_rotates`** — it hands them out in turn.
-/

namespace HttpWebserver

open Machine CString Decimal

/-- A pointer to a loop. -/
inductive LoopPtr where
  | base
  /-- The loop of the thread with the index in `threads_`. -/
  | thread (i : Nat)
deriving DecidableEq, Repr

/-- Where the base thread is in `start`. -/
inductive EventLoopThreadPool.StartCall where
  | outside
  /-- At the test of the loop, with its `i`. -/
  | test (i : Nat)
  /-- In `startLoop` of the last thread. -/
  | startLoop (i : Nat)
deriving DecidableEq, Repr

/-- An element of `threads_`, with the name of its thread. -/
structure PoolThread where
  name : List UInt8
  callback : Bool
  inner : EventLoopThread

/-- A step of the thread; there is no call of an empty callback. -/
def PoolThread.step (t : PoolThread) (l : EventLoopThread.Label) : Option PoolThread :=
  match l, t.callback with
  | .callback .., false => none
  | l, _ => (t.inner.step l).map fun inner => { t with inner := inner }

structure EventLoopThreadPool where
  name : List UInt8
  started : Bool
  numThreads : Int
  next : Nat
  threads : List PoolThread
  loops : List LoopPtr
  /-- The calls of the callback with `baseLoop_`. -/
  baseCallbacks : Nat
  call : EventLoopThreadPool.StartCall
  /-- The `cb` of `start`, if it is not empty. -/
  cb : Bool

namespace EventLoopThreadPool

def new (name : List UInt8) : EventLoopThreadPool where
  name := name
  started := false
  numThreads := 0
  next := 0
  threads := []
  loops := []
  baseCallbacks := 0
  call := .outside
  cb := false

/-- `snprintf(buf, sizeof buf, "%s%d", name_.c_str(), i)`, for which the buffer is large enough. -/
def threadName (name : List UInt8) (i : Nat) : List UInt8 :=
  name.takeWhile (· ≠ 0) ++ numeral i

/-- The loop that `getNextLoop` returns; `none` for an index that is out of range. -/
def nextLoop (s : EventLoopThreadPool) : Option LoopPtr :=
  if s.loops = [] then some .base else s.loops[s.next]?

def getNextLoop (s : EventLoopThreadPool) : Option EventLoopThreadPool :=
  if s.loops = [] then some s
  else s.nextLoop.bind fun _ =>
    if s.next + 1 < 2 ^ 31 then
      some { s with next := if s.loops.length ≤ s.next + 1 then 0 else s.next + 1 }
    else none

def getAllLoops (s : EventLoopThreadPool) : List LoopPtr :=
  if s.loops = [] then [.base] else s.loops

inductive Label where
  | setThreadNum (numThreads : Int)
  | start (cb : Bool)
  /-- The test of the loop in `start`: a thread more, or the end. -/
  | create
  /-- The base thread returns from `startLoop`. -/
  | startLoop
  | getNextLoop
  /-- A step of a thread of the pool, or of another thread in a call on its loop. -/
  | thread (i : Nat) (l : EventLoopThread.Label)

/-- The step is not one of the base thread. -/
def ofOthers : EventLoopThread.Label → Bool
  | .call _ => true
  | l => l.inThreadFunc

/-- The next test of the loop in `start`. -/
def create (s : EventLoopThreadPool) (i : Nat) : EventLoopThreadPool :=
  if i < s.numThreads then
    let t := { name := threadName s.name i, callback := s.cb, inner := EventLoopThread.start }
    { s with threads := s.threads ++ [t], call := .startLoop i }
  else
    let called := s.numThreads = 0 ∧ s.cb
    { s with call := .outside, baseCallbacks := s.baseCallbacks + if called then 1 else 0 }

/-- The thread with the index takes a step. -/
def threadStep (s : EventLoopThreadPool) (i : Nat) (l : EventLoopThread.Label) :
    Option EventLoopThreadPool :=
  s.threads[i]?.bind fun t =>
    (t.step l).map fun t => { s with threads := s.threads.set i t }

def step (s : EventLoopThreadPool) : Label → Option EventLoopThreadPool
  | .setThreadNum numThreads =>
    if s.call = .outside then some { s with numThreads := numThreads } else none
  | .start cb =>
    if s.call = .outside then some { s with started := true, cb := cb, call := .test 0 } else none
  | .create =>
    match s.call with
    | .test i => some (s.create i)
    | _ => none
  | .startLoop =>
    match s.call with
    | .startLoop i =>
      let last := s.threads.length - 1
      (s.threadStep last .startLoop).map fun s =>
        { s with loops := s.loops ++ [.thread last], call := .test (i + 1) }
    | _ => none
  | .getNextLoop => if s.call = .outside then s.getNextLoop else none
  | .thread i l => if ofOthers l then s.threadStep i l else none

/-! ## What is started

The invariant ties `threads_`, `loops_` and the place of the base thread together: there is a loop
for each thread but the one that is being started, and `next_` is an index of `loops_`. -/

/-- The names of the threads that the current call of `start` has still to make. -/
def pending (s : EventLoopThreadPool) : List (List UInt8) :=
  let names := (List.range s.numThreads.toNat).map (threadName s.name)
  match s.call with
  | .outside => []
  | .test i => names.drop i
  | .startLoop i => names.drop (i + 1)

/-- What a call of `start` asks for. -/
def requested (s : EventLoopThreadPool) : Label → List (List UInt8)
  | .start _ => (List.range s.numThreads.toNat).map (threadName s.name)
  | _ => []

/-- The threads of `loops_`, and the one that the base thread waits for. -/
def starting (s : EventLoopThreadPool) : Nat :=
  match s.call with
  | .startLoop _ => 1
  | _ => 0

structure Inv (s : EventLoopThreadPool) : Prop where
  loops : s.loops = (List.range s.loops.length).map .thread
  count : s.threads.length = s.loops.length + s.starting
  begun : ∀ t ∈ s.threads, t.inner.Begun
  client : ∀ i t, s.threads[i]? = some t → (t.inner.client = .startLoop ↔ s.loops.length ≤ i)
  next : s.next = 0 ∨ s.next < s.loops.length

section Step

variable {s s' : EventLoopThreadPool} {l : Label} {name : List UInt8} {ls : List Label}

theorem PoolThread.step_spec {t t' : PoolThread} {k : EventLoopThread.Label}
    (hs : t.step k = some t') : ∃ inner, t.inner.step k = some inner ∧ t' = { t with inner } := by
  unfold PoolThread.step at hs
  split at hs
  · cases hs
  · obtain ⟨inner, hinner, rfl⟩ := Option.map_eq_some_iff.mp hs
    exact ⟨inner, hinner, rfl⟩

theorem threadStep_spec {i : Nat} {k : EventLoopThread.Label} (hs : s.threadStep i k = some s') :
    ∃ t inner, s.threads[i]? = some t ∧ t.inner.step k = some inner ∧
      s' = { s with threads := s.threads.set i { t with inner } } := by
  obtain ⟨t, ht, hs⟩ := Option.bind_eq_some_iff.mp hs
  obtain ⟨t', ht', rfl⟩ := Option.map_eq_some_iff.mp hs
  obtain ⟨inner, hinner, rfl⟩ := PoolThread.step_spec ht'
  exact ⟨t, inner, ht, hinner, rfl⟩

theorem new_inv (name : List UInt8) : Inv (new name) where
  loops := rfl
  count := rfl
  begun t ht := absurd ht List.not_mem_nil
  client i t ht := by simp [new] at ht
  next := .inl rfl

/-- The base thread is elsewhere outside of `startLoop`, and asks for other numbers. -/
theorem Inv.moved (h : Inv s) (hloops : s'.loops = s.loops) (hthreads : s'.threads = s.threads)
    (hstarting : s'.starting = s.starting) (hnext : s'.next = s.next) : Inv s' where
  loops := by rw [hloops]; exact h.loops
  count := by rw [hloops, hthreads, hstarting]; exact h.count
  begun := by rw [hthreads]; exact h.begun
  client := by rw [hloops, hthreads]; exact h.client
  next := by rw [hloops, hnext]; exact h.next

theorem Inv.create (h : Inv s) {i : Nat} (hcall : s.call = .test i) : Inv (s.create i) := by
  have hstarting : s.starting = 0 := by simp [starting, hcall]
  have hlength : s.threads.length = s.loops.length := by
    rw [h.count, hstarting]
    rfl
  unfold EventLoopThreadPool.create
  split
  · refine ⟨h.loops, ?_, fun t ht => ?_, fun j t ht => ?_, h.next⟩
    · show (s.threads ++ [_]).length = s.loops.length + 1
      rw [List.length_append, hlength]
      rfl
    · rcases List.mem_append.mp ht with ht | ht
      · exact h.begun t ht
      · cases List.mem_singleton.mp ht
        exact EventLoopThread.start_begun
    · -- the new thread is the one behind those of `loops_`
      rcases Nat.lt_or_ge j s.threads.length with hlt | hge
      · rw [List.getElem?_append_left hlt] at ht
        exact h.client j t ht
      · rw [List.getElem?_append_right hge, List.getElem?_singleton] at ht
        split at ht
        · cases ht
          exact iff_of_true rfl (hlength ▸ hge)
        · cases ht
  · exact h.moved rfl rfl (by simp [starting, hcall]) rfl

theorem Inv.startLoop (h : Inv s) {i : Nat} (hcall : s.call = .startLoop i)
    (hs : s.step .startLoop = some s') : Inv s' := by
  -- one thread is there without its loop: the one that is being started
  have hlength : s.threads.length = s.loops.length + 1 := by
    rw [h.count]
    simp [starting, hcall]
  simp only [step, hcall] at hs
  obtain ⟨u, hu, rfl⟩ := Option.map_eq_some_iff.mp hs
  obtain ⟨t, inner, ht, hinner, rfl⟩ := threadStep_spec hu
  have hlast : s.threads.length - 1 = s.loops.length := by omega
  have hclient : inner.client = .returned := by
    simp only [EventLoopThread.step] at hinner
    split at hinner
    · cases hinner
      rfl
    · cases hinner
  refine ⟨?_, ?_, fun t' ht' => ?_, fun j t' ht' => ?_, ?_⟩
  · -- its loop is the next one in `loops_`
    show s.loops ++ [_] = (List.range (s.loops ++ [_]).length).map LoopPtr.thread
    rw [List.length_append, List.length_singleton, List.range_succ, List.map_append, ← h.loops,
      hlast]
    rfl
  · show (s.threads.set _ _).length = (s.loops ++ [_]).length + 0
    rw [List.length_set, List.length_append, hlength]
    rfl
  · rcases List.mem_or_eq_of_mem_set ht' with hold | rfl
    · exact h.begun t' hold
    · exact EventLoopThread.step_begun (h.begun t (List.mem_of_getElem? ht)) hinner
  · show t'.inner.client = .startLoop ↔ (s.loops ++ [_]).length ≤ j
    rw [List.length_append, List.length_singleton]
    change (s.threads.set (s.threads.length - 1) _)[j]? = some t' at ht'
    rw [List.getElem?_set, hlast] at ht'
    split at ht'
    · -- the thread that the base thread has waited for
      next heq =>
      split at ht'
      · cases ht'
        simp [hclient, ← heq]
      · cases ht'
    · next hne =>
      have hj : j < s.threads.length := (List.getElem?_eq_some_iff.mp ht').1
      rw [h.client j t' ht']
      omega
  · -- `next_` is untouched, and there are more loops now
    show s.next = 0 ∨ s.next < (s.loops ++ [_]).length
    rw [List.length_append]
    exact h.next.imp_right fun hlt => by omega

theorem Inv.thread (h : Inv s) {i : Nat} {k : EventLoopThread.Label} (hk : ofOthers k)
    (hs : s.threadStep i k = some s') : Inv s' := by
  obtain ⟨t, inner, ht, hinner, rfl⟩ := threadStep_spec hs
  have hne : k ≠ .startLoop := by
    rintro rfl
    cases hk
  refine ⟨h.loops, ?_, fun t' ht' => ?_, fun j t' ht' => ?_, h.next⟩
  · show (s.threads.set _ _).length = _
    rw [List.length_set]
    exact h.count
  · rcases List.mem_or_eq_of_mem_set ht' with hold | rfl
    · exact h.begun t' hold
    · exact EventLoopThread.step_begun (h.begun t (List.mem_of_getElem? ht)) hinner
  · change (s.threads.set i _)[j]? = some t' at ht'
    show t'.inner.client = .startLoop ↔ s.loops.length ≤ j
    rw [List.getElem?_set] at ht'
    split at ht'
    · next heq =>
      split at ht'
      · cases ht'
        rw [← heq, ← h.client i t ht]
        exact (EventLoopThread.step_moves hne hinner).2
      · cases ht'
    · exact h.client j t' ht'

theorem getNextLoop_spec (hs : s.getNextLoop = some s') :
    (s.loops = [] ∧ s' = s) ∨ (s.loops ≠ [] ∧
      s' = { s with next := if s.loops.length ≤ s.next + 1 then 0 else s.next + 1 }) := by
  unfold getNextLoop at hs
  split at hs
  · next hnil =>
    cases hs
    exact .inl ⟨hnil, rfl⟩
  · next hne =>
    obtain ⟨p, -, hs⟩ := Option.bind_eq_some_iff.mp hs
    split at hs
    · cases hs
      exact .inr ⟨hne, rfl⟩
    · cases hs

theorem step_inv (h : Inv s) (hs : s.step l = some s') : Inv s' := by
  cases l with
  | setThreadNum numThreads =>
    simp only [step] at hs
    split at hs
    · cases hs
      exact h.moved rfl rfl rfl rfl
    · cases hs
  | start cb =>
    simp only [step] at hs
    split at hs
    · next hcall =>
      cases hs
      exact h.moved rfl rfl (by simp [starting, hcall]) rfl
    · cases hs
  | create =>
    simp only [step] at hs
    split at hs
    · next i hcall =>
      cases hs
      exact h.create hcall
    · cases hs
  | startLoop =>
    cases hcall : s.call with
    | startLoop i => exact h.startLoop hcall hs
    | _ => simp [step, hcall] at hs
  | getNextLoop =>
    simp only [step] at hs
    split at hs
    · rcases getNextLoop_spec hs with ⟨-, rfl⟩ | ⟨-, rfl⟩
      · exact h
      · -- `next_` returns to zero at the end of `loops_`
        refine ⟨h.loops, h.count, h.begun, h.client, ?_⟩
        dsimp only
        split <;> omega
    · cases hs
  | thread i k =>
    simp only [step] at hs
    split at hs
    · next hk => exact h.thread hk hs
    · cases hs

theorem run_inv (hrun : exec step (new name) ls = some s) : Inv s :=
  exec_invariant (I := Inv) (fun _ _ _ h hs => step_inv h hs) (new_inv name) hrun

/-! ## The threads that are asked for

The names that exist and those still to come are what the calls of `start` asked for. No step but
the beginning of a `start` changes this list. -/

/-- A thread keeps its name. -/
theorem map_name_set {i : Nat} {t : PoolThread} (ht : s.threads[i]? = some t)
    (inner : EventLoopThread) :
    (s.threads.set i { t with inner }).map PoolThread.name = s.threads.map PoolThread.name := by
  obtain ⟨hi, rfl⟩ := List.getElem?_eq_some_iff.mp ht
  rw [List.map_set, ← List.getElem_map PoolThread.name (h := by simpa using hi),
    List.set_getElem_self]

/-- The names of the threads so far and those to come are what the calls of `start` asked for. -/
theorem step_names (hs : s.step l = some s') :
    s'.threads.map PoolThread.name ++ s'.pending =
      s.threads.map PoolThread.name ++ s.pending ++ s.requested l := by
  cases l with
  | setThreadNum numThreads =>
    simp only [step] at hs
    split at hs
    · next hcall =>
      cases hs
      simp [pending, requested, hcall]
    · cases hs
  | start cb =>
    simp only [step] at hs
    split at hs
    · next hcall =>
      cases hs
      simp [pending, requested, hcall]
    · cases hs
  | create =>
    simp only [step] at hs
    split at hs
    · next i hcall =>
      cases hs
      unfold create
      split
      · -- one name less to come, and it is the one the new thread gets
        next hlt =>
        have hi : i < s.numThreads.toNat := by omega
        simp [pending, requested, hcall, List.drop_eq_getElem_cons, hi]
      · -- the loop of `start` is over
        next hge =>
        have hi : s.numThreads.toNat ≤ i := by omega
        simp [pending, requested, hcall, hi]
    · cases hs
  | startLoop =>
    simp only [step] at hs
    split at hs
    · next i hcall =>
      obtain ⟨u, hu, rfl⟩ := Option.map_eq_some_iff.mp hs
      obtain ⟨t, inner, ht, -, rfl⟩ := threadStep_spec hu
      simp [pending, requested, hcall, map_name_set ht]
    · cases hs
  | getNextLoop =>
    simp only [step] at hs
    split at hs
    · rcases getNextLoop_spec hs with ⟨-, rfl⟩ | ⟨-, rfl⟩
      · simp [requested]
      · simp [pending, requested]
    · cases hs
  | thread i k =>
    simp only [step] at hs
    split at hs
    · obtain ⟨t, inner, ht, -, rfl⟩ := threadStep_spec hs
      simp only [map_name_set ht, requested, List.append_nil]
      rfl
    · cases hs

theorem run_names (hrun : exec step (new name) ls = some s) :
    s.threads.map PoolThread.name ++ s.pending = emitted step requested (new name) ls := by
  refine exec_induction (P := fun ls s => s.threads.map PoolThread.name ++ s.pending =
    emitted step requested (new name) ls) rfl (fun ls s l t hs h hl => ?_) hrun
  rw [step_names hl, h, emitted_concat hs]

/-- The names of one call are all different. -/
theorem requested_nodup (s : EventLoopThreadPool) (l : Label) : (s.requested l).Nodup := by
  cases l with
  | start cb =>
    refine List.Nodup.map (fun i j hij => ?_) List.nodup_range
    have hnumeral :=
      List.append_cancel_left (show threadName s.name i = threadName s.name j from hij)
    have hi := (numeral_canonical i).parses
    rw [hnumeral, (numeral_canonical j).parses] at hi
    exact (Int.ofNat.inj (Option.some.inj hi)).symm
  | _ => exact List.nodup_nil

theorem Inv.nextLoop (h : Inv s) : ∃ p ∈ s.getAllLoops, s.nextLoop = some p := by
  unfold EventLoopThreadPool.nextLoop getAllLoops
  split
  · exact ⟨.base, List.mem_singleton_self _, rfl⟩
  · next hne =>
    have hlt : s.next < s.loops.length := by
      have hpos := List.length_pos_iff.mpr hne
      rcases h.next with hzero | hlt <;> omega
    exact ⟨s.loops[s.next], List.getElem_mem hlt, List.getElem?_eq_getElem hlt⟩

/-- **The loops of the pool.** In every run of the base thread, with the threads of the pool and any
callers of their loops in between: the loop that `getNextLoop` would return is one of `getAllLoops`;
the loops of `loops_` are those of threads of the pool that have published them; and outside of
`start` there is one loop for each thread that the calls of `start` asked for, in their order, with
the names that they give, which differ within a call. -/
theorem pool_loops (hrun : exec step (new name) ls = some s) :
    (∃ p ∈ s.getAllLoops, s.nextLoop = some p) ∧
      (∀ i, .thread i ∈ s.loops → ∃ t, s.threads[i]? = some t ∧
        t.inner.threadFunc ≠ .entered ∧ t.inner.threadFunc ≠ .constructed) ∧
      (s.call = .outside → s.loops = (List.range s.threads.length).map .thread ∧
        s.threads.map PoolThread.name = emitted step requested (new name) ls) ∧
      ∀ l, (s.requested l).Nodup := by
  have h := run_inv hrun
  refine ⟨h.nextLoop, fun i hi => ?_, fun hcall => ?_, requested_nodup s⟩
  · rw [h.loops] at hi
    obtain ⟨j, hj, heq⟩ := List.mem_map.mp hi
    cases heq
    have hlt := List.mem_range.mp hj
    have hlength : i < s.threads.length := by
      rw [h.count]
      omega
    have hget := List.getElem?_eq_getElem hlength
    refine ⟨s.threads[i], hget, ?_⟩
    -- the base thread has returned from `startLoop` of this thread
    have hreturned := (h.client i _ hget).not.mpr (by omega)
    have hearly := (h.begun _ (List.getElem_mem hlength)).early
    exact ⟨fun he => hreturned (hearly (.inl he)), fun hc => hreturned (hearly (.inr hc))⟩
  · have hstarting : s.starting = 0 := by simp [starting, hcall]
    have hpending : s.pending = [] := by simp [pending, hcall]
    refine ⟨?_, ?_⟩
    · rw [h.count, hstarting]
      exact h.loops
    · rw [← run_names hrun, hpending, List.append_nil]

end Step

/-! ## The loops that are handed out

`getNextLoop` goes round in `loops_`. The threads of the pool take their steps in between and do
not see `next_`. -/

/-- The loop that a step hands out. -/
def handedOut (s : EventLoopThreadPool) : Label → List LoopPtr
  | .getNextLoop => s.nextLoop.toList
  | _ => []

def Label.isGetNextLoop : Label → Bool
  | .getNextLoop => true
  | _ => false

def Label.isStart : Label → Bool
  | .start _ => true
  | _ => false

section Rotation

variable {s t : EventLoopThreadPool} {l : Label} {name : List UInt8} {ls js : List Label}

theorem rotation_iff {n i : Nat} (hi : i < n) (a j : Nat) :
    (a + j) % n = i ↔ j ≡ i + (n - a % n) [MOD n] := by
  have hlt := Nat.mod_lt a (show 0 < n by omega)
  have hsum : a % n + (i + (n - a % n)) = i + n := by omega
  constructor
  · intro h
    have hcancel : a % n + j ≡ a % n + (i + (n - a % n)) [MOD n] := by
      unfold Nat.ModEq
      rw [hsum, Nat.mod_add_mod, Nat.add_mod_right, h, Nat.mod_eq_of_lt hi]
    exact Nat.ModEq.add_left_cancel' _ hcancel
  · intro h
    have hadd := h.add_left (a % n)
    unfold Nat.ModEq at hadd
    rwa [hsum, Nat.mod_add_mod, Nat.add_mod_right, Nat.mod_eq_of_lt hi] at hadd

/-- How often a loop comes up when one goes round. -/
theorem count_rotation {n i : Nat} (hi : i < n) (a k : Nat) :
    ((List.range k).map fun j => LoopPtr.thread ((a + j) % n)).count (.thread i) =
      k / n + if (i + (n - a % n)) % n < k % n then 1 else 0 := by
  rw [← Nat.count_modEq_card k (by omega)]
  induction k with
  | zero => rfl
  | succ k ih =>
    rw [List.range_succ, List.map_append, List.count_append, ih, Nat.count_succ]
    congr 1
    by_cases h : (a + k) % n = i
    · simp [h, (rotation_iff hi a k).mp h]
    · have hmod := (rotation_iff hi a k).not.mp h
      simp [h, hmod]

/-- A step outside of `start` that does not begin one. -/
theorem step_rotation (h : Inv s) (hcall : s.call = .outside) (hne : s.loops ≠ [])
    (hl : l.isStart = false) (hs : s.step l = some t) :
    t.call = .outside ∧ t.loops = s.loops ∧
      ((l.isGetNextLoop = false ∧ t.next = s.next ∧ s.handedOut l = []) ∨
        (l.isGetNextLoop ∧ t.next = (s.next + 1) % s.loops.length ∧
          s.handedOut l = [.thread s.next])) := by
  cases l with
  | setThreadNum numThreads =>
    simp only [step, if_pos hcall] at hs
    cases hs
    exact ⟨hcall, rfl, .inl ⟨rfl, rfl, rfl⟩⟩
  | start cb => cases hl
  | create => simp [step, hcall] at hs
  | startLoop => simp [step, hcall] at hs
  | getNextLoop =>
    simp only [step, hcall, if_true] at hs
    rcases getNextLoop_spec hs with ⟨hnil, -⟩ | ⟨-, rfl⟩
    · exact absurd hnil hne
    · -- the index is in range, since there is a loop
      have hlt : s.next < s.loops.length := by
        have hpos := List.length_pos_iff.mpr hne
        rcases h.next with hzero | hlt <;> omega
      refine ⟨hcall, rfl, .inr ⟨rfl, ?_, ?_⟩⟩
      · -- `next_` is reset when it reaches the number of loops
        dsimp only
        split
        · next hle =>
          rw [show s.next + 1 = s.loops.length by omega, Nat.mod_self]
        · next hgt =>
          rw [Nat.mod_eq_of_lt (by omega)]
      · have hget : s.loops[s.next]? = some (.thread s.next) := by
          rw [h.loops, List.getElem?_map, List.getElem?_range hlt]
          rfl
        simp [handedOut, nextLoop, hne, hget]
  -- the threads of the pool do not see `next_`
  | thread i k =>
    simp only [step] at hs
    split at hs
    · obtain ⟨u, inner, -, -, rfl⟩ := threadStep_spec hs
      exact ⟨hcall, rfl, .inl ⟨rfl, rfl, rfl⟩⟩
    · cases hs

/-- How often `getNextLoop` was called. -/
def calls (js : List Label) : Nat := js.countP Label.isGetNextLoop

theorem calls_concat (js : List Label) (l : Label) :
    calls (js ++ [l]) = calls js + if l.isGetNextLoop then 1 else 0 := by
  rw [calls, calls, List.countP_append, List.countP_singleton]

/-- The run lemma: the loops so far, and `next_`. -/
theorem run_rotation (h : Inv s) (hcall : s.call = .outside) (hne : s.loops ≠ [])
    (hjs : ∀ l ∈ js, l.isStart = false) (hrun : exec step s js = some t) :
    t.next = (s.next + calls js) % s.loops.length ∧
      emitted step handedOut s js =
        (List.range (calls js)).map fun j => .thread ((s.next + j) % s.loops.length) := by
  have hlt : s.next < s.loops.length := by
    have hpos := List.length_pos_iff.mpr hne
    rcases h.next with hzero | hlt <;> omega
  refine (exec_along (P := fun _ l => l.isStart = false)
    (I := fun js t => (Inv t ∧ t.call = .outside ∧ t.loops = s.loops) ∧
      t.next = (s.next + calls js) % s.loops.length ∧
      emitted step handedOut s js =
        (List.range (calls js)).map fun j => .thread ((s.next + j) % s.loops.length))
    ⟨⟨h, hcall, rfl⟩, (Nat.mod_eq_of_lt hlt).symm, rfl⟩ ?_ hrun ((along_inputs hrun).mpr hjs)).2
  rintro js u l v hu ⟨⟨hinv, hout, hloops⟩, hnext, hemitted⟩ hl hs
  obtain ⟨hout', hloops', hcases⟩ := step_rotation hinv hout (hloops ▸ hne) hl hs
  refine ⟨⟨step_inv hinv hs, hout', hloops'.trans hloops⟩, ?_⟩
  rw [emitted_concat hu, hemitted, calls_concat]
  rcases hcases with ⟨hget, hsame, hnone⟩ | ⟨hget, hsame, hone⟩
  · simp [hget, hsame, hnone, hnext]
  · rw [if_pos hget, hsame, hone, hnext, hloops, Nat.mod_add_mod, List.range_succ, List.map_append]
    exact ⟨rfl, rfl⟩

/-- **The loops are handed out in turn.** From any state of any run in which the pool has loops and
the base thread is not in `start`: as long as it does not start the pool again, `k` calls of
`getNextLoop`, with any steps of the threads in between, return the loops in the order of `loops_`,
over and over, from the one at `next_` on. So each of the `n` loops is returned `k / n` times or
once more. -/
theorem getNextLoop_rotates (hrun : exec step (new name) ls = some s) (hcall : s.call = .outside)
    (hne : s.loops ≠ []) (hjs : ∀ l ∈ js, l.isStart = false) (hstep : exec step s js = some t) :
    emitted step handedOut s js =
        ((List.range (calls js)).map fun j => .thread ((s.next + j) % s.loops.length)) ∧
      ∀ p ∈ s.loops, (emitted step handedOut s js).count p = calls js / s.loops.length ∨
        (emitted step handedOut s js).count p = calls js / s.loops.length + 1 := by
  have h := run_inv hrun
  have hemitted := (run_rotation h hcall hne hjs hstep).2
  refine ⟨hemitted, fun p hp => ?_⟩
  rw [h.loops] at hp
  obtain ⟨i, hi, rfl⟩ := List.mem_map.mp hp
  rw [hemitted, count_rotation (List.mem_range.mp hi)]
  split
  · exact .inr rfl
  · exact .inl rfl

/-- Two threads, of which the first has published its loop when the base thread looks. -/
def startTwo : List Label :=
  [.setThreadNum 2, .start false, .create, .thread 0 (.construct 1 9), .thread 0 .publish, .startLoop,
    .create, .thread 1 (.construct 2 10), .thread 0 (.loop .loop), .thread 1 .publish, .startLoop,
    .create]

theorem pool_loops_two :
    ∃ s, exec step (new (ascii "io")) startTwo = some s ∧
      s.threads.map PoolThread.name = [ascii "io0", ascii "io1"] ∧
      (∃ p ∈ s.getAllLoops, s.nextLoop = some p) ∧
      (∀ i, .thread i ∈ s.loops → ∃ t, s.threads[i]? = some t ∧
        t.inner.threadFunc ≠ .entered ∧ t.inner.threadFunc ≠ .constructed) ∧
      (s.call = .outside → s.loops = (List.range s.threads.length).map .thread ∧
        s.threads.map PoolThread.name =
          emitted step requested (new (ascii "io")) startTwo) ∧
      ∀ l, (s.requested l).Nodup :=
  ⟨_, rfl, by decide, pool_loops (show exec step (new (ascii "io")) startTwo = _ from rfl)⟩

/-- Three calls for two loops. -/
def threeCalls : List Label := [.getNextLoop, .getNextLoop, .thread 1 (.loop .loop), .getNextLoop]

theorem getNextLoop_rotates_three :
    ∃ s t, exec step (new (ascii "io")) startTwo = some s ∧ s.call = .outside ∧ s.loops ≠ [] ∧
      (∀ l ∈ threeCalls, l.isStart = false) ∧ exec step s threeCalls = some t ∧
      emitted step handedOut s threeCalls =
        ((List.range (calls threeCalls)).map fun j => .thread ((s.next + j) % s.loops.length)) ∧
      ∀ p ∈ s.loops, (emitted step handedOut s threeCalls).count p =
          calls threeCalls / s.loops.length ∨
        (emitted step handedOut s threeCalls).count p = calls threeCalls / s.loops.length + 1 := by
  have hjs : ∀ l ∈ threeCalls, l.isStart = false := by simp [threeCalls, Label.isStart]
  exact ⟨_, _, rfl, rfl, List.cons_ne_nil _ _, hjs, rfl,
    getNextLoop_rotates (show exec step (new (ascii "io")) startTwo = _ from rfl) rfl
      (List.cons_ne_nil _ _) hjs rfl⟩

end Rotation

end EventLoopThreadPool

end HttpWebserver
