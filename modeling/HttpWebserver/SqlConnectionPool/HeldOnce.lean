import HttpWebserver.SqlConnectionPool.Handles

/-!
# SqlConnectionPool — one client at a time

The semaphore of the pool never lets a thread through, but a signal does, since `getConnection`
ignores what `Sem::wait` returns. What keeps two clients from using one connection then is the
locked pop.

* `HeldOnce`: a connection is in the list once, or one client has one `shared_ptr` to it, or
  neither;
* `step_countsFree`: `FreeConn_` is the length of the list after any step;
* `step_leaves`, `copy_shares`: only a copy adds a `shared_ptr`;
* **`held_once_iff`** — in all states of a run, exactly when no client copies what it holds.
-/

namespace HttpWebserver

open Machine RefCount

namespace SqlConnectionPool

variable {T : Type*} [DecidableEq T] {s s' : SqlConnectionPool T} {thread : T}

/-- `FreeConn_` counts the connections of the list. -/
def CountsFree (s : SqlConnectionPool T) : Prop := s.FreeConn = s.connList.length

omit [DecidableEq T] in
theorem init_countsFree (MaxConn : Nat) :
    (init MaxConn (new : SqlConnectionPool T)).CountsFree := by
  rw [CountsFree, init, foldl_connect]
  show (0 : Int) + _ = (([] ++ List.range MaxConn).length : Int)
  rw [List.nil_append, Int.zero_add]

theorem returned_countsFree (h : s.CountsFree) (caller : Caller) (conn : Option Nat) :
    (s.returned thread caller conn).CountsFree := by
  cases caller with
  | client => exact h
  | initSqlResult => exact h

theorem waited_countsFree {caller : Caller} {interrupted : Bool} (h : s.CountsFree)
    (hs : s.waited thread caller interrupted = some s') : s'.CountsFree := by
  obtain ⟨result, -, rfl⟩ := Option.map_eq_some_iff.mp hs
  exact h

theorem getConnection_countsFree (h : s.CountsFree) (hs : s.getConnection thread = some s') :
    s'.CountsFree := by
  unfold getConnection at hs
  split at hs
  · split at hs
    · cases hs
      exact returned_countsFree h _ none
    · cases hs
      exact h
  · exact waited_countsFree h hs
  · split at hs
    · cases hs
    · next conn connList hlist =>
      cases hs
      apply returned_countsFree
      -- the list is one shorter
      rw [CountsFree, hlist, List.length_cons] at h
      show s.FreeConn - 1 = (connList.length : Int)
      omega
  · cases hs

theorem releaseConnection_countsFree {conn : Option Nat} (h : s.CountsFree)
    (hs : s.releaseConnection thread conn = some s') : s'.CountsFree := by
  cases conn with
  | none =>
    cases hs
    exact h
  | some conn =>
    simp only [releaseConnection] at hs
    split at hs
    · cases hs
      rw [CountsFree] at h
      show s.FreeConn + 1 = ((s.connList ++ [conn]).length : Int)
      rw [List.length_append, List.length_singleton]
      omega
    · cases hs

/-- **What `FreeConn_` is.** -/
theorem step_countsFree (h : s.CountsFree) {l : Label T} (hs : s.step l = some s') :
    s'.CountsFree := by
  cases l with
  | getConnection thread =>
    simp only [step] at hs
    split at hs
    · cases hs
      exact h
    · cases hs
  | initSqlResult thread =>
    simp only [step] at hs
    split at hs
    · -- `initSqlResult` tests `isInited_`, and changes no counter
      split at hs
      · cases hs
        exact h
      · cases hs
        exact h
    · cases hs
  | releaseConnection thread conn =>
    simp only [step] at hs
    split at hs
    · exact releaseConnection_countsFree h hs
    · cases hs
  | next thread => exact getConnection_countsFree h hs
  | interrupt thread =>
    simp only [step] at hs
    split at hs
    · exact waited_countsFree h hs
    · cases hs
  | query thread rows =>
    simp only [step] at hs
    split at hs
    · cases hs
      exact h
    · cases hs

end SqlConnectionPool

namespace Handles

variable {T : Type*} [DecidableEq T] {MaxConn : Nat} {s s' : Handles T} {l : Label T}

/-- The list and all threads together have the connection at most once, and it is gone only when its
handle has been deleted. -/
structure HeldOnce (MaxConn : Nat) (s : Handles T) (conn : Nat) : Prop where
  once : ∀ thread, s.pool.connList.count conn + (s.pool.refs thread).count conn ≤ 1
  alone : ∀ t t', conn ∈ s.pool.refs t → conn ∈ s.pool.refs t' → t = t'
  found : conn < MaxConn → conn ∈ s.pool.connList ∨ (∃ thread, conn ∈ s.pool.refs thread) ∨
    s.counters.deleted conn = 1

/-- No client gets a second `shared_ptr` to a connection. -/
def Label.NoCopy : Label T → Prop
  | .copy _ _ _ => False
  | _ => True

/-- The counters are right, and no handle has two `shared_ptr`s. -/
structure Single (MaxConn : Nat) (s : Handles T) : Prop where
  counted : Counted MaxConn s
  single : ∀ conn, s.counters.use conn ≤ 1
  free : s.pool.CountsFree

theorem Single.heldOnce (h : Single MaxConn s) (conn : Nat) : s.HeldOnce MaxConn conn where
  once thread := Nat.le_trans (h.counted.tally.count_le thread conn) (h.single conn)
  alone t t' ht ht' := by
    by_contra hne
    have hpair := h.counted.tally.count_pair_le hne conn
    have hsingle := h.single conn
    have hpos := List.count_pos_iff.mpr ht
    have hpos' := List.count_pos_iff.mpr ht'
    omega
  found hlt := by
    by_contra hnot
    obtain ⟨hlist, hnot⟩ := not_or.mp hnot
    obtain ⟨hrefs, hdeleted⟩ := not_or.mp hnot
    have hzero := h.counted.tally.use_eq_zero hlist fun t ht => hrefs ⟨t, ht⟩
    have hsound := h.counted.sound conn hlt
    rw [Counters.Sound, if_pos hzero] at hsound
    exact hdeleted hsound

/-! ## Steps -/

omit [DecidableEq T] in
theorem destroy_countsFree (h : s.pool.CountsFree) :
    s.destroySqlConnectionPool.pool.CountsFree := by
  unfold destroySqlConnectionPool
  dsimp only
  split
  · rfl
  · exact h

omit [DecidableEq T] in
theorem destroy_counters :
    ∃ xs, s.destroySqlConnectionPool.counters = s.counters.dropAll xs := by
  unfold destroySqlConnectionPool
  dsimp only
  split
  · exact ⟨s.pool.connList, rfl⟩
  · exact ⟨[], rfl⟩

/-- **What a step leaves.** `FreeConn_` counts the list as before, and only a copy does more to the
counters than to drop from them. -/
theorem step_leaves (hs : s.step l = some s') :
    (s.pool.CountsFree → s'.pool.CountsFree) ∧
      (l.NoCopy → ∃ xs, s'.counters = s.counters.dropAll xs) := by
  cases l with
  | call l =>
    simp only [step] at hs
    split at hs
    · cases hs
    · obtain ⟨pool, hpool, rfl⟩ := Option.map_eq_some_iff.mp hs
      -- every step but a copy only drops handles
      exact ⟨fun h => SqlConnectionPool.step_countsFree h hpool, fun _ => ⟨_, rfl⟩⟩
  | copy thread receiver conn =>
    simp only [step] at hs
    split at hs
    · cases hs
      exact ⟨fun h => h, fun hl => hl.elim⟩
    · cases hs
  | drop thread conn =>
    simp only [step] at hs
    split at hs
    · cases hs
      exact ⟨fun h => h, fun _ => ⟨[conn], rfl⟩⟩
    · cases hs
  | destroySqlConnectionPool =>
    simp only [step] at hs
    split at hs
    · cases hs
    · cases hs
      exact ⟨destroy_countsFree, fun _ => destroy_counters⟩
  | destructor =>
    simp only [step] at hs
    split at hs
    · cases hs
    · cases hs
      exact ⟨destroy_countsFree, fun _ => destroy_counters⟩

theorem step_free (h : s.pool.CountsFree) (hs : s.step l = some s') : s'.pool.CountsFree :=
  (step_leaves hs).1 h

/-- Only a copy adds a `shared_ptr`. -/
theorem step_use_le (hl : l.NoCopy) (hs : s.step l = some s') (conn : Nat) :
    s'.counters.use conn ≤ s.counters.use conn := by
  obtain ⟨xs, hcounters⟩ := (step_leaves hs).2 hl
  rw [hcounters, Counters.dropAll_use]
  exact Nat.sub_le _ _

/-- A copy is a second `shared_ptr`, of the same thread or of another one. -/
theorem copy_shares {thread receiver : T} {conn : Nat}
    (hs : s.step (.copy thread receiver conn) = some s') : ¬ s'.HeldOnce MaxConn conn := by
  simp only [step] at hs
  split at hs
  · next hconn =>
    cases hs
    intro h
    have hgot : conn ∈ s.pool.held receiver ++ [conn] :=
      List.mem_append_right _ List.mem_cons_self
    have hreceiver : conn ∈ (setHeld s.pool receiver (s.pool.held receiver ++ [conn])).refs
        receiver := by
      rw [SqlConnectionPool.setHeld_refs, Function.update_self]
      exact List.mem_append_left _ hgot
    rcases eq_or_ne thread receiver with rfl | hne
    · have honce := h.once thread
      have hheld : 0 < (s.pool.held thread).count conn := List.count_pos_iff.mpr hconn
      simp only [SqlConnectionPool.setHeld_refs, Function.update_self, List.count_append,
        List.count_singleton_self] at honce
      omega
    · refine hne (h.alone thread receiver ?_ hreceiver)
      rw [SqlConnectionPool.setHeld_refs, Function.update_of_ne hne]
      exact List.mem_append_left _ hconn
  · cases hs

/-! ## Runs

Without copies the counters only fall, so no handle ever has two `shared_ptr`s; a copy is a second
one at once. -/

omit [DecidableEq T] in
theorem start_single (MaxConn : Nat) : Single MaxConn (start MaxConn : Handles T) where
  counted := start_counted MaxConn
  single conn := by
    show (if conn < MaxConn then 1 else 0) ≤ 1
    split
    · exact Nat.le_refl 1
    · exact Nat.zero_le 1
  free := SqlConnectionPool.init_countsFree MaxConn

theorem step_single (h : Single MaxConn s) (hl : l.NoCopy) (hs : s.step l = some s') :
    Single MaxConn s' where
  counted := (step_effect MaxConn hs).counted h.counted
  single conn := Nat.le_trans (step_use_le hl hs conn) (h.single conn)
  free := step_free h.free hs

/-- **One client at a time.** For every number of connections and every run of any threads, with
waits that a signal interrupts, `initSqlResult`, drops and the destruction of the pool: in all
states each connection is in the list once, or one thread has one `shared_ptr` to it, or its handle
has been deleted, if and only if no client copies a `shared_ptr`. `FreeConn_` is the length of the
list in any case. -/
theorem held_once_iff (MaxConn : Nat) {ls : List (Label T)}
    (hrun : exec step (start MaxConn) ls = some s) :
    ((∀ js, js <+: ls → ∀ t, exec step (start MaxConn) js = some t →
        ∀ conn, t.HeldOnce MaxConn conn) ↔ ∀ l ∈ ls, l.NoCopy) ∧
      s.pool.FreeConn = s.pool.connList.length := by
  constructor
  · rw [← along_inputs hrun]
    refine always_iff_along (I := fun _ s => Single MaxConn s) (start_single MaxConn)
      (fun _ _ _ h => h.heldOnce) (fun _ _ _ _ _ h hl hs => step_single h hl hs) ?_ hrun
    intro js t l u _ _ hl hs hgood
    cases l with
    | copy thread receiver conn => exact copy_shares hs (hgood conn)
    | _ => exact hl trivial
  · exact exec_invariant (I := fun s => s.pool.CountsFree) (fun _ _ _ h hs => step_free h hs)
      (SqlConnectionPool.init_countsFree MaxConn) hrun

/-- Two clients wait, and signals let both of them go on; one gives its connection back. -/
def bothInterrupted : List (Label Nat) :=
  [.call (.getConnection 0), .call (.getConnection 1), .call (.next 0), .call (.next 1),
    .call (.interrupt 1), .call (.interrupt 0), .call (.next 0), .call (.next 1),
    .call (.releaseConnection 0 (some 0))]

theorem held_once_iff_interrupted :
    ∃ s, exec step (start 2) bothInterrupted = some s ∧ s.pool.held 1 = [1] ∧
      ((∀ js, js <+: bothInterrupted → ∀ t, exec step (start 2) js = some t →
          ∀ conn, t.HeldOnce 2 conn) ↔ ∀ l ∈ bothInterrupted, l.NoCopy) ∧
        s.pool.FreeConn = s.pool.connList.length :=
  ⟨_, rfl, rfl, held_once_iff 2 (show exec step (start 2) bothInterrupted = _ from rfl)⟩

end Handles

end HttpWebserver
