import HttpWebserver.Lib.RefCount
import HttpWebserver.SqlConnectionPool.SqlConnectionPool

/-!
# SqlConnectionPool — what releases a handle

The `MYSQL` handles of the connections are in `shared_ptr`s without a custom deleter, and
`destroySqlConnectionPool` calls `mysql_close` on those in the list before it clears the list.

* `Handles`: the pool, the counters of the `shared_ptr`s and the calls of `mysql_close`; clients
  copy and drop what they hold. A client gets a connection where a signal interrupts its wait.
* `Moves`: every step of a thread moves `shared_ptr`s between the list and the thread, and drops
  some, so the counters are the `shared_ptr`s there are (`Counted`);
* `SafeDestroy`, `SafeDrop`, `SafeGiveUp`: what keeps a handle from being released twice, or never
  closed. A connection that is given back behind the destruction of the pool is closed by nobody;
* **`released_once_iff`** — in all states of a run, exactly when every step is one of these.
-/

namespace HttpWebserver

open Machine RefCount

namespace SqlConnectionPool

variable {T : Type*}

/-- The `shared_ptr` in the variable of `initSqlResult`. -/
def Call.conn : Call → List Nat
  | .querying conn => conn.toList
  | _ => []

/-- The `shared_ptr`s that a thread has. -/
def refs (s : SqlConnectionPool T) (thread : T) : List Nat :=
  s.held thread ++ (s.call thread).conn

/-- What goes out of scope in a step. -/
def dropped (s : SqlConnectionPool T) : Label T → List Nat
  | .query thread _ => (s.call thread).conn
  | _ => []

end SqlConnectionPool

/-- The pool and the handles of its connections. -/
structure Handles (T : Type*) where
  pool : SqlConnectionPool T
  /-- The `shared_ptr`s of each handle, and the runs of their deleter. -/
  counters : Counters Nat
  /-- The calls of `mysql_close`. -/
  closed : Nat → Nat
  /-- `destroySqlConnectionPool` has run. -/
  destroyed : Bool
  /-- The destructor has run. -/
  destructed : Bool

namespace Handles

variable {T : Type*}

/-- The pool after `init`: of the two `shared_ptr`s of a round one is in the list. -/
def start (MaxConn : Nat) : Handles T where
  pool := SqlConnectionPool.init MaxConn SqlConnectionPool.new
  counters := { use := fun conn => if conn < MaxConn then 1 else 0, deleted := fun _ => 0 }
  closed _ := 0
  destroyed := false
  destructed := false

/-- `mysql_close`. -/
def close (closed : Nat → Nat) (conn : Nat) : Nat → Nat :=
  Function.update closed conn (closed conn + 1)

def destroySqlConnectionPool (s : Handles T) : Handles T :=
  let s := { s with destroyed := true }
  if 0 < s.pool.connList.length then
    let closed := s.pool.connList.foldl close s.closed
    let counters := s.counters.dropAll s.pool.connList
    let pool := { s.pool with CurConn := 0, FreeConn := 0, connList := [] }
    { s with pool := pool, counters := counters, closed := closed }
  else s

inductive Label (T : Type*) where
  /-- A step of a thread in the pool's functions. -/
  | call (l : SqlConnectionPool.Label T)
  | copy (thread receiver : T) (conn : Nat)
  | drop (thread : T) (conn : Nat)
  | destroySqlConnectionPool
  | destructor

variable [DecidableEq T]

/-- A client drops or gets a `shared_ptr`. -/
def setHeld (s : SqlConnectionPool T) (thread : T) (conns : List Nat) : SqlConnectionPool T :=
  { s with held := Function.update s.held thread conns }

def step (s : Handles T) : Label T → Option (Handles T)
  | .call l =>
    if s.destructed then none
    else (s.pool.step l).map fun pool =>
      { s with pool := pool, counters := s.counters.dropAll (s.pool.dropped l) }
  | .copy thread receiver conn =>
    if conn ∈ s.pool.held thread then
      some { s with
        pool := setHeld s.pool receiver (s.pool.held receiver ++ [conn])
        counters := s.counters.share conn }
    else none
  | .drop thread conn =>
    if conn ∈ s.pool.held thread then
      some { s with
        pool := setHeld s.pool thread ((s.pool.held thread).erase conn)
        counters := s.counters.drop conn }
    else none
  | .destroySqlConnectionPool => if s.destructed then none else some s.destroySqlConnectionPool
  | .destructor =>
    if s.destructed then none else some { s.destroySqlConnectionPool with destructed := true }

/-- A handle is released at most once, and by `mysql_close` when the pool has been destroyed and no
client has a connection. -/
structure ReleasedOnce (MaxConn : Nat) (s : Handles T) : Prop where
  atMostOnce : ∀ conn < MaxConn, s.closed conn + s.counters.deleted conn ≤ 1
  allClosed : s.destroyed → (∀ thread, s.pool.refs thread = []) →
    ∀ conn < MaxConn, 0 < s.closed conn

/-- The list has each connection once, and never one that was closed before; a client has a
`shared_ptr` to each, and to some connection if there are any. -/
structure SafeDestroy (MaxConn : Nat) (s : Handles T) : Prop where
  kept : ∀ conn ∈ s.pool.connList,
    s.closed conn = 0 ∧ s.pool.connList.count conn = 1 ∧ 1 < s.counters.use conn
  client : MaxConn = 0 ∨ ∃ thread, s.pool.refs thread ≠ []

/-- The thread has the last `shared_ptr` of all clients. -/
def Last (s : Handles T) (thread : T) (conn : Nat) : Prop :=
  s.pool.refs thread = [conn] ∧ ∀ t, t ≠ thread → s.pool.refs t = []

/-- Behind the destruction of the pool, the last `shared_ptr` of all clients is given up only where
every connection has been closed. -/
def SafeGiveUp (MaxConn : Nat) (s : Handles T) (thread : T) (conn : Nat) : Prop :=
  s.destroyed → s.Last thread conn → ∀ x < MaxConn, 0 < s.closed x

/-- The last `shared_ptr` to a connection is dropped where the connection was not closed. -/
structure SafeDrop (MaxConn : Nat) (s : Handles T) (thread : T) (conn : Nat) : Prop where
  unclosed : s.counters.use conn = 1 → s.closed conn = 0
  notLast : s.SafeGiveUp MaxConn thread conn

def Safe (MaxConn : Nat) (s : Handles T) : Label T → Prop
  | .call (.releaseConnection thread (some conn)) => s.SafeGiveUp MaxConn thread conn
  | .call (.query thread _) => ∀ conn ∈ (s.pool.call thread).conn, s.SafeDrop MaxConn thread conn
  | .drop thread conn => s.SafeDrop MaxConn thread conn
  | .destroySqlConnectionPool => s.SafeDestroy MaxConn
  | .destructor => s.SafeDestroy MaxConn
  | _ => True

end Handles

/-! ## What a step moves

A step of a thread in the pool's functions changes the list and what this thread holds, and nobody
else's `shared_ptr`s. `Moves` says which are the same as before, as multisets. -/

namespace SqlConnectionPool

variable {T : Type*} [DecidableEq T] {s s' : SqlConnectionPool T} {thread : T}

/-- The thread has the `shared_ptr`s `r` behind the step: those of the list and of the thread are
the same as before, but for the dropped ones. -/
structure Moves (s s' : SqlConnectionPool T) (dropped : List Nat) (thread : T) (r : List Nat) :
    Prop where
  refs : s'.refs = Function.update s.refs thread r
  count : ∀ conn, s'.connList.count conn + r.count conn + dropped.count conn
    = s.connList.count conn + (s.refs thread).count conn

omit [DecidableEq T] in
theorem refs_of_call {call : Call} (h : s.call thread = call) :
    s.refs thread = s.held thread ++ call.conn := by
  rw [refs, h]

/-- What one thread holds, and where it is, has changed. -/
theorem refs_of_update {held : List Nat} {call : Call}
    (hheld : s'.held = Function.update s.held thread held)
    (hcall : s'.call = Function.update s.call thread call) :
    s'.refs = Function.update s.refs thread (held ++ call.conn) := by
  funext t
  rw [refs, hheld, hcall]
  by_cases h : t = thread
  · subst h
    rw [Function.update_self, Function.update_self, Function.update_self]
  · rw [Function.update_of_ne h, Function.update_of_ne h, Function.update_of_ne h]
    rfl

theorem goto_refs (s : SqlConnectionPool T) (thread : T) (call : Call) :
    (s.goto thread call).refs = Function.update s.refs thread (s.held thread ++ call.conn) :=
  refs_of_update (Function.update_eq_self thread s.held).symm rfl

theorem setHeld_refs (s : SqlConnectionPool T) (thread : T) (conns : List Nat) :
    (Handles.setHeld s thread conns).refs
      = Function.update s.refs thread (conns ++ (s.call thread).conn) :=
  refs_of_update rfl (Function.update_eq_self thread s.call).symm

/-- `getConnection` returns a connection to its caller. -/
theorem returned_refs (s : SqlConnectionPool T) (thread : T) (caller : Caller)
    (conn : Option Nat) : (s.returned thread caller conn).refs
      = Function.update s.refs thread (s.held thread ++ conn.toList) := by
  cases caller with
  | initSqlResult => exact goto_refs s thread (.querying conn)
  | client =>
    have hrefs : (s.returned thread .client conn).refs = _ := refs_of_update rfl rfl
    rw [hrefs]
    exact congrArg _ (List.append_nil _)

theorem returned_connList (s : SqlConnectionPool T) (thread : T) (caller : Caller)
    (conn : Option Nat) : (s.returned thread caller conn).connList = s.connList := by
  cases caller <;> rfl

/-- A thread goes on with what it has. -/
theorem goto_moves {call call' : Call} (h : s.call thread = call) (hconn : call'.conn = call.conn) :
    Moves s (s.goto thread call') [] thread (s.refs thread) := by
  refine ⟨?_, fun conn => rfl⟩
  rw [goto_refs, hconn, refs_of_call h]

theorem moves_refl (s : SqlConnectionPool T) (thread : T) :
    Moves s s [] thread (s.refs thread) :=
  ⟨(Function.update_eq_self thread s.refs).symm, fun _ => rfl⟩

/-- With a permit or without one, a wait that ends moves nothing. -/
theorem waited_moves {caller : Caller} {interrupted : Bool} (hcall : s.call thread = .waiting caller)
    (hs : s.waited thread caller interrupted = some s') : Moves s s' [] thread (s.refs thread) := by
  obtain ⟨result, -, rfl⟩ := Option.map_eq_some_iff.mp hs
  have hmoves := goto_moves hcall (show (Call.popping caller).conn = _ from rfl)
  exact ⟨hmoves.refs, fun _ => rfl⟩

/-- The thread keeps what it has, and may get a connection. -/
theorem getConnection_moves (hs : s.getConnection thread = some s') :
    ∃ got, Moves s s' [] thread (s.refs thread ++ got) := by
  unfold getConnection at hs
  split at hs
  · next caller hcall =>
    refine ⟨[], ?_⟩
    rw [List.append_nil]
    split at hs
    · -- the list is empty
      cases hs
      refine ⟨?_, fun conn => ?_⟩
      · rw [returned_refs, refs_of_call hcall]
        rfl
      · rw [returned_connList]
        rfl
    · cases hs
      exact goto_moves hcall rfl
  · next caller hcall =>
    refine ⟨[], ?_⟩
    rw [List.append_nil]
    exact waited_moves hcall hs
  · next caller hcall =>
    -- the front of the list goes to the caller
    split at hs
    · cases hs
    · next conn connList hlist =>
      cases hs
      refine ⟨[conn], ?_⟩
      rw [show s.refs thread = s.held thread by
        rw [refs_of_call hcall]
        exact List.append_nil _]
      refine ⟨?_, fun x => ?_⟩
      · exact returned_refs _ thread caller (some conn)
      · rw [returned_connList, hlist, count_cons_add, refs_of_call hcall, List.count_append,
          List.count_append]
        show connList.count x + (_ + [conn].count x) + 0 = _ + (_ + 0)
        omega
  · cases hs

/-- The thread gives a connection to the list. -/
theorem releaseConnection_moves {conn : Nat} (hcall : s.call thread = .none)
    (hs : s.releaseConnection thread (some conn) = some s') :
    s'.connList = s.connList ++ [conn] ∧ ∃ r, Moves s s' [] thread r := by
  simp only [releaseConnection] at hs
  split at hs
  · next hmem =>
    cases hs
    refine ⟨rfl, _, setHeld_refs { s with connList := s.connList ++ [conn] } thread _,
      fun x => ?_⟩
    have herase := count_erase_add hmem x
    rw [hcall, refs_of_call hcall]
    show (s.connList ++ [conn]).count x + ((s.held thread).erase conn ++ []).count x + 0
      = s.connList.count x + (s.held thread ++ []).count x
    rw [List.count_append, List.append_nil, List.append_nil]
    omega
  · cases hs

/-- The variable of `initSqlResult` goes out of scope. -/
theorem query_moves {rows : List (String × String)} (hs : s.step (.query thread rows) = some s') :
    ∃ conn, s.call thread = .querying (some conn) ∧ s'.connList = s.connList ∧
      Moves s s' [conn] thread (s.held thread) := by
  simp only [step] at hs
  split at hs
  · next conn hcall =>
    cases hs
    refine ⟨conn, hcall, rfl, ?_, fun x => ?_⟩
    · have hrefs := goto_refs s thread .none
      rw [show s.held thread ++ Call.none.conn = s.held thread from List.append_nil _] at hrefs
      exact hrefs
    · rw [refs_of_call hcall, List.count_append]
      exact Nat.add_assoc _ _ _
  · cases hs

/-- The step gives up a `shared_ptr`, to the list or for good. -/
def Label.GivesUp : Label T → Prop
  | .releaseConnection _ (some _) => True
  | .query _ _ => True
  | _ => False

/-- In the other steps a thread keeps what it has, and may get a connection. -/
theorem step_gets {l : Label T} (hl : ¬ l.GivesUp) (hs : s.step l = some s') :
    ∃ t got, Moves s s' [] t (s.refs t ++ got) := by
  -- most of them move nothing
  have hsame : (∃ t, Moves s s' [] t (s.refs t)) → ∃ t got, Moves s s' [] t (s.refs t ++ got) := by
    rintro ⟨t, hmoves⟩
    refine ⟨t, [], ?_⟩
    rw [List.append_nil]
    exact hmoves
  cases l with
  | getConnection thread =>
    simp only [step] at hs
    split at hs
    · next hcall =>
      cases hs
      exact hsame ⟨thread, goto_moves hcall rfl⟩
    · cases hs
  | initSqlResult thread =>
    simp only [step] at hs
    split at hs
    · next hcall =>
      split at hs
      · cases hs
        exact hsame ⟨thread, moves_refl s thread⟩
      · cases hs
        exact hsame ⟨thread, goto_moves hcall rfl⟩
    · cases hs
  | releaseConnection thread conn =>
    cases conn with
    | some conn => exact absurd trivial hl
    | none =>
      simp only [step] at hs
      split at hs
      · cases hs
        exact hsame ⟨thread, moves_refl s thread⟩
      · cases hs
  | next thread => exact ⟨thread, getConnection_moves hs⟩
  | interrupt thread =>
    simp only [step] at hs
    split at hs
    · next caller hcall => exact hsame ⟨thread, waited_moves hcall hs⟩
    · cases hs
  | query thread rows => exact absurd trivial hl

end SqlConnectionPool

namespace Handles

variable {T : Type*} [DecidableEq T] {MaxConn : Nat} {s s' : Handles T} {l : Label T}

/-! ## The counters are right

Each step is one of five kinds, by what it does to the counters of the handles: nothing (`gets`,
`releases`), one more (`copies`), one less (`drops`), or one less for each connection in the list
(`destroys`). -/

/-- The counters are the `shared_ptr`s there are, all of them to handles of `init`, and a handle is
deleted when none is left. -/
structure Counted (MaxConn : Nat) (s : Handles T) : Prop where
  tally : Tally s.pool.connList s.pool.refs s.counters.use
  known : ∀ conn, 0 < s.counters.use conn → conn < MaxConn
  sound : ∀ conn < MaxConn, s.counters.Sound conn

/-- What a step does, and when it is safe. -/
inductive Effect (MaxConn : Nat) (s s' : Handles T) (safe : Prop) : Prop where
  | gets (hsafe : safe) (hclosed : s'.closed = s.closed) (hdestroyed : s'.destroyed = s.destroyed)
      (hcounters : s'.counters = s.counters) (thread : T) (got : List Nat)
      (hmoves : s.pool.Moves s'.pool [] thread (s.pool.refs thread ++ got))
  | releases (conn : Nat) (thread : T) (hsafe : safe ↔ s.SafeGiveUp MaxConn thread conn)
      (hclosed : s'.closed = s.closed) (hdestroyed : s'.destroyed = s.destroyed)
      (hcounters : s'.counters = s.counters) (hlist : s'.pool.connList = s.pool.connList ++ [conn])
      (r : List Nat) (hmoves : s.pool.Moves s'.pool [] thread r)
  | copies (hsafe : safe) (hclosed : s'.closed = s.closed)
      (hdestroyed : s'.destroyed = s.destroyed) (conn : Nat) (thread receiver : T)
      (hconn : conn ∈ s.pool.held thread) (hcounters : s'.counters = s.counters.share conn)
      (hpool : s'.pool = setHeld s.pool receiver (s.pool.held receiver ++ [conn]))
  | drops (conn : Nat) (thread : T) (hsafe : safe ↔ s.SafeDrop MaxConn thread conn)
      (hclosed : s'.closed = s.closed) (hdestroyed : s'.destroyed = s.destroyed)
      (hconn : conn ∈ s.pool.refs thread) (hcounters : s'.counters = s.counters.drop conn)
      (hlist : s'.pool.connList = s.pool.connList) (r : List Nat)
      (hmoves : s.pool.Moves s'.pool [conn] thread r)
  | destroys (hsafe : safe ↔ s.SafeDestroy MaxConn) (hdestroyed : s'.destroyed = true)
      (hclosed : s'.closed = s.pool.connList.foldl close s.closed)
      (hcounters : s'.counters = s.counters.dropAll s.pool.connList)
      (hlist : s'.pool.connList = []) (hrefs : s'.pool.refs = s.pool.refs)

/-- `destroySqlConnectionPool`, called by a client or by the destructor. -/
theorem destroySqlConnectionPool_effect (MaxConn : Nat) (s : Handles T) (destructed : Bool) :
    Effect MaxConn s { s.destroySqlConnectionPool with destructed := destructed }
      (s.SafeDestroy MaxConn) := by
  unfold destroySqlConnectionPool
  dsimp only
  split
  · exact .destroys Iff.rfl rfl rfl rfl rfl rfl
  · next hempty =>
    have hnil : s.pool.connList = [] := List.eq_nil_of_length_eq_zero (by omega)
    refine .destroys Iff.rfl rfl ?_ ?_ hnil rfl
    · rw [hnil]
      rfl
    · rw [hnil]
      rfl

/-- **What a step can do.** -/
theorem step_effect (MaxConn : Nat) (hs : s.step l = some s') :
    Effect MaxConn s s' (s.Safe MaxConn l) := by
  cases l with
  | call l =>
    simp only [step] at hs
    split at hs
    · cases hs
    · obtain ⟨pool, hpool, rfl⟩ := Option.map_eq_some_iff.mp hs
      -- `query` drops its connection, `releaseConnection` gives one back, no other call does
      by_cases hl : l.GivesUp
      · cases l with
        | query thread rows =>
          obtain ⟨conn, hcall, hlist, hmoves⟩ := SqlConnectionPool.query_moves hpool
          -- the shared pointer of `query` ends with its scope
          have hdropped : s.pool.dropped (.query thread rows) = [conn] := by
            rw [SqlConnectionPool.dropped, hcall]
            rfl
          refine .drops conn thread ?_ rfl rfl ?_ ?_ hlist _ hmoves
          · show (∀ x ∈ (s.pool.call thread).conn, s.SafeDrop MaxConn thread x) ↔ _
            rw [hcall]
            exact List.forall_mem_singleton
          · rw [SqlConnectionPool.refs_of_call hcall]
            exact List.mem_append_right _ List.mem_cons_self
          · rw [hdropped]
            rfl
        | releaseConnection thread conn =>
          cases conn with
          | none => exact hl.elim
          | some conn =>
            simp only [SqlConnectionPool.step] at hpool
            split at hpool
            · next hcall =>
              obtain ⟨hlist, r, hmoves⟩ := SqlConnectionPool.releaseConnection_moves hcall hpool
              exact .releases conn thread Iff.rfl rfl rfl rfl hlist r hmoves
            · cases hpool
        | getConnection _ | initSqlResult _ | next _ | interrupt _ => exact hl.elim
      · obtain ⟨thread, got, hmoves⟩ := SqlConnectionPool.step_gets hl hpool
        cases l with
        | query thread rows => exact absurd trivial hl
        | releaseConnection thread' conn =>
          cases conn with
          | some conn => exact absurd trivial hl
          | none => exact .gets trivial rfl rfl rfl thread got hmoves
        | getConnection _ | initSqlResult _ | next _ | interrupt _ =>
          exact .gets trivial rfl rfl rfl thread got hmoves
  | copy thread receiver conn =>
    simp only [step] at hs
    split at hs
    · next hmem =>
      cases hs
      exact .copies trivial rfl rfl conn thread receiver hmem rfl rfl
    · cases hs
  -- a handle that goes out of scope
  | drop thread conn =>
    simp only [step] at hs
    split at hs
    · next hmem =>
      cases hs
      have hrefs : conn ∈ s.pool.refs thread := List.mem_append_left _ hmem
      refine .drops conn thread Iff.rfl rfl rfl hrefs rfl rfl _
        ⟨SqlConnectionPool.setHeld_refs s.pool thread _, fun x => ?_⟩
      have herase := count_erase_add hmem x
      show s.pool.connList.count x + ((s.pool.held thread).erase conn ++ _).count x + _
        = s.pool.connList.count x + (s.pool.held thread ++ _).count x
      rw [List.count_append, List.count_append]
      omega
    · cases hs
  | destroySqlConnectionPool =>
    simp only [step] at hs
    split at hs
    · cases hs
    · cases hs
      exact destroySqlConnectionPool_effect MaxConn s _
  | destructor =>
    simp only [step] at hs
    split at hs
    · cases hs
    · cases hs
      exact destroySqlConnectionPool_effect MaxConn s _

/-! ## The counters stay right

One lemma for each kind. The counters are the number of `shared_ptr`s in the list and in the hands
of the threads. -/

omit [DecidableEq T] in
theorem start_counted (MaxConn : Nat) : Counted MaxConn (start MaxConn : Handles T) := by
  have hpool : (start MaxConn : Handles T).pool.connList = List.range MaxConn ∧
      (start MaxConn : Handles T).pool.refs = fun _ => [] := by
    show (SqlConnectionPool.init MaxConn SqlConnectionPool.new).connList = _ ∧
      (SqlConnectionPool.init MaxConn SqlConnectionPool.new).refs = _
    rw [SqlConnectionPool.init, SqlConnectionPool.foldl_connect]
    exact ⟨List.nil_append _, rfl⟩
  have huse : (start MaxConn : Handles T).counters.use
      = fun conn => (List.range MaxConn).count conn := by
    funext conn
    show (if conn < MaxConn then 1 else 0) = _
    split
    · next hlt => exact (List.count_eq_one_of_mem List.nodup_range (List.mem_range.mpr hlt)).symm
    · next hge => exact (List.count_eq_zero_of_not_mem fun h => hge (List.mem_range.mp h)).symm
  refine ⟨?_, fun conn hpos => ?_, fun conn hlt => ?_⟩
  · rw [hpool.1, hpool.2, huse]
    exact Tally.start _
  · have hpos : 0 < if conn < MaxConn then 1 else 0 := hpos
    by_contra hge
    rw [if_neg hge] at hpos
    exact Nat.lt_irrefl _ hpos
  · have hone : (start MaxConn : Handles T).counters.use conn = 1 := if_pos hlt
    rw [Counters.Sound, hone]
    rfl

/-- A handle with a `shared_ptr` is counted. -/
theorem Counted.live (h : Counted MaxConn s) {thread : T} {conn : Nat}
    (hconn : conn ∈ s.pool.refs thread) : 0 < s.counters.use conn := by
  have hle := h.tally.count_le thread conn
  have hpos : 0 < (s.pool.refs thread).count conn := List.count_pos_iff.mpr hconn
  omega

theorem moves_tally {use : Nat → Nat} {dropped r : List Nat} {thread : T}
    (h : Tally s.pool.connList s.pool.refs use)
    (hmoves : s.pool.Moves s'.pool dropped thread r) :
    Tally s'.pool.connList s'.pool.refs fun conn => use conn - dropped.count conn := by
  rw [hmoves.refs]
  refine h.update thread fun conn => ?_
  have hle := h.count_le thread conn
  have hcount := hmoves.count conn
  omega

theorem copy_tally {use : Nat → Nat} {conn : Nat} {receiver : T}
    (h : Tally s.pool.connList s.pool.refs use)
    (hpool : s'.pool = setHeld s.pool receiver (s.pool.held receiver ++ [conn])) :
    Tally s'.pool.connList s'.pool.refs fun x => use x + [conn].count x := by
  rw [hpool, SqlConnectionPool.setHeld_refs]
  refine h.update receiver fun x => ?_
  show use x + [conn].count x + (_ + (s.pool.held receiver ++ _).count x)
    = use x + (s.pool.connList.count x + (s.pool.held receiver ++ [conn] ++ _).count x)
  rw [List.count_append, List.count_append, List.count_append]
  omega

/-- A `shared_ptr` goes from one place to another. -/
theorem Counted.moved (h : Counted MaxConn s) {thread : T} {r : List Nat}
    (hcounters : s'.counters = s.counters) (hmoves : s.pool.Moves s'.pool [] thread r) :
    Counted MaxConn s' := by
  refine ⟨?_, ?_, ?_⟩
  · rw [hcounters]
    exact moves_tally h.tally hmoves
  · rw [hcounters]
    exact h.known
  · rw [hcounters]
    exact h.sound

theorem Effect.counted {safe : Prop} (e : Effect MaxConn s s' safe) (h : Counted MaxConn s) :
    Counted MaxConn s' := by
  cases e with
  | gets _ _ _ hcounters thread got hmoves => exact h.moved hcounters hmoves
  | releases _ thread _ _ _ hcounters _ r hmoves => exact h.moved hcounters hmoves
  | copies _ _ _ conn thread receiver hconn hcounters hpool =>
    -- the copied handle is counted already, so the connection is live
    have hlive : 0 < s.counters.use conn := h.live (List.mem_append_left _ hconn)
    have huse : ∀ x, s'.counters.use x = s.counters.use x + [conn].count x := fun x => by
      rw [hcounters]
      exact Counters.share_use s.counters conn x
    refine ⟨?_, fun x hx => ?_, fun x hlt => ?_⟩
    · rw [funext huse]
      exact copy_tally h.tally hpool
    · by_cases hsame : x = conn
      · rw [hsame]
        exact h.known conn hlive
      · rw [huse, count_single_of_ne hsame] at hx
        exact h.known x hx
    · rw [hcounters]
      exact (h.sound x hlt).share hlive
  | drops conn thread _ _ _ hconn hcounters _ r hmoves =>
    have huse : ∀ x, s'.counters.use x = s.counters.use x - [conn].count x := fun x => by
      rw [hcounters]
      exact Counters.drop_use s.counters conn x
    refine ⟨?_, fun x hx => ?_, fun x hlt => ?_⟩
    · rw [funext huse]
      exact moves_tally h.tally hmoves
    · rw [huse] at hx
      exact h.known x (by omega)
    · rw [hcounters]
      exact (h.sound x hlt).drop (h.live hconn)
  | destroys _ _ _ hcounters hlist hrefs =>
    have huse : ∀ x, s'.counters.use x = s.counters.use x - s.pool.connList.count x := fun x => by
      rw [hcounters]
      exact Counters.dropAll_use s.counters _ x
    refine ⟨?_, fun x hx => ?_, fun x hlt => ?_⟩
    · rw [hlist, hrefs, funext huse]
      refine h.tally.clear fun x => ?_
      exact Nat.sub_add_cancel (h.tally.shared_le x)
    · rw [huse] at hx
      exact h.known x (by omega)
    · rw [hcounters]
      exact (h.sound x hlt).dropAll h.tally.shared_le

/-! ## When a handle is released once

With right counters `ReleasedOnce` is a statement about the `shared_ptr`s there are: a handle that
`mysql_close` has released must never lose the last one, and once the pool is destroyed the last
one of all clients may go only behind `mysql_close`. -/

theorem foldl_close (conns : List Nat) (closed : Nat → Nat) (x : Nat) :
    conns.foldl close closed x = closed x + conns.count x := by
  induction conns generalizing closed with
  | nil => rfl
  | cons conn conns ih =>
    rw [List.foldl_cons, ih, count_cons_add, ← Nat.add_assoc]
    congr 1
    by_cases h : x = conn
    · subst h
      rw [close, Function.update_self, List.count_singleton_self]
    · rw [close, Function.update_of_ne h, count_single_of_ne h, Nat.add_zero]

omit [DecidableEq T] in
/-- In terms of the `shared_ptr`s there are: a closed handle has one. -/
theorem Counted.releasedOnce_iff (h : Counted MaxConn s) : ReleasedOnce MaxConn s ↔
    (∀ conn < MaxConn, s.closed conn ≤ 1 ∧ (s.counters.use conn = 0 → s.closed conn = 0)) ∧
      (s.destroyed → (∀ thread, s.pool.refs thread = []) →
        ∀ conn < MaxConn, 0 < s.closed conn) := by
  have hdeleted : ∀ conn < MaxConn, s.closed conn + s.counters.deleted conn ≤ 1 ↔
      s.closed conn ≤ 1 ∧ (s.counters.use conn = 0 → s.closed conn = 0) := by
    intro conn hlt
    rw [h.sound conn hlt]
    split <;> omega
  constructor
  · exact fun hr => ⟨fun conn hlt => (hdeleted conn hlt).mp (hr.atMostOnce conn hlt), hr.allClosed⟩
  · exact fun hall => ⟨fun conn hlt => (hdeleted conn hlt).mpr (hall.1 conn hlt), hall.2⟩

omit [DecidableEq T] in
/-- Nothing is dropped. -/
theorem Counted.released_of_kept (h : Counted MaxConn s) (h' : Counted MaxConn s')
    (hr : ReleasedOnce MaxConn s) (hclosed : s'.closed = s.closed)
    (hdestroyed : s'.destroyed = s.destroyed)
    (huse : ∀ conn, s'.counters.use conn = 0 → s.counters.use conn = 0)
    (hclient : (∀ thread, s'.pool.refs thread = []) → ∀ thread, s.pool.refs thread = []) :
    ReleasedOnce MaxConn s' := by
  obtain ⟨hclosed₀, -⟩ := h.releasedOnce_iff.mp hr
  refine h'.releasedOnce_iff.mpr ⟨fun conn hlt => ?_, fun hd hempty => ?_⟩
  · rw [hclosed]
    exact ⟨(hclosed₀ conn hlt).1, fun hzero => (hclosed₀ conn hlt).2 (huse conn hzero)⟩
  · rw [hdestroyed] at hd
    rw [hclosed]
    exact hr.allClosed hd (hclient hempty)

/-- Where nobody has a `shared_ptr` behind a step that takes none away, nobody had one before. -/
theorem gets_empty {thread : T} {got : List Nat}
    (hmoves : s.pool.Moves s'.pool [] thread (s.pool.refs thread ++ got))
    (hempty : ∀ t, s'.pool.refs t = []) : ∀ t, s.pool.refs t = [] := by
  intro t
  have hafter := hempty t
  rw [hmoves.refs] at hafter
  by_cases ht : t = thread
  · subst ht
    rw [Function.update_self] at hafter
    exact (List.append_eq_nil_iff.mp hafter).1
  · rwa [Function.update_of_ne ht] at hafter

/-- The thread has given up its last `shared_ptr`, and nobody else has one. -/
theorem gaveUp_last {thread : T} {r : List Nat} (conn : Nat)
    (hupdate : s'.pool.refs = Function.update s.pool.refs thread r)
    (hcount : ∀ x, r.count x + [conn].count x = (s.pool.refs thread).count x) :
    (∀ t, s'.pool.refs t = []) ↔ s.Last thread conn := by
  -- the thread gave up one handle, so it has none left if that was its only one
  have hr : r = [] ↔ s.pool.refs thread = [conn] := by
    have hperm : (r ++ [conn]).Perm (s.pool.refs thread) := by
      refine List.perm_iff_count.mpr fun x => ?_
      rw [List.count_append]
      exact hcount x
    constructor
    · intro hnil
      rw [hnil] at hperm
      exact List.perm_singleton.mp hperm.symm
    · intro hone
      have hlength := hperm.length_eq
      rw [hone, List.length_append, List.length_singleton] at hlength
      exact List.eq_nil_of_length_eq_zero (by omega)
  have hrefs : ∀ t, s'.pool.refs t = if t = thread then r else s.pool.refs t := fun t => by
    rw [hupdate, Function.update_apply]
  constructor
  · intro hempty
    refine ⟨hr.mp ?_, fun t ht => ?_⟩
    · have hthread := hempty thread
      rwa [hrefs, if_pos rfl] at hthread
    · have hother := hempty t
      rwa [hrefs, if_neg ht] at hother
  · rintro ⟨hone, hother⟩ t
    rw [hrefs]
    split
    · exact hr.mpr hone
    · next ht => exact hother t ht

/-- A `shared_ptr` is given up for the list. -/
theorem Counted.released_giveUp (h : Counted MaxConn s) (h' : Counted MaxConn s')
    (hr : ReleasedOnce MaxConn s) {conn : Nat} {thread : T} {r : List Nat}
    (hclosed : s'.closed = s.closed) (hdestroyed : s'.destroyed = s.destroyed)
    (hcounters : s'.counters = s.counters)
    (hlist : s'.pool.connList = s.pool.connList ++ [conn])
    (hmoves : s.pool.Moves s'.pool [] thread r) :
    ReleasedOnce MaxConn s' ↔ s.SafeGiveUp MaxConn thread conn := by
  have hlast := gaveUp_last conn hmoves.refs fun x => by
    have hmove := hmoves.count x
    rw [hlist, List.count_append, List.count_nil] at hmove
    omega
  rw [h'.releasedOnce_iff, hclosed, hdestroyed, hcounters, hlast]
  exact and_iff_right (h.releasedOnce_iff.mp hr).1

/-- A `shared_ptr` is dropped. -/
theorem Counted.released_drop (h : Counted MaxConn s) (h' : Counted MaxConn s')
    (hr : ReleasedOnce MaxConn s) {conn : Nat} {thread : T} {r : List Nat}
    (hclosed : s'.closed = s.closed) (hdestroyed : s'.destroyed = s.destroyed)
    (hconn : conn ∈ s.pool.refs thread)
    (huse : ∀ x, s'.counters.use x = s.counters.use x - [conn].count x)
    (hlist : s'.pool.connList = s.pool.connList)
    (hmoves : s.pool.Moves s'.pool [conn] thread r) :
    ReleasedOnce MaxConn s' ↔ s.SafeDrop MaxConn thread conn := by
  have hlive := h.live hconn
  have hknown := h.known conn hlive
  have hlast := gaveUp_last conn hmoves.refs fun x => by
    have hmove := hmoves.count x
    rw [hlist] at hmove
    omega
  have hself := huse conn
  rw [List.count_singleton_self] at hself
  rw [h'.releasedOnce_iff, hclosed, hdestroyed, hlast]
  obtain ⟨hclosed₀, -⟩ := h.releasedOnce_iff.mp hr
  constructor
  · rintro ⟨honce, hgiveUp⟩
    exact ⟨fun hone => (honce conn hknown).2 (by omega), hgiveUp⟩
  · intro hsafe
    -- another connection's count is as before; this one's reaches zero only if nothing else counts
    refine ⟨fun x hlt => ⟨(hclosed₀ x hlt).1, fun hzero => ?_⟩, hsafe.notLast⟩
    rw [huse] at hzero
    by_cases hx : x = conn
    · subst hx
      rw [List.count_singleton_self] at hzero
      exact hsafe.unclosed (by omega)
    · rw [count_single_of_ne hx] at hzero
      exact (hclosed₀ x hlt).2 hzero

omit [DecidableEq T] in
/-- The connections of the list are closed and their `shared_ptr`s dropped. -/
theorem Counted.released_destroy (h : Counted MaxConn s) (h' : Counted MaxConn s')
    (hr : ReleasedOnce MaxConn s) (hdestroyed : s'.destroyed = true)
    (hclosed : ∀ x, s'.closed x = s.closed x + s.pool.connList.count x)
    (huse : ∀ x, s'.counters.use x = s.counters.use x - s.pool.connList.count x)
    (hlist : s'.pool.connList = []) (hrefs : s'.pool.refs = s.pool.refs) :
    ReleasedOnce MaxConn s' ↔ s.SafeDestroy MaxConn := by
  rw [h'.releasedOnce_iff, hdestroyed]
  obtain ⟨hclosed₀, -⟩ := h.releasedOnce_iff.mp hr
  constructor
  · rintro ⟨honce, hall⟩
    refine ⟨fun conn hconn => ?_, ?_⟩
    · have hpos : 0 < s.pool.connList.count conn := List.count_pos_iff.mpr hconn
      have hshared := h.tally.shared_le conn
      have hboth := honce conn (h.known conn (by omega))
      rw [hclosed, huse] at hboth
      omega
    · by_contra hnobody
      obtain ⟨hsome, hnone⟩ := not_or.mp hnobody
      have hpos : 0 < MaxConn := Nat.pos_of_ne_zero hsome
      have hempty : ∀ t, s'.pool.refs t = [] := fun t => by
        rw [hrefs]
        exact not_not.mp (not_exists.mp hnone t)
      -- then the first handle has been deleted, and closed
      have hzero : s'.counters.use 0 = 0 := by
        refine h'.tally.use_eq_zero ?_ fun t => ?_
        · rw [hlist]
          exact List.not_mem_nil
        · rw [hempty t]
          exact List.not_mem_nil
      have hdeleted := (honce 0 hpos).2 hzero
      have hopen := hall rfl hempty 0 hpos
      omega
  · intro hsafe
    refine ⟨fun x hlt => ?_, fun _ hempty x hlt => ?_⟩
    · rw [hclosed, huse]
      by_cases hx : x ∈ s.pool.connList
      · obtain ⟨hzero, hone, hmore⟩ := hsafe.kept x hx
        omega
      · rw [List.count_eq_zero_of_not_mem hx, Nat.add_zero, Nat.sub_zero]
        exact hclosed₀ x hlt
    · rw [hrefs] at hempty
      rcases hsafe.client with hzero | ⟨thread, hthread⟩
      · omega
      · exact absurd (hempty thread) hthread

theorem Effect.released {safe : Prop} (e : Effect MaxConn s s' safe) (h : Counted MaxConn s)
    (hr : ReleasedOnce MaxConn s) : ReleasedOnce MaxConn s' ↔ safe := by
  have h' := e.counted h
  cases e with
  | gets hsafe hclosed hdestroyed hcounters thread got hmoves =>
    refine iff_of_true (h.released_of_kept h' hr hclosed hdestroyed (fun conn hzero => ?_)
      (gets_empty hmoves)) hsafe
    rwa [hcounters] at hzero
  | releases conn thread hsafe hclosed hdestroyed hcounters hlist r hmoves =>
    rw [hsafe]
    exact h.released_giveUp h' hr hclosed hdestroyed hcounters hlist hmoves
  | copies hsafe hclosed hdestroyed conn thread receiver hconn hcounters hpool =>
    refine iff_of_true (h.released_of_kept h' hr hclosed hdestroyed (fun x hzero => ?_)
      fun hempty => ?_) hsafe
    · rw [hcounters, Counters.share_use] at hzero
      omega
    · -- the receiver has the copy
      have hreceiver := hempty receiver
      rw [hpool, SqlConnectionPool.setHeld_refs, Function.update_self] at hreceiver
      simp at hreceiver
  | drops conn thread hsafe hclosed hdestroyed hconn hcounters hlist r hmoves =>
    rw [hsafe]
    refine h.released_drop h' hr hclosed hdestroyed hconn (fun x => ?_) hlist hmoves
    rw [hcounters, Counters.drop_use]
  | destroys hsafe hdestroyed hclosed hcounters hlist hrefs =>
    rw [hsafe]
    refine h.released_destroy h' hr hdestroyed (fun x => ?_) (fun x => ?_) hlist hrefs
    · rw [hclosed, foldl_close]
    · rw [hcounters, Counters.dropAll_use]

omit [DecidableEq T] in
theorem start_released (MaxConn : Nat) : ReleasedOnce MaxConn (start MaxConn : Handles T) :=
  ⟨fun _ _ => Nat.zero_le 1, fun hdestroyed => absurd hdestroyed Bool.false_ne_true⟩

/-- **When each handle is released once.** For every `MaxConn` and every run of any threads after
`init`: in all of its states each handle has been released at most once, and by `mysql_close` once
the pool is destroyed and nobody has a connection, if and only if every step is safe. The pool is
destroyed only while a client has a further `shared_ptr` to each connection of the list. After that
the clients never drop the last `shared_ptr` to a closed connection, and they give up the last one
of all, to the list or for good, only where all connections have been closed. -/
theorem released_once_iff (MaxConn : Nat) {ls : List (Label T)}
    (hrun : exec step (start MaxConn) ls = some s) :
    (∀ js, js <+: ls → ∀ t, exec step (start MaxConn) js = some t → t.ReleasedOnce MaxConn) ↔
      Along step (Safe MaxConn) (start MaxConn) ls := by
  refine always_iff_along (I := fun _ s => Counted MaxConn s ∧ ReleasedOnce MaxConn s)
    ⟨start_counted MaxConn, start_released MaxConn⟩ (fun _ _ _ h => h.2) ?_ ?_ hrun
  · rintro js t l u - ⟨hcounted, hreleased⟩ hsafe hstep
    have heffect := step_effect MaxConn hstep
    exact ⟨heffect.counted hcounted, (heffect.released hcounted hreleased).mpr hsafe⟩
  · rintro js t l u - ⟨hcounted, hreleased⟩ hunsafe hstep hgood
    have heffect := step_effect MaxConn hstep
    exact hunsafe ((heffect.released hcounted hreleased).mp hgood)

/-- A client gets the only connection and gives back a copy of its `shared_ptr`; the pool is
destroyed. -/
def copyGivenBack : List (Label Nat) :=
  [.call (.getConnection 0), .call (.next 0), .call (.interrupt 0), .call (.next 0), .copy 0 0 0,
    .call (.releaseConnection 0 (some 0)), .destroySqlConnectionPool]

/-- The handle is closed once, until the client drops its `shared_ptr`. -/
theorem released_once_iff_sample :
    ∃ s, exec step (start 1) copyGivenBack = some s ∧
      (∀ js, js <+: copyGivenBack → ∀ t, exec step (start 1) js = some t → t.ReleasedOnce 1) ∧
      ¬ s.SafeDrop 1 0 0 := by
  refine ⟨_, rfl, (released_once_iff 1 (show exec step (start 1) copyGivenBack = some _
    from rfl)).mpr ?_, fun h => absurd (h.unclosed (by decide)) (by decide)⟩
  refine (along_cons rfl).mpr ⟨trivial, (along_cons rfl).mpr ⟨trivial, (along_cons rfl).mpr
    ⟨trivial, (along_cons rfl).mpr ⟨trivial, (along_cons rfl).mpr ⟨trivial, (along_cons rfl).mpr
      ⟨fun hdestroyed => absurd hdestroyed (by decide), (along_cons rfl).mpr
        ⟨⟨by decide, .inr ⟨0, by decide⟩⟩, trivial⟩⟩⟩⟩⟩⟩⟩

/-- The destructor behind `init`: the only handle is closed, and deleted. -/
theorem destructor_releases_twice :
    (∃ s, exec step (start 1 : Handles Nat) [.destructor] = some s ∧
      s.closed 0 = 1 ∧ s.counters.deleted 0 = 1) ∧
    ¬ ∀ (MaxConn : Nat) (ls : List (Label Nat)) (s : Handles Nat),
      exec step (start MaxConn) ls = some s → s.ReleasedOnce MaxConn := by
  refine ⟨⟨_, rfl, by decide, by decide⟩, fun h => ?_⟩
  have honce := (h 1 [.destructor] _ rfl).atMostOnce 0 (by decide)
  exact absurd honce (by decide)

end Handles

end HttpWebserver
