import HttpWebserver.Lib.Machine
import Mathlib.Data.List.Count
import Mathlib.Logic.Function.Basic

/-!
# SqlConnectionPool — connections between threads

The model of `SqlConnectionPool/SqlConnectionPool.{h,cc}` and of `Sem` in `Locker/Locker.h`.

* A connection is named by its number in the loop of `init`.
* The test of the list's size, the wait and the locked pop of `getConnection` are three steps, and
  so is each of `initSqlResult`'s tests.
* `Sem.wait` returns whether `sem_wait` has got a permit: it has not where a signal interrupts it.
  `getConnection` ignores the result (`interrupt`).
* `init` ends with `Sem sem_ = Sem(FreeConn_)`, which declares a local variable; the member is what
  its default constructor made it.
* `step_sem`: no step makes a permit;
* **`never_conserved`** — after `init` with any `MaxConn ≥ 1` no run keeps the pool as it should be:
  it is not so at the start, nor in any state with a free connection, and every `getConnection` that
  waits blocks until a signal interrupts it.
-/

namespace HttpWebserver

open Machine

/-- The value of a semaphore. -/
structure Sem where
  value : Nat
deriving DecidableEq, Repr

namespace Sem

def new : Sem := ⟨0⟩

def ofNum (num : Nat) : Sem := ⟨num⟩

/-- `wait`, with what it returns. It blocks at zero, and fails where a signal interrupts it. -/
def wait (s : Sem) (interrupted : Bool) : Option (Sem × Bool) :=
  if interrupted then some (s, false)
  else if s.value = 0 then none else some (⟨s.value - 1⟩, true)

/-- At zero only a signal ends the wait. -/
theorem wait_zero {s : Sem} (h : s.value = 0) (interrupted : Bool) :
    s.wait interrupted = if interrupted then some (s, false) else none := by
  rw [wait, if_pos h]

end Sem

/-- The caller of `getConnection`. -/
inductive Caller where
  | client
  | initSqlResult
deriving DecidableEq, Repr

/-- Where a thread is in the pool's functions. -/
inductive SqlConnectionPool.Call where
  | none
  /-- At the test of the list's size. -/
  | testing (caller : Caller)
  | waiting (caller : Caller)
  /-- Before the critical section. -/
  | popping (caller : Caller)
  /-- In `initSqlResult`, with what `getConnection` returned. -/
  | querying (conn : Option Nat)
deriving DecidableEq, Repr

structure SqlConnectionPool (T : Type*) where
  MaxConn : Nat
  CurConn : Int
  FreeConn : Int
  connList : List Nat
  sem : Sem
  isInited : Bool
  users : String → Option String
  call : T → SqlConnectionPool.Call
  /-- The connections that the thread got and did not release. -/
  held : T → List Nat

namespace SqlConnectionPool

variable {T : Type*}

/-- The constructor. -/
def new : SqlConnectionPool T where
  MaxConn := 0
  CurConn := 0
  FreeConn := 0
  connList := []
  sem := Sem.new
  isInited := false
  users _ := none
  call _ := .none
  held _ := []

/-- One round of the loop in `init`. -/
def connect (s : SqlConnectionPool T) (conn : Nat) : SqlConnectionPool T :=
  { s with connList := s.connList ++ [conn], FreeConn := s.FreeConn + 1 }

def init (MaxConn : Nat) (s : SqlConnectionPool T) : SqlConnectionPool T :=
  let s := { s with MaxConn := MaxConn }
  let s := (List.range MaxConn).foldl connect s
  -- a local variable, with the name of the member
  let _sem := Sem.ofNum s.FreeConn.toNat
  s

/-- `users_[row[0]] = row[1]`. -/
def setUser (users : String → Option String) (row : String × String) : String → Option String :=
  Function.update users row.1 (some row.2)

inductive Label (T : Type*) where
  | getConnection (thread : T)
  | initSqlResult (thread : T)
  | releaseConnection (thread : T) (conn : Option Nat)
  /-- The next step of the thread's `getConnection`. -/
  | next (thread : T)
  /-- A signal interrupts the `sem_wait` of the thread's `getConnection`. -/
  | interrupt (thread : T)
  /-- The rest of `initSqlResult`, with the rows of the result. -/
  | query (thread : T) (rows : List (String × String))

variable [DecidableEq T]

/-- The thread goes on elsewhere. -/
def goto (s : SqlConnectionPool T) (thread : T) (call : Call) : SqlConnectionPool T :=
  { s with call := Function.update s.call thread call }

/-- `getConnection` returns. -/
def returned (s : SqlConnectionPool T) (thread : T) (caller : Caller) (conn : Option Nat) :
    SqlConnectionPool T :=
  match caller with
  | .client =>
    let held := Function.update s.held thread (s.held thread ++ conn.toList)
    { s.goto thread .none with held := held }
  | .initSqlResult => s.goto thread (.querying conn)

/-- `sem_.wait()`, whose result is ignored. -/
def waited (s : SqlConnectionPool T) (thread : T) (caller : Caller) (interrupted : Bool) :
    Option (SqlConnectionPool T) :=
  (s.sem.wait interrupted).map fun result =>
    { s.goto thread (.popping caller) with sem := result.1 }

def getConnection (s : SqlConnectionPool T) (thread : T) : Option (SqlConnectionPool T) :=
  match s.call thread with
  | .testing caller =>
    if s.connList.length = 0 then some (s.returned thread caller none)
    else some (s.goto thread (.waiting caller))
  | .waiting caller => s.waited thread caller false
  | .popping caller =>
    match s.connList with
    -- `front` of an empty list is undefined
    | [] => none
    | conn :: connList =>
      let s := { s with connList := connList, FreeConn := s.FreeConn - 1, CurConn := s.CurConn + 1 }
      some (s.returned thread caller (some conn))
  | _ => none

def releaseConnection (s : SqlConnectionPool T) (thread : T) (conn : Option Nat) :
    Option (SqlConnectionPool T) :=
  match conn with
  | none => some s
  | some conn =>
    if conn ∈ s.held thread then
      some { s with
        connList := s.connList ++ [conn], FreeConn := s.FreeConn + 1, CurConn := s.CurConn - 1
        held := Function.update s.held thread ((s.held thread).erase conn) }
    else none

def step (s : SqlConnectionPool T) : Label T → Option (SqlConnectionPool T)
  | .getConnection thread =>
    if s.call thread = .none then some (s.goto thread (.testing .client)) else none
  | .initSqlResult thread =>
    if s.call thread = .none then
      if s.isInited then some s else some (s.goto thread (.testing .initSqlResult))
    else none
  | .releaseConnection thread conn =>
    if s.call thread = .none then s.releaseConnection thread conn else none
  | .next thread => s.getConnection thread
  | .interrupt thread =>
    match s.call thread with
    | .waiting caller => s.waited thread caller true
    | _ => none
  | .query thread rows =>
    match s.call thread with
    -- the connection goes out of scope
    | .querying (some _) =>
      some { s.goto thread .none with users := rows.foldl setUser s.users, isInited := true }
    | _ => none

/-- No thread is in a call. -/
def Idle (s : SqlConnectionPool T) : Prop := ∀ thread, s.call thread = .none

/-- Every connection of `init` is in the list once, or held once by one client, and the counters
and the semaphore say how many there are. -/
structure Conserved (MaxConn : Nat) (s : SqlConnectionPool T) : Prop where
  once : ∀ conn < MaxConn,
    (s.connList.count conn = 1 ∧ ∀ thread, conn ∉ s.held thread) ∨
      (conn ∉ s.connList ∧ ∃! thread, conn ∈ s.held thread)
  free : s.FreeConn = s.connList.length
  total : s.FreeConn + s.CurConn = MaxConn
  nonneg : 0 ≤ s.FreeConn ∧ 0 ≤ s.CurConn
  sem : s.sem.value = s.connList.length

/-! ## The semaphore

`init` makes a local variable of the member's name, so the member keeps the zero of its default
constructor. Nothing posts it: that it is zero is an invariant of every step. -/

section Semaphore

variable {MaxConn : Nat} {s s' : SqlConnectionPool T} {l : Label T} {thread : T}

omit [DecidableEq T] in
/-- What the loop of `init` adds. -/
theorem foldl_connect (conns : List Nat) (s : SqlConnectionPool T) :
    conns.foldl connect s = { s with
      connList := s.connList ++ conns, FreeConn := s.FreeConn + conns.length } := by
  induction conns generalizing s with
  | nil => simp
  | cons conn conns ih =>
    rw [List.foldl_cons, ih]
    have hfree : s.FreeConn + 1 + (conns.length : Int)
        = s.FreeConn + ((conns.length + 1 : Nat) : Int) := by omega
    simp only [connect, hfree, List.append_assoc, List.singleton_append, List.length_cons]

omit [DecidableEq T] in
/-- All connections are in the list, and the semaphore is as the constructor made it. -/
theorem init_spec (MaxConn : Nat) :
    (init MaxConn (new : SqlConnectionPool T)).connList = List.range MaxConn ∧
      (init MaxConn (new : SqlConnectionPool T)).sem = Sem.new := by
  unfold init
  dsimp only
  rw [foldl_connect]
  exact ⟨List.nil_append _, rfl⟩

theorem returned_sem (s : SqlConnectionPool T) (thread : T) (caller : Caller)
    (conn : Option Nat) : (s.returned thread caller conn).sem = s.sem := by
  cases caller <;> rfl

/-- No permit is there to be taken. -/
theorem waited_sem {caller : Caller} {interrupted : Bool} (h : s.sem.value = 0)
    (hs : s.waited thread caller interrupted = some s') : s'.sem.value = 0 := by
  rw [waited, Sem.wait_zero h] at hs
  cases interrupted with
  | false => cases hs
  | true =>
    cases hs
    exact h

theorem getConnection_sem (h : s.sem.value = 0) (hs : s.getConnection thread = some s') :
    s'.sem.value = 0 := by
  unfold getConnection at hs
  split at hs
  · split at hs
    · cases hs
      rw [returned_sem]
      exact h
    · cases hs
      exact h
  · exact waited_sem h hs
  · split at hs
    · cases hs
    · cases hs
      rw [returned_sem]
      exact h
  · cases hs

/-- **No permit.** `releaseConnection` does not post, so no step gives the semaphore one. -/
theorem step_sem (h : s.sem.value = 0) (hs : s.step l = some s') : s'.sem.value = 0 := by
  cases l with
  | getConnection thread =>
    simp only [step] at hs
    split at hs
    · cases hs
      exact h
    · cases hs
  | initSqlResult thread =>
    simp only [step] at hs
    split at hs
    · split at hs
      · cases hs
        exact h
      · cases hs
        exact h
    · cases hs
  | releaseConnection thread conn =>
    simp only [step, releaseConnection] at hs
    -- `releaseConnection` never posts
    split at hs
    · split at hs
      · cases hs
        exact h
      · split at hs
        · cases hs
          exact h
        · cases hs
    · cases hs
  | next thread => exact getConnection_sem h hs
  | interrupt thread =>
    simp only [step] at hs
    split at hs
    · exact waited_sem h hs
    · cases hs
  | query thread rows =>
    simp only [step] at hs
    split at hs
    · cases hs
      exact h
    · cases hs

omit [DecidableEq T] in
/-- A free connection, and no permit for it. -/
theorem not_conserved (h : s.sem.value = 0) (hfree : s.connList ≠ []) : ¬ s.Conserved MaxConn := by
  intro hconserved
  have hsem := hconserved.sem
  rw [h] at hsem
  exact hfree (List.eq_nil_of_length_eq_zero hsem.symm)

/-- **Never conserved.** After `init` with any `MaxConn ≥ 1`, in every run of any threads, with
waits that signals interrupt: the pool is not as it should be in all states in which no thread is in
a call, since it is not so behind `init`. In every state the semaphore is zero, so the pool is not
as it should be while a connection is free, and a `getConnection` that waits blocks until a signal
interrupts it. -/
theorem never_conserved (hpos : 1 ≤ MaxConn) {ls : List (Label T)}
    (hrun : exec step (init MaxConn new) ls = some s) :
    (¬ ∀ js, js <+: ls → ∀ t, exec step (init MaxConn new) js = some t → t.Idle →
        t.Conserved MaxConn) ∧
      s.sem.value = 0 ∧ (s.connList ≠ [] → ¬ s.Conserved MaxConn) ∧
      ∀ thread caller, s.call thread = .waiting caller → s.step (.next thread) = none := by
  obtain ⟨hlist, hinit⟩ := init_spec (T := T) MaxConn
  have hstart : (init MaxConn (new : SqlConnectionPool T)).sem.value = 0 := by
    rw [hinit]
    rfl
  have hsem : s.sem.value = 0 := exec_invariant (I := fun s => s.sem.value = 0)
    (fun _ _ _ h hs => step_sem h hs) hstart hrun
  refine ⟨fun hall => ?_, hsem, not_conserved hsem, fun thread caller hcall => ?_⟩
  · -- the state behind `init`, where all connections are free
    have hidle : (init MaxConn (new : SqlConnectionPool T)).Idle := by
      rw [Idle, init, foldl_connect]
      exact fun _ => rfl
    refine not_conserved hstart ?_ (hall [] List.nil_prefix _ rfl hidle)
    rw [hlist]
    intro hnil
    have hzero := List.range_eq_nil.mp hnil
    omega
  · -- the semaphore was made with no permit, so no wait gets through
    show s.getConnection thread = none
    unfold getConnection
    rw [hcall]
    dsimp only
    rw [waited, Sem.wait_zero hsem]
    rfl

/-- Two clients and the query of the start, for a pool of three connections. -/
def threeCalls : List (Label Nat) :=
  [.initSqlResult 0, .next 0, .getConnection 1, .getConnection 2, .next 2, .next 1]

theorem never_conserved_three :
    ∃ s, exec step (init 3 new) threeCalls = some s ∧ s.call 0 = .waiting .initSqlResult ∧
      (¬ ∀ js, js <+: threeCalls → ∀ t, exec step (init 3 new) js = some t → t.Idle →
        t.Conserved 3) ∧
      s.sem.value = 0 ∧ (s.connList ≠ [] → ¬ s.Conserved 3) ∧
      ∀ thread caller, s.call thread = .waiting caller → s.step (.next thread) = none :=
  ⟨_, rfl, rfl, never_conserved (by decide)
    (show exec step (init 3 new) threeCalls = _ from rfl)⟩

/-- One connection, no call in progress, and a `getConnection` that does not return. -/
theorem free_connection_blocks :
    (init 1 (new : SqlConnectionPool Nat)).Idle ∧
      ¬ (init 1 (new : SqlConnectionPool Nat)).Conserved 1 ∧
      ∃ s, exec step (init 1 new) [.getConnection 0, .next 0] = some s ∧
        s.FreeConn = 1 ∧ s.step (.next 0) = none := by
  exact ⟨fun _ => rfl, not_conserved rfl (by decide), _, rfl, rfl, rfl⟩

end Semaphore

end SqlConnectionPool

end HttpWebserver
