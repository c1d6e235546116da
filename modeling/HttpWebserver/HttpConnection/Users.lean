import HttpWebserver.HttpConnection.DoRequest
import HttpWebserver.Lib.Machine

/-!
# HttpConnection — the users table and the database

A registration looks for the name in the users table, sends an `INSERT` and enters the pair into
the table. The result of the `INSERT` chooses the page only.

The name and the password are those of the form as the branch has them (`decodeForm`): strings of
200 bytes, padded with NULs. These are looked up and entered into the table, while the `INSERT` is
read as a C string, which ends at the first NUL.

* `Agrees`: the table has the pair exactly when the `INSERT` succeeded, and is as it was before,
  with the name free for another try, when it failed;
* **`registration_agrees_iff`** — it does so exactly when the `INSERT` succeeds.

Between the two accesses to the table the branch does not have the mutex. `Registrations` is the
table with threads that are between them.

* `Once`: no name was sent twice, and the table has what was sent;
* **`registered_once_iff`** — in all states of a run, exactly when every `INSERT` is sent for a
  name that the table still does not have.
-/

namespace HttpWebserver

open CString Machine PartialRules

namespace HttpConnection

/-! ## One registration -/

/-- The statement as `mysql_query` reads it, a C string. -/
def insertStatement (name password : List UInt8) : List UInt8 :=
  (sqlInsert name password).takeWhile (· ≠ 0)

/-- A registration of the name is left to the database: the `INSERT` decides the page. -/
def LeftToQuery (w : World) (name : List UInt8) : Prop :=
  ∀ (site : Site) (password : List UInt8), (register site w name password).2 =
    if site.query (insertStatement name password) = 0 then ascii "/log.html"
    else ascii "/registerError.html"

/-- The table agrees with the database behind a registration. -/
structure Agrees (site : Site) (w : World) (name password : List UInt8) (w' : World) : Prop where
  added : w'.users.lookup name = some password ↔ site.query (insertStatement name password) = 0
  failed : site.query (insertStatement name password) ≠ 0 →
    w'.users = w.users ∧ LeftToQuery w' name

/-- `doRequest` gets to the branch of a registration, with this form. -/
structure Registers (c : HttpConnection) (name password : List UInt8) : Prop where
  cgi : c.cgi = 1
  choice : ∃ p, c.search c.url (strrchr · · slash) = some p ∧ c.charAt p 1 = some 51
  form : c.decodeForm = some (name, password)

section Registration

variable {site : Site} {w w' : World} {c c' : HttpConnection} {name password : List UInt8}
  {ret : HttpCode}

theorem register_absent (habsent : w.users.lookup name = none) :
    register site w name password = ({ w with users := w.users.insert name password },
      if site.query (insertStatement name password) = 0 then ascii "/log.html"
      else ascii "/registerError.html") := by
  unfold register
  rw [if_pos habsent]
  dsimp only
  by_cases hres : site.query (insertStatement name password) = 0
  · rw [if_pos hres]
    exact if_pos hres
  · rw [if_neg hres]
    exact if_neg hres

/-- The pair is entered, whatever the query returns. -/
theorem register_lookup (site : Site) (password : List UInt8)
    (habsent : w.users.lookup name = none) :
    (register site w name password).1.users.lookup name = some password := by
  rw [register_absent habsent]
  exact Finmap.lookup_insert _

theorem register_agrees_iff (habsent : w.users.lookup name = none) :
    Agrees site w name password (register site w name password).1 ↔
      site.query (insertStatement name password) = 0 := by
  have hentered := register_lookup site password habsent
  constructor
  · intro h
    exact h.added.mp hentered
  · intro hres
    exact ⟨iff_of_true hentered hres, fun hfail => absurd hres hfail⟩

theorem loadFile_users (site : Site) (w : World) (c : HttpConnection) :
    Ensures (fun r => r.1.users = w.users) (loadFile site w c) := by
  unfold loadFile
  refine ensures_bind_eq fun ⟨cache, found, fileAddress⟩ _ => ?_
  refine ensures_ite (fun _ => ensures_some rfl) fun _ => ?_
  exact ensures_bind_eq fun mapping _ => ensures_bind_eq fun content _ =>
    ensures_bind_eq fun cache' _ => ensures_some rfl

theorem resolveFile_users (site : Site) (w : World) (c : HttpConnection) :
    Ensures (fun r => r.1.users = w.users) (resolveFile site w c) := by
  unfold resolveFile
  cases site.stat c.realFile with
  | none => exact ensures_some rfl
  | some st =>
    refine ensures_ite (fun _ => ensures_some rfl) fun _ => ?_
    exact ensures_ite (fun _ => ensures_some rfl) fun _ => loadFile_users site w _

/-- What `doRequest` makes of the table where it gets to a registration. -/
theorem doRequest_registers (h : Registers c name password)
    (hrun : doRequest site w c = some (w', c', ret)) :
    w'.users = (register site w name password).1.users := by
  obtain ⟨hcgi, ⟨p, hp, hchoice⟩, hform⟩ := h
  obtain ⟨q, hq, hrun⟩ := Option.bind_eq_some_iff.mp hrun
  rw [search_withRealFile] at hq
  cases hp.symm.trans hq
  obtain ⟨x, hx, hrun⟩ := Option.bind_eq_some_iff.mp hrun
  rw [charAt_withRealFile] at hx
  cases hchoice.symm.trans hx
  obtain ⟨⟨w₁, c₁⟩, hblock, hrun⟩ := Option.bind_eq_some_iff.mp hrun
  obtain ⟨y, -, hrun⟩ := Option.bind_eq_some_iff.mp hrun
  obtain ⟨file, -, hrun⟩ := Option.bind_eq_some_iff.mp hrun
  have husers : w'.users = w₁.users := resolveFile_users site w₁ _ _ hrun
  rw [husers]
  -- the block on `cgi_`, where the byte behind the last slash is `'3'`
  rw [if_pos ⟨hcgi, .inr rfl⟩] at hblock
  obtain ⟨_, -, hblock⟩ := Option.bind_eq_some_iff.mp hblock
  obtain ⟨rest, -, hblock⟩ := Option.bind_eq_some_iff.mp hblock
  obtain ⟨⟨name', password'⟩, hdecode, hblock⟩ := Option.bind_eq_some_iff.mp hblock
  rw [decodeForm_withRealFile, decodeForm_withRealFile] at hdecode
  cases hform.symm.trans hdecode
  obtain ⟨z, hz, hblock⟩ := Option.bind_eq_some_iff.mp hblock
  rw [charAt_withRealFile, charAt_withRealFile] at hz
  cases hchoice.symm.trans hz
  obtain ⟨d, -, hblock⟩ := Option.bind_eq_some_iff.mp hblock
  cases hblock
  rw [formPage, if_pos rfl]

/-- **The table and the database.** For every table without the name and every result of the
query: behind a registration the table agrees with the database if and only if the `INSERT`
succeeded, and the table that it leaves is the one that `doRequest` leaves. -/
theorem registration_agrees_iff (site : Site) (password : List UInt8)
    (habsent : w.users.lookup name = none) :
    (Agrees site w name password (register site w name password).1 ↔
      site.query (insertStatement name password) = 0) ∧
    ∀ c w' c' ret, Registers c name password → doRequest site w c = some (w', c', ret) →
      w'.users = (register site w name password).1.users :=
  ⟨register_agrees_iff habsent, fun _ _ _ _ h hrun => doRequest_registers h hrun⟩

/-- The form of a registration, and a url with room for the page. -/
def registering : HttpConnection :=
  { passedOver (ascii "/3" ++ List.replicate 20 0 ++ ascii "user=a&password=b" ++ [0]) with
    url := .input 8
    string := .input 30
    cgi := 1 }

/-- A site whose database answers every query with `res`. -/
def answering (res : Int) : Site := { sampleSite with query := fun _ => res }

theorem registering_registers : Registers registering (formField [97]) (formField [98]) :=
  ⟨rfl, ⟨.input 8, by decide +kernel, by decide +kernel⟩, by decide +kernel⟩

/-- A registration that the database accepts. -/
theorem registration_agrees_iff_accepted :
    ∃ r, doRequest (answering 0) sampleWorld registering = some r ∧
      Agrees (answering 0) sampleWorld (formField [97]) (formField [98]) r.1 := by
  have hdone : (doRequest (answering 0) sampleWorld registering).isSome := by decide +kernel
  obtain ⟨⟨w, c, ret⟩, hrun⟩ := Option.isSome_iff_exists.mp hdone
  have habsent : sampleWorld.users.lookup (formField [97]) = none := Finmap.lookup_empty _
  obtain ⟨hagrees, husers⟩ := registration_agrees_iff (answering 0) (formField [98]) habsent
  have hw := husers _ w c ret registering_registers hrun
  obtain ⟨hadded, hfailed⟩ := hagrees.mpr rfl
  refine ⟨_, hrun, ?_, fun hfail => absurd rfl hfail⟩
  rw [hw]
  exact hadded

/-- The `INSERT` fails, the page is `registerError.html`, and the table has the pair. -/
theorem entered_without_insert :
    ∃ w c ret, doRequest (answering 1) sampleWorld registering = some (w, c, ret) ∧
      c.deref c.url = some (ascii "/registerError.html") ∧
      w.users.lookup (formField [97]) = some (formField [98]) ∧
      ¬ Agrees (answering 1) sampleWorld (formField [97]) (formField [98]) w := by
  have hdone : (doRequest (answering 1) sampleWorld registering).map
      (fun r => r.2.1.deref r.2.1.url) = some (some (ascii "/registerError.html")) := by
    decide +kernel
  obtain ⟨⟨w, c, ret⟩, hrun, hpage⟩ := Option.map_eq_some_iff.mp hdone
  have habsent : sampleWorld.users.lookup (formField [97]) = none := Finmap.lookup_empty _
  have hentered : w.users.lookup (formField [97]) = some (formField [98]) := by
    rw [doRequest_registers registering_registers hrun]
    exact register_lookup _ _ habsent
  refine ⟨w, c, ret, hrun, hpage, hentered, fun h => ?_⟩
  exact absurd (h.added.mp hentered) (by decide)

end Registration

end HttpConnection

/-! ## Registrations of several threads

The test for the name is made without the lock. Two threads can find the same name absent, and
both go on. -/

/-- The users table with threads that register, with the padded strings of their forms, each
between its test and its locked region while it has a form, the pages chosen last, and the
`INSERT`s that were sent. -/
structure Registrations (T : Type*) where
  users : Finmap fun _ : List UInt8 => List UInt8
  form : T → Option (List UInt8 × List UInt8)
  page : T → List UInt8
  sent : List (List UInt8 × List UInt8)

namespace Registrations

variable {T : Type*} [DecidableEq T]

inductive Label (T : Type*) where
  /-- `users.find(name) == users.end()`. -/
  | test (thread : T) (name password : List UInt8)
  /-- The locked region, where the query returns `res`, and the choice of the page. -/
  | insert (thread : T) (res : Int)

/-- `insert` of the table keeps an entry that is there. -/
def enter (users : Finmap fun _ : List UInt8 => List UInt8) (name password : List UInt8) :
    Finmap fun _ : List UInt8 => List UInt8 :=
  if name ∈ users then users else users.insert name password

def start (users : Finmap fun _ : List UInt8 => List UInt8) : Registrations T where
  users := users
  form _ := none
  page _ := []
  sent := []

def step (s : Registrations T) : Label T → Option (Registrations T)
  | .test thread name password =>
    if s.form thread = none then
      if s.users.lookup name = none then
        some { s with form := Function.update s.form thread (some (name, password)) }
      else some { s with page := Function.update s.page thread (ascii "/registerError.html") }
    else none
  | .insert thread res =>
    match s.form thread with
    | none => none
    | some (name, password) =>
      some {
        users := enter s.users name password
        form := Function.update s.form thread none
        page := Function.update s.page thread
          (if res = 0 then ascii "/log.html" else ascii "/registerError.html")
        sent := s.sent ++ [(name, password)] }

/-- Each name is sent once, and the table has its password. -/
structure Once (s : Registrations T) : Prop where
  once : (s.sent.map Prod.fst).Nodup
  stored : ∀ x ∈ s.sent, s.users.lookup x.1 = some x.2

/-- The `INSERT` is sent for a name that the table does not have. -/
def FindsAbsent (s : Registrations T) (l : Label T) : Prop :=
  ∀ thread res name password, l = .insert thread res → s.form thread = some (name, password) →
    s.users.lookup name = none

/-- A name that a thread has found absent is in the table only where it was sent. -/
structure Sound (s : Registrations T) : Prop extends Once s where
  tested : ∀ thread name password, s.form thread = some (name, password) →
    s.users.lookup name ≠ none → name ∈ s.sent.map Prod.fst

section Runs

variable {s s' : Registrations T} {l : Label T} {ls : List (Label T)} {thread : T}
  {users : Finmap fun _ : List UInt8 => List UInt8} {name password : List UInt8}

theorem enter_absent (h : users.lookup name = none) :
    enter users name password = users.insert name password := by
  refine if_neg fun hmem => ?_
  rw [Finmap.lookup_eq_none] at h
  exact h hmem

/-- The steps of one thread by itself are a call of `register`. -/
theorem exec_register (site : Site) (w : World) (thread : T) :
    ∃ s, exec step (start w.users) (.test thread name password ::
        if w.users.lookup name = none then
          [.insert thread (site.query (HttpConnection.insertStatement name password))]
        else []) = some s ∧
      s.users = (HttpConnection.register site w name password).1.users ∧
      s.page thread = (HttpConnection.register site w name password).2 := by
  by_cases habsent : w.users.lookup name = none
  · rw [if_pos habsent, HttpConnection.register_absent habsent]
    simp [step, start, habsent, enter_absent habsent]
  · rw [if_neg habsent, HttpConnection.register, if_neg habsent]
    simp [step, start, habsent]

omit [DecidableEq T] in
theorem start_sound (users : Finmap fun _ : List UInt8 => List UInt8) :
    (start users : Registrations T).Sound where
  once := List.nodup_nil
  stored := nofun
  tested := nofun

theorem test_sound (h : s.Sound) (habsent : s.users.lookup name = none) :
    Sound { s with form := Function.update s.form thread (some (name, password)) } := by
  refine ⟨⟨h.once, h.stored⟩, fun t n p hform hmem => ?_⟩
  dsimp only at hform hmem
  rcases eq_or_ne t thread with rfl | hne
  · rw [Function.update_self] at hform
    cases hform
    exact absurd habsent hmem
  · rw [Function.update_of_ne hne] at hform
    exact h.tested t n p hform hmem

theorem insert_sound (h : s.Sound) (habsent : s.users.lookup name = none) (page : T → List UInt8) :
    Sound {
      users := enter s.users name password
      form := Function.update s.form thread none
      page := page
      sent := s.sent ++ [(name, password)] } := by
  -- what was sent is in the table, so the name was not sent before
  have hfresh : name ∉ s.sent.map Prod.fst := by
    intro hmem
    obtain ⟨x, hx, rfl⟩ := List.mem_map.mp hmem
    rw [h.stored x hx] at habsent
    cases habsent
  rw [enter_absent habsent]
  refine ⟨⟨?_, fun x hx => ?_⟩, fun t n p hform hmem => ?_⟩
  · rw [List.map_append, List.map_singleton]
    exact List.nodup_append_comm.mp (List.nodup_cons.mpr ⟨hfresh, h.once⟩)
  · -- entries of other names are as they were, and the new one is there
    rcases List.mem_append.mp hx with hold | hnew
    · have hne : x.1 ≠ name := by
        intro heq
        rw [← heq] at hfresh
        exact hfresh (List.mem_map_of_mem hold)
      exact (Finmap.lookup_insert_of_ne _ hne).trans (h.stored x hold)
    · rw [List.mem_singleton.mp hnew]
      exact Finmap.lookup_insert _
  · dsimp only at hform hmem
    rw [List.map_append, List.mem_append]
    rcases eq_or_ne t thread with rfl | hne
    · -- the thread itself has no form any more
      rw [Function.update_self] at hform
      cases hform
    · rw [Function.update_of_ne hne] at hform
      rcases eq_or_ne n name with rfl | hother
      · exact .inr (List.mem_singleton_self _)
      · rw [Finmap.lookup_insert_of_ne _ hother] at hmem
        exact .inl (h.tested t n p hform hmem)

theorem step_sound (h : s.Sound) (habsent : s.FindsAbsent l) (hs : s.step l = some s') :
    s'.Sound := by
  cases l with
  | test thread name password =>
    simp only [step] at hs
    split at hs
    · split at hs
      · next hname =>
        cases hs
        exact test_sound h hname
      · cases hs
        exact ⟨⟨h.once, h.stored⟩, h.tested⟩
    · cases hs
  | insert thread res =>
    simp only [step] at hs
    split at hs
    · cases hs
    · next name password hform =>
      cases hs
      exact insert_sound h (habsent thread res name password rfl hform) _

/-- The name has come in between the test and the `INSERT`, so it was sent before. -/
theorem step_twice (h : s.Sound) (hpresent : ¬ s.FindsAbsent l) (hs : s.step l = some s') :
    ¬ s'.Once := by
  simp only [FindsAbsent, not_forall] at hpresent
  obtain ⟨thread, res, name, password, rfl, hform, hmem⟩ := hpresent
  simp only [step, hform, Option.some.injEq] at hs
  subst hs
  intro honce
  have hnd := honce.once
  simp only [List.map_append, List.map_cons, List.map_nil] at hnd
  have hsent := h.tested thread name password hform hmem
  exact (List.nodup_append.mp hnd).2.2 name hsent name (List.mem_singleton_self _) rfl

/-- **Registered once.** For every users table, any threads, names and passwords, every result of
the queries and every run of tests and inserts: in all states of the run no name was sent in two
`INSERT`s, and the table has the password that was sent, if and only if every `INSERT` of the
run is sent for a name that the table does not have then. -/
theorem registered_once_iff (hrun : exec step (start users) ls = some s) :
    (∀ js, js <+: ls → ∀ t, exec step (start users) js = some t → t.Once) ↔
      Along step FindsAbsent (start users) ls :=
  always_iff_along (I := fun _ t => t.Sound) (start_sound users) (fun _ _ _ h => h.toOnce)
    (fun _ _ _ _ _ h habsent hs => step_sound h habsent hs)
    (fun _ _ _ _ _ h hpresent hs => step_twice h hpresent hs) hrun

/-- One thread after another: the second registration of the name stops at its test. -/
theorem registered_once_iff_in_turn : ∃ s,
    exec step (start (∅ : Finmap fun _ : List UInt8 => List UInt8))
      [.test false [97] [98], .insert false 0, .test true [97] [99]] = some s ∧
    ∀ js, js <+: [Label.test false [97] [98], .insert false 0, .test true [97] [99]] → ∀ t,
      exec step (start ∅) js = some t → t.Once := by
  refine ⟨_, rfl, (registered_once_iff rfl).mpr ?_⟩
  rw [along_cons rfl, along_cons rfl, along_cons rfl]
  refine ⟨nofun, ?_, nofun, trivial⟩
  intro thread res name password hl hform
  cases hl
  cases hform
  rfl

/-- Both threads find the name absent, and both send an `INSERT` for it. -/
theorem registered_twice : ∃ s,
    exec step (start (∅ : Finmap fun _ : List UInt8 => List UInt8))
      [.test false [97] [98], .test true [97] [99], .insert false 0, .insert true 0] = some s ∧
    s.sent = [([97], [98]), ([97], [99])] ∧ s.users.lookup [97] = some [98] ∧ ¬ s.Once := by
  refine ⟨_, rfl, rfl, rfl, fun h => ?_⟩
  exact absurd h.once (by decide)

end Runs

end Registrations

end HttpWebserver
