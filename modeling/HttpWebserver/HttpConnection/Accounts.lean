import HttpWebserver.HttpConnection.Users

/-!
# HttpConnection — accounts

The users table is shared by the registrations and the logins of all connections. The name is looked
up before the mutex is taken, so two registrations of a name may both get to their `INSERT`, but
`insert` of the table keeps an entry that is there.

Names and passwords are the strings of the form that the branch works on: what `decodeForm` makes
of the two arrays, all 200 bytes of each, padded with NULs. The rows of the database are not padded,
so a name among them is none that a form brings. The labels of a run take any byte strings.

* `firstPassword`: what the table was loaded with, or else the password that was sent first;
* **`first_password_counts`** — in every run of any threads the table has this password for each
  name, whatever the queries return; it is never changed, and a login succeeds with it only.
-/

namespace HttpWebserver

open CString Machine

namespace Accounts

abbrev Table := Finmap fun _ : List UInt8 => List UInt8

inductive Label (T : Type*) where
  | registration (l : Registrations.Label T)
  /-- The branch of a login. -/
  | login (thread : T) (name password : List UInt8)

variable {T : Type*} [DecidableEq T]

def page (users : Table) (name password : List UInt8) : List UInt8 :=
  if users.lookup name = some password then ascii "/welcome.html" else ascii "/logError.html"

def step (s : Registrations T) : Label T → Option (Registrations T)
  | .registration l => s.step l
  | .login thread name password =>
    if s.form thread = none then
      some { s with page := Function.update s.page thread (page s.users name password) }
    else none

/-- The first of the passwords that the name was given. -/
def firstPassword (users : Table) (sent : List (List UInt8 × List UInt8)) (name : List UInt8) :
    Option (List UInt8) :=
  (users.lookup name).or ((sent.find? fun x => x.1 = name).map Prod.snd)

/-- The step, if it is a login, shows the page of the user for the first password of the name, and
for no other. -/
def DecidesLogin (users : Table) (s : Registrations T) (l : Label T) : Prop :=
  ∀ thread name password, l = .login thread name password → ∀ s', step s l = some s' →
    (s'.page thread = ascii "/welcome.html" ↔ firstPassword users s.sent name = some password)

section Runs

variable {users : Table} {s s' : Registrations T} {l : Label T} {ls js : List (Label T)}
  {sent : List (List UInt8 × List UInt8)} {name password : List UInt8}

/-- The branch of a login in `doRequest`. -/
theorem page_eq_login (w : World) :
    page w.users name password = HttpConnection.login w name password :=
  rfl

theorem page_welcome_iff :
    page users name password = ascii "/welcome.html" ↔ users.lookup name = some password := by
  unfold page
  split
  · next h => exact iff_of_true rfl h
  · next h => exact iff_of_false (by decide) h

theorem firstPassword_append (sent' : List (List UInt8 × List UInt8)) :
    firstPassword users (sent ++ sent') name =
      (firstPassword users sent name).or ((sent'.find? fun x => x.1 = name).map Prod.snd) := by
  rw [firstPassword, firstPassword, List.find?_append, Option.map_or, Option.or_assoc]

/-- A password that counts is not replaced by one that is sent later. -/
theorem firstPassword_stays (h : firstPassword users sent name = some password)
    (sent' : List (List UInt8 × List UInt8)) :
    firstPassword users (sent ++ sent') name = some password := by
  rw [firstPassword_append, h, Option.some_or]

theorem enter_lookup (name' : List UInt8) :
    (Registrations.enter users name password).lookup name' =
      (users.lookup name').or (if name = name' then some password else none) := by
  unfold Registrations.enter
  split
  · next hmem =>
    rcases eq_or_ne name name' with rfl | hne
    · obtain ⟨v, hv⟩ := Option.isSome_iff_exists.mp (Finmap.lookup_isSome.mpr hmem)
      rw [hv, Option.some_or]
    · rw [if_neg hne, Option.or_none]
  · next hmem =>
    rcases eq_or_ne name name' with rfl | hne
    · rw [Finmap.lookup_insert, Finmap.lookup_eq_none.mpr hmem, if_pos rfl, Option.none_or]
    · rw [Finmap.lookup_insert_of_ne _ hne.symm, if_neg hne, Option.or_none]

/-- The table has what counts. -/
def Kept (users : Table) (s : Registrations T) : Prop :=
  ∀ name, s.users.lookup name = firstPassword users s.sent name

/-- Each step sends on, and keeps what counts. -/
theorem step_kept (hk : Kept users s) (hs : step s l = some s') :
    Kept users s' ∧ ∃ sent, s'.sent = s.sent ++ sent := by
  cases l with
  | registration l =>
    cases l with
    | test thread name password =>
      simp only [step, Registrations.step] at hs
      split at hs
      · split at hs
        · -- a test changes nothing in the table
          cases hs
          exact ⟨hk, [], (List.append_nil _).symm⟩
        · cases hs
          exact ⟨hk, [], (List.append_nil _).symm⟩
      · cases hs
    | insert thread res =>
      simp only [step, Registrations.step] at hs
      split at hs
      · cases hs
      · next name password hform =>
        -- an entry that is there stays, so only the first password of a name counts
        cases hs
        refine ⟨fun name' => ?_, [(name, password)], rfl⟩
        show (Registrations.enter s.users name password).lookup name' =
          firstPassword users (s.sent ++ [(name, password)]) name'
        rw [enter_lookup, hk name', firstPassword_append]
        by_cases heq : name = name'
        · simp [heq]
        · simp [heq]
  | login thread name password =>
    simp only [step] at hs
    split at hs
    · cases hs
      exact ⟨hk, [], (List.append_nil _).symm⟩
    · cases hs

theorem run_kept (hk : Kept users s) (hrun : exec step s ls = some s') :
    Kept users s' ∧ ∃ sent, s'.sent = s.sent ++ sent := by
  refine exec_invariant (I := fun t => Kept users t ∧ ∃ sent, t.sent = s.sent ++ sent) ?_
    ⟨hk, [], (List.append_nil _).symm⟩ hrun
  rintro t l t' ⟨hkt, sent, hsent⟩ ht
  obtain ⟨hkt', sent', hsent'⟩ := step_kept hkt ht
  exact ⟨hkt', sent ++ sent', by rw [hsent', hsent, List.append_assoc]⟩

omit [DecidableEq T] in
theorem start_kept (users : Table) : Kept users (Registrations.start users : Registrations T) :=
  fun _ => (Option.or_none).symm

theorem decidesLogin (hk : Kept users s) : DecidesLogin users s l := by
  rintro thread name password rfl s' hs
  simp only [step] at hs
  split at hs
  · cases hs
    show Function.update s.page thread _ thread = _ ↔ _
    rw [Function.update_self, page_welcome_iff, hk name]
  · cases hs

/-- **The first password counts.** For every table, any threads and every run of registrations and
logins, whatever the queries return: the table has for each name the password that it was loaded
with or else the one that was sent first. It is never changed, and every login of the run is
decided by it. -/
theorem first_password_counts (hrun : exec step (Registrations.start users) ls = some s) :
    (∀ name, s.users.lookup name = firstPassword users s.sent name) ∧
    (∀ js, js <+: ls → ∀ t, exec step (Registrations.start users) js = some t →
      ∀ name password, t.users.lookup name = some password →
        s.users.lookup name = some password) ∧
    Along step (DecidesLogin users) (Registrations.start users) ls := by
  have hk := (run_kept (start_kept users) hrun).1
  refine ⟨hk, ?_, ?_⟩
  · rintro js ⟨ks, rfl⟩ t ht name password hlookup
    obtain ⟨u, hu, hrest⟩ := exec_append_eq_some.mp hrun
    cases ht.symm.trans hu
    have hkt := (run_kept (start_kept users) ht).1
    obtain ⟨-, sent, hsent⟩ := run_kept hkt hrest
    rw [hk name, hsent]
    exact firstPassword_stays ((hkt name).symm.trans hlookup) sent
  · refine (along_congr (I := Kept users) (Q := fun _ _ => True)
      (fun _ _ _ hs ht => (step_kept hs ht).1) (fun _ _ hs => ?_) (start_kept users)).mpr along_true
    exact iff_of_true (decidesLogin hs) trivial

/-- Two threads register the same name; the one that is second sees the page of a success. -/
def bothRegister : List (Label Bool) :=
  [.registration (.test false [97] [98]), .registration (.test true [97] [99]),
    .registration (.insert false 0), .registration (.insert true 0), .login true [97] [99]]

theorem first_password_counts_both :
    ∃ s, exec step (Registrations.start (∅ : Table)) bothRegister = some s ∧
      s.page true = ascii "/logError.html" ∧
      (∀ name, s.users.lookup name = firstPassword ∅ s.sent name) ∧
      (∀ js, js <+: bothRegister → ∀ t, exec step (Registrations.start ∅) js = some t →
        ∀ name password, t.users.lookup name = some password →
          s.users.lookup name = some password) ∧
      Along step (DecidesLogin ∅) (Registrations.start ∅) bothRegister :=
  ⟨_, rfl, rfl, first_password_counts rfl⟩

end Runs

end Accounts

end HttpWebserver
