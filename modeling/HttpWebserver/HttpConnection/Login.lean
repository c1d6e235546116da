import HttpWebserver.HttpConnection.DocRoot
import HttpWebserver.HttpConnection.FormDecoding

/-!
# HttpConnection — the login

A login looks the decoded pair up in the users table, which `initSqlResult` has filled from the
database.

* `initSqlResult`: the table maps a name to the password of its last row.
* `AtLogin`: a connection whose form is `user=U&password=P`, with a url for a login.
* `LogsIn`: the page at `url_` is `/welcome.html` for a pair of the table, and `/logError.html` for
  any other.
* **`login_decides_iff`** — that is so exactly when the table does not map `U` to `P`, and the page
  has room at the url.

The strings from the form have 200 bytes whatever was decoded to them (`formField_length`), and no
string from a row that fits has as many: the lookup never finds one.
-/

namespace HttpWebserver

open CString PartialRules

/-- The loop of `initSqlResult` over the rows of the result, the first time it is called; the
flag and the table. -/
def initSqlResult (isInited : Bool) (users : Finmap fun _ : List UInt8 => List UInt8)
    (rows : List (List UInt8 × List UInt8)) : Bool × Finmap fun _ : List UInt8 => List UInt8 :=
  if isInited then (true, users)
  else (true, rows.foldl (fun users row => users.insert row.1 row.2) users)

namespace HttpConnection

/-- Rows of C strings that the fields of a form have room for. -/
def RowsFit (rows : List (List UInt8 × List UInt8)) : Prop :=
  ∀ row ∈ rows, (0 ∉ row.1 ∧ row.1.length < formFieldSize) ∧
    0 ∉ row.2 ∧ row.2.length < formFieldSize

/-- The form that the offsets of the decoding are those of. -/
def loginForm (user password : List UInt8) : List UInt8 :=
  ascii "user=" ++ (user ++ ascii "&password=" ++ password)

/-- A connection with a login to answer. -/
structure AtLogin (c : HttpConnection) (user password : List UInt8) : Prop where
  cgi : c.cgi = 1
  form : c.deref c.string = some (loginForm user password)
  url : ∃ a b, c.deref c.url = some (a ++ slash :: 50 :: b) ∧ slash ∉ b
  separator : ampersand ∉ user
  userFits : user.length < formFieldSize
  passwordFits : password.length < formFieldSize

/-- The page for a pair. -/
def loginPage (w : World) (user password : List UInt8) : List UInt8 :=
  if w.users.lookup user = some password then ascii "/welcome.html" else ascii "/logError.html"

/-- `url_` becomes the page for the pair, and is that when `doRequest` returns. -/
structure LogsIn (site : Site) (w : World) (c : HttpConnection) (user password : List UInt8) :
    Prop where
  reached : ∃ w' c', buildPath site w c = some (w', c') ∧
    c'.deref c'.url = some (loginPage w user password)
  returned : ∀ w' c' ret, doRequest site w c = some (w', c', ret) →
    c'.deref c'.url = some (loginPage w user password)

/-- The storage that the url is in goes on for a page and its NUL. -/
def RoomAtUrl (c : HttpConnection) (page : List UInt8) : Prop :=
  ∃ mem, c.storage c.url = some mem ∧ c.url.off + (page ++ [0]).length ≤ mem.length

/-! ## The names of the table

A name of the form is a string of 200 bytes, and one of the database is not. -/

section Table

variable {users : Finmap fun _ : List UInt8 => List UInt8} {rows : List (List UInt8 × List UInt8)}
  {name : List UInt8}

/-- The rows of other names leave the entry of a name alone. -/
theorem lookup_rows (hother : ∀ row ∈ rows, row.1 ≠ name) :
    (rows.foldl (fun users row => users.insert row.1 row.2) users).lookup name
      = users.lookup name := by
  induction rows generalizing users with
  | nil => rfl
  | cons row rows ih =>
    obtain ⟨hrow, hrest⟩ := List.forall_mem_cons.mp hother
    rw [List.foldl_cons, ih hrest]
    exact Finmap.lookup_insert_of_ne _ (Ne.symm hrow)

/-- No name of 200 bytes comes from the database. -/
theorem lookup_initSqlResult (hrows : RowsFit rows) (hname : name.length = formFieldSize) :
    (initSqlResult false ∅ rows).2.lookup name = none := by
  have hother : ∀ row ∈ rows, row.1 ≠ name := by
    rintro row hrow rfl
    have hfits := (hrows row hrow).1.2
    omega
  exact (lookup_rows hother).trans (Finmap.lookup_empty _)

/-- The string is constructed with its size, and the loop changes bytes of it. -/
theorem formField_length (h : name.length ≤ formFieldSize) :
    (formField name).length = formFieldSize := by
  rw [formField, List.length_append, List.length_replicate]
  exact Nat.add_sub_cancel' h

end Table

/-! ## The page of a login -/

section Login

variable {site : Site} {w : World} {c : HttpConnection} {user password : List UInt8}
  {rows : List (List UInt8 × List UInt8)}

theorem loginForm_layout (huser : ampersand ∉ user) :
    FormLayout (loginForm user password) user password := by
  refine ⟨huser, ascii "user=", ascii "password=", rfl, rfl, ?_⟩
  rw [loginForm, List.append_assoc]
  rfl

/-- The path of a login: its page is copied to the url. -/
theorem buildPath_login (site : Site) (w : World) (h : AtLogin c user password) : ∃ mem rest,
    c.storage c.url = some mem ∧ (∃ s, cString mem c.url.off = some s) ∧
    buildPath site w c =
      (strcpy mem c.url.off (login w (formField user) (formField password))).map fun mem' =>
        (w, { c.setStorage c.url mem' with
          realFile := (c.realFile ++ c.docRoot) ++ slash ::
            (rest ++ login w (formField user) (formField password)) }) := by
  obtain ⟨a, b, hurl, hb⟩ := h.url
  obtain ⟨mem, hat⟩ := deref_eq_some.mp hurl
  have hdecode := decodeForm_eq h.form (loginForm_layout h.separator) (Nat.le_of_lt h.userFits)
    (Nat.le_of_lt h.passwordFits)
  have hb' : slash ∉ 50 :: b := by
    intro hmem
    rcases List.mem_cons.mp hmem with hslash | hmem
    · exact absurd hslash (by decide)
    · exact hb hmem
  have hchoice : choiceOf (a ++ slash :: 50 :: b) = 50 := choiceOf_eq hb'
  have hat' : StringAt { c with realFile := c.realFile ++ c.docRoot } c.url mem
      (a ++ slash :: 50 :: b) := ⟨hat.storage, hat.string⟩
  refine ⟨mem, (a ++ slash :: 50 :: b).drop 2, hat.storage, ⟨_, hat.string⟩, ?_⟩
  rw [buildPath, buildUrl_form hat' hb' ⟨h.cgi, .inl hchoice⟩, decodeForm_withRealFile, hdecode,
    Option.bind_some, hchoice]
  -- a login leaves the world as it is
  rw [formPage, if_neg (by decide)]
  simp only [setStorage_withRealFile]

/-- Behind `buildPath` the url keeps its string. -/
theorem resolveFile_deref (site : Site) (w : World) (c : HttpConnection) :
    Ensures (fun r => r.2.1.deref r.2.1.url = c.deref c.url) (resolveFile site w c) := by
  refine ensures_mono (resolveFile_spec site w c) fun r ⟨st, file, hr⟩ => ?_
  rw [hr]
  unfold deref
  rfl

/-- **Which logins are decided by the table.** For every table that `initSqlResult` has filled from
rows that fit, every name without a `&` and every password, each of fewer than 200 bytes, and
every url for a login: the page is the one for the pair if and only if the table does not map the
name to the password, and the storage has room for the page. -/
theorem login_decides_iff (site : Site) (hrows : RowsFit rows)
    (husers : w.users = (initSqlResult false ∅ rows).2) (h : AtLogin c user password) :
    LogsIn site w c user password ↔
      w.users.lookup user ≠ some password ∧ RoomAtUrl c (ascii "/logError.html") := by
  obtain ⟨mem, rest, hmem, ⟨s, hs⟩, hpath⟩ := buildPath_login site w h
  -- the decoded name is not in the table
  have hlogin : login w (formField user) (formField password) = ascii "/logError.html" := by
    rw [login, husers, lookup_initSqlResult hrows (formField_length (Nat.le_of_lt h.userFits))]
    rfl
  rw [hlogin] at hpath
  have hdone : ∀ w' c', buildPath site w c = some (w', c') →
      RoomAtUrl c (ascii "/logError.html") ∧ c'.deref c'.url = some (ascii "/logError.html") := by
    intro w' c' hbuilt
    rw [hpath] at hbuilt
    obtain ⟨mem', hcopy, hc'⟩ := Option.map_eq_some_iff.mp hbuilt
    cases hc'
    refine ⟨⟨mem, hmem, (strcpy_eq_some_iff.mp hcopy).1⟩, ?_⟩
    obtain ⟨mem₂, hat⟩ := deref_eq_some.mp
      (copied_page ⟨hmem, hs⟩ (by decide : 0 ∉ ascii "/logError.html") hcopy)
    show deref _ (c.setStorage c.url mem').url = _
    rw [setStorage_url]
    exact deref_eq_some.mpr ⟨mem₂, hat.storage, hat.string⟩
  constructor
  · rintro ⟨⟨w', c', hbuilt, hpage⟩, -⟩
    obtain ⟨hroom, hpage'⟩ := hdone w' c' hbuilt
    refine ⟨fun hmapped => ?_, hroom⟩
    rw [hpage', loginPage, if_pos hmapped] at hpage
    exact absurd hpage (by decide)
  · rintro ⟨hother, mem₁, hmem₁, hfits⟩
    cases hmem.symm.trans hmem₁
    have hpage : loginPage w user password = ascii "/logError.html" := if_neg hother
    have hcopy := strcpy_eq_some_iff.mpr ⟨hfits, rfl⟩
    rw [hcopy, Option.map_some] at hpath
    constructor
    · exact ⟨_, _, hpath, by rw [hpage]; exact (hdone _ _ hpath).2⟩
    · intro w' c' ret hrun
      rw [doRequest_eq_buildPath, hpath, Option.bind_some] at hrun
      rw [hpage, resolveFile_deref site _ _ _ hrun]
      exact (hdone _ _ hpath).2

end Login

/-! ## One pair -/

/-- The login of `a` with the password `b`, and a url with room for the page. -/
def loggingIn : HttpConnection := formAt "" "/2" "user=a&password=b"

/-- The table of a database with these rows. -/
def fetched (rows : List (List UInt8 × List UInt8)) : World :=
  { sampleWorld with users := (initSqlResult false ∅ rows).2 }

theorem loggingIn_atLogin : AtLogin loggingIn (ascii "a") (ascii "b") where
  cgi := rfl
  form := by decide +kernel
  url := ⟨[], [], by decide +kernel, by decide⟩
  separator := by decide
  userFits := by decide
  passwordFits := by decide

/-- A name that is not in the table. -/
theorem login_decides_iff_unknown :
    LogsIn sampleSite (fetched []) loggingIn (ascii "a") (ascii "b") := by
  have hunknown : (fetched []).users.lookup (ascii "a") ≠ some (ascii "b") := by
    rw [show (fetched []).users.lookup (ascii "a") = none from Finmap.lookup_empty _]
    nofun
  exact (login_decides_iff sampleSite (show RowsFit [] from nofun) rfl loggingIn_atLogin).mpr
    ⟨hunknown, _, rfl, by decide +kernel⟩

/-- The pair is in the table, and the page is `/logError.html`. -/
theorem registered_user_rejected :
    (fetched [(ascii "a", ascii "b")]).users.lookup (ascii "a") = some (ascii "b") ∧
      ¬ LogsIn sampleSite (fetched [(ascii "a", ascii "b")]) loggingIn (ascii "a") (ascii "b") := by
  have hmapped : (fetched [(ascii "a", ascii "b")]).users.lookup (ascii "a")
      = some (ascii "b") := by
    show ((∅ : Finmap fun _ : List UInt8 => List UInt8).insert (ascii "a") (ascii "b")).lookup
      (ascii "a") = some (ascii "b")
    exact Finmap.lookup_insert _
  have hpage : (buildPath sampleSite (fetched [(ascii "a", ascii "b")]) loggingIn).map
      (fun r => r.2.deref r.2.url) = some (some (ascii "/logError.html")) := by
    decide +kernel
  refine ⟨hmapped, fun h => ?_⟩
  obtain ⟨w', c', hbuilt, hwelcome⟩ := h.reached
  rw [hbuilt, Option.map_some, hwelcome, loginPage, if_pos hmapped] at hpage
  exact absurd hpage (by decide)

end HttpConnection

end HttpWebserver
