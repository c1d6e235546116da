import HttpWebserver.HttpConnection.ParseRequest
import HttpWebserver.LFUCache.LFUCache

/-!
# HttpConnection — answering a request

The model of `doRequest` in `HttpConnection/HttpConnection.cc`, and the handlers of the
connection put together.

* `World` is what connections share: the cache behind `cache_` and the users table of the pool
  behind `sqlPool_`. `Site` is what the operating system and the database answer.
* The names and passwords of a form are copied into strings of 200 bytes each; an access behind
  the end of one is `none`. So is a mapping that fails, and one without a NUL, because
  `fileAddress_` is assigned as a C string.
* The writes to `url_` go through the pointer, so the page is chosen by the bytes that stand in
  the buffer then.

`doRequest_spec` says what a call can change.
-/

namespace HttpWebserver

open CString

structure World where
  cache : Lfu.LFUCache
  users : Finmap fun _ : List UInt8 => List UInt8

/-- The outcomes of `stat`, of mapping a file (its bytes, with what follows them in the last
page), and of a query. -/
structure Site where
  rt : Lfu.Runtime
  stat : List UInt8 → Option FileStat
  mmap : List UInt8 → Option (List UInt8)
  query : List UInt8 → Int

namespace HttpConnection

/-- The size of `name` and `password`. -/
def formFieldSize : Nat := 200

/-- Copies `p[i], p[i + 1], …` up to the byte `stop` into an array with `room` bytes left, and
says where `stop` is. -/
def copyUntil (c : HttpConnection) (p : Ptr) (stop : UInt8) :
    Nat → Nat → Option (List UInt8 × Nat)
  | room, i => do
    let x ← c.charAt p i
    if x = stop then
      some ([], i)
    else match room with
      | 0 => none
      | room + 1 => do
        let (rest, j) ← c.copyUntil p stop room (i + 1)
        some (x :: rest, j)

/-- A string of 200 bytes that begins with `s`. -/
def formField (s : List UInt8) : List UInt8 :=
  s ++ List.replicate (formFieldSize - s.length) 0

/-- The two decoding loops: `name` and `password`. -/
def decodeForm (c : HttpConnection) : Option (List UInt8 × List UInt8) := do
  let (name, i) ← c.copyUntil c.string 38 formFieldSize 5
  let (password, _) ← c.copyUntil c.string 0 formFieldSize (i + 10)
  some (formField name, formField password)

def sqlInsert (name password : List UInt8) : List UInt8 :=
  ascii "INSERT INTO user(username, passwd) VALUES(" ++ ascii "'" ++ name ++ ascii "', '" ++
    password ++ ascii "')"

/-- The branch of a registration: the world, and the page to show. -/
def register (site : Site) (w : World) (name password : List UInt8) : World × List UInt8 :=
  if w.users.lookup name = none then
    -- the statement is passed as a C string
    let res := site.query ((sqlInsert name password).takeWhile (· ≠ 0))
    let w := { w with users := w.users.insert name password }
    if res = 0 then (w, ascii "/log.html") else (w, ascii "/registerError.html")
  else
    (w, ascii "/registerError.html")

/-- The branch of a login: the page to show. -/
def login (w : World) (name password : List UInt8) : List UInt8 :=
  if w.users.lookup name = some password then ascii "/welcome.html" else ascii "/logError.html"

/-- The world and the page after a form, by the byte behind the last `/` of the url. -/
def formPage (site : Site) (w : World) (choice : UInt8) (name password : List UInt8) :
    World × List UInt8 :=
  if choice = 51 then register site w name password else (w, login w name password)

/-- The form is decoded, and its page takes the place of the url. -/
def answerForm (site : Site) (w : World) (c : HttpConnection) (p : Ptr) :
    Option (World × HttpConnection) := do
  let (name, password) ← c.decodeForm
  let choice ← c.charAt p 1
  let c ← c.writing c.url (strcpy · · (formPage site w choice name password).2)
  some ((formPage site w choice name password).1, c)

/-- The block on `cgi_`, where the url's last component begins with `'2'` or `'3'`. -/
def doCgi (site : Site) (w : World) (c : HttpConnection) (p : Ptr) :
    Option (World × HttpConnection) := do
  let _ ← c.charAt c.url 1
  let rest ← c.deref (c.url.add 2)
  answerForm site w { c with realFile := c.realFile ++ slash :: rest } p

/-- What is appended to `realFile_` for the byte behind the last `/` of the url. -/
def page (c : HttpConnection) (choice : UInt8) : Option (List UInt8) :=
  if choice = 48 then some (ascii "/register.html")
  else if choice = 49 then some (ascii "/log.html")
  else if choice = 53 then some (ascii "/picture.html")
  else if choice = 54 then some (ascii "/video.html")
  else if choice = 55 then some (ascii "/fans.html")
  else c.deref c.url

/-- The end of `doRequest`: a file that may be read, from the cache or mapped. -/
def loadFile (site : Site) (w : World) (c : HttpConnection) :
    Option (World × HttpConnection × HttpCode) := do
  let (cache, found, fileAddress) ← w.cache.get site.rt c.realFile c.fileAddress
  let w := { w with cache := cache }
  let c := { c with fileAddress := fileAddress }
  if found then
    some (w, c, .FILE_REQUEST)
  else do
    let mapping ← site.mmap c.realFile
    let content ← cString mapping 0
    let cache ← w.cache.set site.rt c.realFile content
    some ({ w with cache := cache }, { c with fileAddress := content }, .FILE_REQUEST)

/-- The end of `doRequest`, from the call of `stat` on. -/
def resolveFile (site : Site) (w : World) (c : HttpConnection) :
    Option (World × HttpConnection × HttpCode) :=
  match site.stat c.realFile with
  | none => some (w, c, .NO_RESOURCE)
  | some st =>
    let c := { c with fileStat := st }
    if st.st_mode &&& S_IROTH = 0 then some (w, c, .FORBIDDEN_REQUEST)
    else if S_ISDIR st.st_mode then some (w, c, .BAD_REQUEST)
    else loadFile site w c

/-- `doRequest` behind its first statement. -/
def resolveUrl (site : Site) (w : World) (c : HttpConnection) :
    Option (World × HttpConnection × HttpCode) := do
  let p ← c.search c.url (strrchr · · slash)
  let choice ← c.charAt p 1
  let (w, c) ← (if c.cgi = 1 ∧ (choice = 50 ∨ choice = 51) then doCgi site w c p
    else some (w, c))
  -- the block may have written over the byte behind the slash
  let choice ← c.charAt p 1
  let file ← c.page choice
  resolveFile site w { c with realFile := c.realFile ++ file }

def doRequest (site : Site) (w : World) (c : HttpConnection) :
    Option (World × HttpConnection × HttpCode) :=
  resolveUrl site w { c with realFile := c.realFile ++ c.docRoot }

def handlers (site : Site) : Handlers World where
  parseRequestLine := parseRequestLine
  parseHeaders := parseHeaders
  parseContent := parseContent
  doRequest := doRequest site

/-! ## What `doRequest` changes

`realFile_` is only appended to, and nothing before the call of `stat` reads it: what is done
until then is the same for every path. -/

section Specs

open PartialRules

variable {c : HttpConnection}

theorem setStorage_withRealFile (c : HttpConnection) (p : Ptr) (mem path : List UInt8) :
    { c with realFile := path }.setStorage p mem
      = { c.setStorage p mem with realFile := path } := by
  cases p <;> rfl

theorem copyUntil_congr {d : HttpConnection} {p q : Ptr} (h : ∀ i, c.charAt p i = d.charAt q i)
    (stop : UInt8) (room i : Nat) : c.copyUntil p stop room i = d.copyUntil q stop room i := by
  induction room generalizing i with
  | zero => rw [copyUntil, copyUntil, h]
  | succ room ih =>
    rw [copyUntil, copyUntil, h]
    simp only [ih]

theorem search_withRealFile (c : HttpConnection) (path : List UInt8) (p : Ptr)
    (f : List UInt8 → Nat → Option (Option Nat)) :
    { c with realFile := path }.search p f = c.search p f := by
  cases p <;> rfl

theorem charAt_withRealFile (c : HttpConnection) (path : List UInt8) (p : Ptr) (i : Nat) :
    { c with realFile := path }.charAt p i = c.charAt p i := by
  cases p <;> rfl

theorem deref_withRealFile (c : HttpConnection) (path : List UInt8) (p : Ptr) :
    { c with realFile := path }.deref p = c.deref p := by
  cases p <;> rfl

theorem page_withRealFile (c : HttpConnection) (path : List UInt8) (choice : UInt8) :
    { c with realFile := path }.page choice = c.page choice := by
  unfold page
  rw [deref_withRealFile]

/-- The form does not depend on the path. -/
theorem decodeForm_withRealFile (c : HttpConnection) (path : List UInt8) :
    { c with realFile := path }.decodeForm = c.decodeForm := by
  unfold decodeForm
  simp only [copyUntil_congr (charAt_withRealFile c path c.string)]

theorem loadFile_spec (site : Site) (w : World) (c : HttpConnection) :
    Ensures (fun r => ∃ file, r.2.1 = { c with fileAddress := file }) (loadFile site w c) := by
  unfold loadFile
  refine ensures_bind_eq fun ⟨cache, found, fileAddress⟩ _ => ?_
  refine ensures_ite (fun _ => ensures_some ⟨_, rfl⟩) fun _ => ?_
  exact ensures_bind_eq fun mapping _ => ensures_bind_eq fun content _ =>
    ensures_bind_eq fun cache' _ => ensures_some ⟨_, rfl⟩

theorem resolveFile_spec (site : Site) (w : World) (c : HttpConnection) :
    Ensures (fun r => ∃ st file, r.2.1 = { c with fileStat := st, fileAddress := file })
      (resolveFile site w c) := by
  unfold resolveFile
  cases site.stat c.realFile with
  | none => exact ensures_some ⟨c.fileStat, c.fileAddress, rfl⟩
  | some st =>
    refine ensures_ite (fun _ => ensures_some ⟨st, c.fileAddress, rfl⟩) fun _ => ?_
    refine ensures_ite (fun _ => ensures_some ⟨st, c.fileAddress, rfl⟩) fun _ => ?_
    exact ensures_mono (loadFile_spec site w _) fun r ⟨file, h⟩ => ⟨st, file, h⟩

theorem formPage_cache (site : Site) (w : World) (choice : UInt8) (name password : List UInt8) :
    (formPage site w choice name password).1.cache = w.cache := by
  unfold formPage register
  dsimp only
  split_ifs <;> rfl

/-- A form changes the users, the path and what stands at the url. -/
theorem doCgi_spec (site : Site) (w : World) (c : HttpConnection) (p : Ptr) :
    Ensures (fun r => r.1.cache = w.cache ∧ ∃ mem path, path ≠ [] ∧
        r.2 = { c.setStorage c.url mem with realFile := c.realFile ++ path })
      (doCgi site w c p) := by
  unfold doCgi answerForm
  refine ensures_bind_eq fun _ _ => ensures_bind_eq fun rest _ => ?_
  refine ensures_bind_eq fun ⟨name, password⟩ _ => ensures_bind_eq fun choice _ => ?_
  refine ensures_bind (writing_spec _ _ _) fun d ⟨mem, hd⟩ => ensures_some ⟨?_, mem, ?_⟩
  · exact formPage_cache site w choice name password
  · refine ⟨slash :: rest, List.cons_ne_nil _ _, ?_⟩
    rw [hd, setStorage_withRealFile]

/-- The page is never empty where the url has a slash. -/
theorem page_ne_nil {q : Ptr} {choice x : UInt8}
    (hq : c.search c.url (strrchr · · slash) = some q) (hx : c.charAt q 1 = some x) :
    Ensures (· ≠ []) (c.page choice) := by
  unfold page
  refine ensures_ite (fun _ => ensures_some (by decide)) fun _ => ?_
  refine ensures_ite (fun _ => ensures_some (by decide)) fun _ => ?_
  refine ensures_ite (fun _ => ensures_some (by decide)) fun _ => ?_
  refine ensures_ite (fun _ => ensures_some (by decide)) fun _ => ?_
  refine ensures_ite (fun _ => ensures_some (by decide)) fun _ => ?_
  intro file hfile
  obtain ⟨mem, hmem, hq⟩ := Option.bind_eq_some_iff.mp hq
  obtain ⟨found, hfound, hq⟩ := Option.bind_eq_some_iff.mp hq
  cases hq
  cases found with
  | none =>
    -- a null pointer has no byte behind it
    cases hx
  | some pos =>
    obtain ⟨s, hs, hne⟩ := cString_of_strrchr hfound
    have hsame : c.deref c.url = cString mem c.url.off := by
      revert hmem
      cases c.url with
      | null => intro hmem; cases hmem
      | input off => intro hmem; cases hmem; rfl
      | output off => intro hmem; cases hmem; rfl
    rw [hsame, hs] at hfile
    cases hfile
    exact hne

/-- The path gets longer, the file is looked up, and a form writes at the url; no other member
changes. -/
theorem doRequest_spec (site : Site) (w : World) (c : HttpConnection) :
    Ensures (fun r => ∃ mem path st file, path ≠ [] ∧
        r.2.1 = { c.setStorage c.url mem with
          realFile := c.realFile ++ path, fileStat := st, fileAddress := file })
      (doRequest site w c) := by
  unfold doRequest resolveUrl
  refine ensures_bind_eq fun q hq => ensures_bind_eq fun choice hchoice => ?_
  refine ensures_bind_eq fun ⟨w₁, c₁⟩ hcgi => ensures_bind_eq fun choice' _ => ?_
  refine ensures_bind_eq fun page hpage => ?_
  refine ensures_mono (resolveFile_spec site w₁ _) fun r ⟨st, file, hr⟩ => ?_
  dsimp only at hcgi hpage hr
  split at hcgi
  · -- the block on `cgi_` has run
    obtain ⟨-, mem, path, hne, hd⟩ := doCgi_spec _ _ _ _ _ hcgi
    dsimp only at hd
    subst hd
    refine ⟨mem, c.docRoot ++ (path ++ page), st, file, fun h => hne ?_, ?_⟩
    · exact (List.append_eq_nil_iff.mp (List.append_eq_nil_iff.mp h).2).1
    · rw [hr, setStorage_withRealFile]
      simp only [List.append_assoc]
  · cases hcgi
    have hne := page_ne_nil hq hchoice page hpage
    refine ⟨(c.storage c.url).getD [], c.docRoot ++ page, st, file,
      fun h => hne (List.append_eq_nil_iff.mp h).2, ?_⟩
    rw [hr, setStorage_storage, ← List.append_assoc]

end Specs

/-! ## A site and a world for the runs on fixed inputs -/

/-- Nothing can be opened. -/
def sampleSite : Site where
  rt := { keys := .behind _, freqs := .behind _, inc := (· + 1) }
  stat _ := none
  mmap _ := none
  query _ := 0

/-- An empty cache, as it is constructed, and no users. -/
def sampleWorld : World where
  cache := {
    dummyHead := some 1
    capacity := 10
    kmap := ∅
    fmap := ∅
    keyHeap := .insert 1 ⟨default, none, none⟩ ∅
    freqHeap := .insert 1 ⟨{ freq := 0, dummyHead := some 1, tail := some 1 }, none, none⟩ ∅ }
  users := ∅

example : Lfu.LFUCache.new sampleSite.rt 10 = some sampleWorld.cache := rfl

end HttpConnection

end HttpWebserver
