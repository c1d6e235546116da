import HttpWebserver.HttpConnection.KeepAlive
import HttpWebserver.HttpConnection.Write
import HttpWebserver.LFUCache.Refinement
import Mathlib.Data.List.TakeWhile

/-!
# HttpConnection — the file that is served

`doRequest` takes the length of the body from `stat`, now, and the body from a string that was
made when the file was mapped, perhaps for another connection and long ago.

* `Disk` is what the operating system answers during one call: the bytes the files hold then,
  their sizes, and what `mmap` maps of them.
* `Service` is what the calls share, with the `fileAddress_` of every connection and, for each
  path, the bytes its file held when it was mapped last.
* **`served_iff`** — in a run of calls every file is served whole, exactly when each call that
  maps a file finds no NUL in it and a NUL behind it, and each call that finds a file in the
  cache has an empty `fileAddress_`, and a file loaded without a NUL and of the size it has now.

The mapped file is copied as a C string: it ends at the first NUL, which may be one of the
file's own, or outside the last page. `get` appends to what `fileAddress_` holds.
-/

namespace HttpWebserver.HttpConnection

open CString Lfu Machine MachineInt PartialRules Storage
open ReferenceLfu (Cache)

/-! ## Files -/

def pageSize : Nat := 4096

/-- What is mapped for a file: whole pages, with zeros behind its end. An empty file cannot be
mapped. -/
def mapping (bytes : List UInt8) : Option (List UInt8) :=
  if bytes = [] then none
  else some (bytes ++ List.replicate ((pageSize - bytes.length % pageSize) % pageSize) 0)

/-- The answers of the system during a call, and the bytes that the files hold. -/
structure Disk where
  site : Site
  bytes : List UInt8 → List UInt8
  size : ∀ path st, site.stat path = some st → S_ISDIR st.st_mode = false →
    st.st_size = (bytes path).length
  mmap : ∀ path st, site.stat path = some st → S_ISDIR st.st_mode = false →
    site.mmap path = mapping (bytes path)
  off_t : ∀ path, (bytes path).length < 2 ^ 63
  inc : site.rt.inc = (· + 1)

/-- The string made of a file that is mapped. -/
def textOf (bytes : List UInt8) : List UInt8 := bytes.takeWhile (· ≠ 0)

theorem textOf_noNul (bytes : List UInt8) : 0 ∉ textOf bytes := by
  intro h
  have hne := List.mem_takeWhile_imp h
  exact absurd rfl (of_decide_eq_true hne)

theorem textOf_eq_self {bytes : List UInt8} : textOf bytes = bytes ↔ 0 ∉ bytes := by
  constructor
  · intro h
    rw [← h]
    exact textOf_noNul bytes
  · intro h
    refine List.takeWhile_eq_self_iff.mpr fun x hx => decide_eq_true ?_
    rintro rfl
    exact h hx

/-- The C string at a mapping: none where the file fills its pages and has no NUL. -/
theorem cString_mapping {bytes mem : List UInt8} (h : mapping bytes = some mem) :
    cString mem 0
      = if 0 ∈ bytes ∨ ¬ pageSize ∣ bytes.length then some (textOf bytes) else none := by
  unfold mapping at h
  split at h
  · cases h
  · cases h
    -- zeros fill up the last page, unless the file does
    have hpad : (pageSize - bytes.length % pageSize) % pageSize = 0 ↔ pageSize ∣ bytes.length := by
      unfold pageSize
      omega
    split
    · next hnul =>
      rw [cString_of_mem]
      · -- the zeros are not part of the string
        rw [List.takeWhile_append, ← textOf]
        split
        · next hlen =>
          have hself : textOf bytes = bytes :=
            (List.takeWhile_prefix _).eq_of_length hlen
          rw [hself]
          simp
        · rfl
      · rcases hnul with hnul | hnul
        · exact List.mem_append_left _ hnul
        · refine List.mem_append_right _ (List.mem_replicate.mpr ⟨?_, rfl⟩)
          rw [Ne, hpad]
          exact hnul
    · next hnul =>
      -- neither the file nor its padding has a NUL: the string runs out of the mapping
      obtain ⟨hbytes, hdvd⟩ := not_or.mp hnul
      refine cString_of_notMem fun hmem => ?_
      rcases List.mem_append.mp hmem with hmem | hmem
      · exact hbytes hmem
      · exact (List.mem_replicate.mp hmem).1 (hpad.mpr (not_not.mp hdvd))

/-! ## `doRequest` up to the file -/

/-- `doRequest` up to the call of `stat`: the path is in `realFile_`. -/
def locate (site : Site) (w : World) (c : HttpConnection) : Option (World × HttpConnection) := do
  let c := { c with realFile := c.realFile ++ c.docRoot }
  let p ← c.search c.url (strrchr · · slash)
  let choice ← c.charAt p 1
  let (w, c) ← (if c.cgi = 1 ∧ (choice = 50 ∨ choice = 51) then doCgi site w c p
    else some (w, c))
  let choice ← c.charAt p 1
  let file ← c.page choice
  some (w, { c with realFile := c.realFile ++ file })

theorem doRequest_eq (site : Site) (w : World) (c : HttpConnection) :
    doRequest site w c = (locate site w c).bind fun r => resolveFile site r.1 r.2 := by
  simp only [doRequest, resolveUrl, locate, Option.bind_eq_bind, Option.bind_assoc,
    Option.bind_some]

/-- Neither the cache nor `fileAddress_` is touched before the file is looked up. -/
theorem locate_frame (site : Site) (w : World) (c : HttpConnection) :
    Ensures (fun r => r.1.cache = w.cache ∧ r.2.fileAddress = c.fileAddress)
      (locate site w c) := by
  unfold locate
  refine ensures_bind_eq fun q _ => ensures_bind_eq fun choice _ => ?_
  refine ensures_bind (P := fun r => r.1.cache = w.cache ∧ r.2.fileAddress = c.fileAddress)
    (ensures_ite (fun _ => ?_) fun _ => ensures_some ⟨rfl, rfl⟩) fun r hr => ?_
  · refine ensures_mono (doCgi_spec site w _ q) fun r ⟨hcache, mem, path, _, hd⟩ => ⟨hcache, ?_⟩
    rw [hd]
    exact setStorage_fileAddress _ _ _
  · refine ensures_bind_eq fun choice' _ => ensures_bind_eq fun file _ => ?_
    exact ensures_some hr

/-! ## Calls

Calls of `doRequest` on connections that share the cache, with any changes of the files on the
disk in between. -/

/-- What the connections share, the `fileAddress_` of each, and the bytes that the file of a
path held when it was mapped last. -/
structure Service (T : Type*) where
  world : World
  fileAddress : T → List UInt8
  loaded : List UInt8 → Option (List UInt8)

/-- A call of `doRequest`: the connection, its members other than `fileAddress_`, and the
disk. -/
structure Asked (T : Type*) where
  conn : T
  members : HttpConnection
  disk : Disk

/-- The string behind the second iovec is the file: `st_size` bytes, and those it held. -/
structure ServesFile (c : HttpConnection) (bytes : List UInt8) : Prop where
  size : c.fileStat.st_size = c.fileAddress.length
  content : c.fileAddress = bytes
  iovec : c.queueFile.loadBytes c.queueFile.writeVec.2.base c.queueFile.writeVec.2.len
    = some bytes

namespace Service

variable {T : Type*}

def start (w : World) : Service T where
  world := w
  fileAddress _ := []
  loaded _ := none

/-- `get` does not find the path. -/
def Missed (s : Service T) (path : List UInt8) : Prop := s.world.cache.fmap.lookup path = none

instance (s : Service T) (path : List UInt8) : Decidable (s.Missed path) :=
  inferInstanceAs (Decidable (_ = none))

def answer (s : Service T) (l : Asked T) : Option (World × HttpConnection × HttpCode) :=
  doRequest l.disk.site s.world { l.members with fileAddress := s.fileAddress l.conn }

def after [DecidableEq T] (s : Service T) (l : Asked T)
    (r : World × HttpConnection × HttpCode) : Service T where
  world := r.1
  fileAddress := Function.update s.fileAddress l.conn r.2.1.fileAddress
  loaded :=
    if r.2.2 = .FILE_REQUEST ∧ s.Missed r.2.1.realFile then
      Function.update s.loaded r.2.1.realFile (some (l.disk.bytes r.2.1.realFile))
    else s.loaded

def step [DecidableEq T] (s : Service T) (l : Asked T) : Option (Service T) :=
  (s.answer l).map (s.after l)

/-- The call comes to the file of this path, with these members: it may be read. -/
structure Opens (s : Service T) (l : Asked T) (w : World) (c : HttpConnection)
    (st : FileStat) : Prop where
  located : locate l.disk.site s.world { l.members with fileAddress := s.fileAddress l.conn }
    = some (w, c)
  stat : l.disk.site.stat c.realFile = some st
  readable : st.st_mode &&& S_IROTH ≠ 0
  regular : S_ISDIR st.st_mode = false

/-- The call asks for the file `path`, which is not empty. -/
def Requests (s : Service T) (l : Asked T) (path : List UInt8) : Prop :=
  ∃ w c st, s.Opens l w c st ∧ c.realFile = path ∧ l.disk.bytes path ≠ []

/-- A request of a file returns, and with `FILE_REQUEST` it has the bytes that the file held
when it was loaded. -/
structure Served [DecidableEq T] (s : Service T) (l : Asked T) : Prop where
  returns : ∀ path, s.Requests l path → (s.answer l).isSome
  body : ∀ w c, s.answer l = some (w, c, .FILE_REQUEST) → c.fileStat.st_size ≠ 0 →
    ∃ bytes, (s.after l (w, c, .FILE_REQUEST)).loaded c.realFile = some bytes ∧
      ServesFile c bytes

/-- A file that is mapped has no NUL and does not fill its last page. One that is found in the
cache was loaded without a NUL, has the size it had then, and `fileAddress_` is empty. -/
structure Whole (s : Service T) (l : Asked T) : Prop where
  miss : ∀ path, s.Requests l path → s.Missed path →
    0 ∉ l.disk.bytes path ∧ ¬ pageSize ∣ (l.disk.bytes path).length
  hit : ∀ path, s.Requests l path → ¬ s.Missed path →
    s.fileAddress l.conn = [] ∧
      ∃ bytes, s.loaded path = some bytes ∧ 0 ∉ bytes ∧
        bytes.length = (l.disk.bytes path).length

/-! ## What the cache holds

For each path the string that was made of the file when it was mapped. A hit puts it behind what
`fileAddress_` has. -/

/-- The cache has a string for each of its paths: what was made of the file when it was loaded. -/
def Caches (cache : LFUCache) (loaded : List UInt8 → Option (List UInt8)) : Prop :=
  cache.capacity ≠ 0 ∧ ∃ (r : Cache Str Str) (hd : Group) (gs : List Group),
    Represents cache r hd gs ∧ r.size ≤ cache.capacity ∧
      ∀ path e, r.entries.lookup path = some e →
        ∃ bytes, loaded path = some bytes ∧ e.value = textOf bytes

structure Consistent (s : Service T) : Prop where
  cached : Caches s.world.cache s.loaded
  strings : ∀ i, 0 ∉ s.fileAddress i

section Load

variable (disk : Disk) {w : World} {c : HttpConnection} {st : FileStat}
  {loaded : List UInt8 → Option (List UInt8)}

/-- A path that is found: its string is put behind `fileAddress_`. -/
theorem loadFile_hit (h : Caches w.cache loaded)
    (hfound : w.cache.fmap.lookup c.realFile ≠ none) :
    ∃ bytes cache, loaded c.realFile = some bytes ∧ Caches cache loaded ∧
      loadFile disk.site w c = some ({ w with cache := cache },
        { c with fileAddress := c.fileAddress ++ textOf bytes }, .FILE_REQUEST) := by
  obtain ⟨hcap, r, hd, gs, hrep, hsize, hvalues⟩ := h
  obtain ⟨e, he⟩ := Option.ne_none_iff_exists'.mp (mt (fmap_lookup_none hrep).mpr hfound)
  obtain ⟨bytes, hbytes, hvalue⟩ := hvalues _ e he
  obtain ⟨cache, gs', hget, hcap', hrep'⟩ := get_represents disk.site.rt disk.inc hrep hcap he
  refine ⟨bytes, cache, hbytes, ⟨by rw [hcap']; exact hcap, _, hd, gs', hrep', ?_, ?_⟩, ?_⟩
  · rw [ReferenceLfu.size_put_of_mem (Finmap.mem_of_lookup_eq_some he), hcap']
    exact hsize
  · -- a hit counts the access and leaves the strings as they are
    intro path e' he'
    rcases ReferenceLfu.put_lookup he' with ⟨rfl, hv⟩ | ⟨-, hold⟩
    · exact ⟨bytes, hbytes, hv.trans hvalue⟩
    · exact hvalues path e' hold
  · rw [loadFile, get_append, hget, ← hvalue]
    rfl

/-- A path that is not found: the file is mapped, and its string is entered. -/
theorem loadFile_miss (h : Caches w.cache loaded)
    (hmiss : w.cache.fmap.lookup c.realFile = none)
    (hstat : disk.site.stat c.realFile = some st) (hdir : S_ISDIR st.st_mode = false)
    (hne : disk.bytes c.realFile ≠ [])
    (hends : 0 ∈ disk.bytes c.realFile ∨ ¬ pageSize ∣ (disk.bytes c.realFile).length) :
    ∃ cache, Caches cache (Function.update loaded c.realFile (some (disk.bytes c.realFile))) ∧
      loadFile disk.site w c = some ({ w with cache := cache },
        { c with fileAddress := textOf (disk.bytes c.realFile) }, .FILE_REQUEST) := by
  obtain ⟨hcap, r, hd, gs, hrep, hsize, hvalues⟩ := h
  have hk := (fmap_lookup_none hrep).mp hmiss
  obtain ⟨mem, hmem⟩ : ∃ mem, mapping (disk.bytes c.realFile) = some mem := ⟨_, if_neg hne⟩
  have htext := cString_mapping hmem
  rw [if_pos hends] at htext
  -- the cache refines the reference, which has the path with the text now
  obtain ⟨cache, r', gs', hset, hcap', hstep, hrep'⟩ :=
    set_represents disk.site.rt disk.inc hrep hcap hsize hk (textOf (disk.bytes c.realFile))
  refine ⟨cache, ⟨by rw [hcap']; exact hcap, r', hd, gs', hrep', ?_, fun path e he => ?_⟩, ?_⟩
  · rw [hcap']
    exact hstep.size_le hsize
  · -- an entry behind the call is the new one, or it was there before
    rcases hstep.lookup_value he with ⟨rfl, -, hv⟩ | ⟨e₀, he₀, hv⟩
    · exact ⟨_, Function.update_self _ _ _, hv⟩
    · -- an entry that was there, so of another path
      obtain ⟨bytes, hbytes, hvalue⟩ := hvalues path e₀ he₀
      have hother : path ≠ c.realFile := by
        rintro rfl
        rw [hk] at he₀
        cases he₀
      rw [Function.update_of_ne hother]
      exact ⟨bytes, hbytes, hv.symm.trans hvalue⟩
  · simp only [loadFile, get_miss _ hmiss, disk.mmap _ _ hstat hdir, hmem, htext, hset,
      Option.bind_eq_bind, Option.bind_some, Bool.false_eq_true, if_false]

/-- Where the mapping has no end as a string, or there is none, the result is undefined. -/
theorem loadFile_undefined (hmiss : w.cache.fmap.lookup c.realFile = none)
    (hstat : disk.site.stat c.realFile = some st) (hdir : S_ISDIR st.st_mode = false)
    (hends : disk.bytes c.realFile = [] ∨
      ¬ (0 ∈ disk.bytes c.realFile ∨ ¬ pageSize ∣ (disk.bytes c.realFile).length)) :
    loadFile disk.site w c = none := by
  have hmap := disk.mmap _ _ hstat hdir
  cases hmem : mapping (disk.bytes c.realFile) with
  | none =>
    simp only [loadFile, get_miss _ hmiss, hmap, hmem, Option.bind_eq_bind, Option.bind_some,
      Option.bind_none, Bool.false_eq_true, if_false]
  | some mem =>
    have htext := cString_mapping hmem
    have hne : disk.bytes c.realFile ≠ [] := by
      intro hnil
      rw [mapping, if_pos hnil] at hmem
      cases hmem
    rw [if_neg (hends.resolve_left hne)] at htext
    simp only [loadFile, get_miss _ hmiss, hmap, hmem, htext, Option.bind_eq_bind,
      Option.bind_some, Option.bind_none, Bool.false_eq_true, if_false]

end Load

/-! ## One call

A call comes to a file that is in the cache, to one that has to be mapped, or to none. For the
first two it is decided when the second iovec is the file. -/

section Call

variable {s t : Service T} {l : Asked T} {w w' : World} {c c' : HttpConnection} {st : FileStat}
  {ret : HttpCode}

theorem answer_of_opens (h : s.Opens l w c st) :
    s.answer l = loadFile l.disk.site w { c with fileStat := st } := by
  rw [answer, doRequest_eq, h.located, Option.bind_some, resolveFile, h.stat]
  show (if _ then _ else if _ then _ else _) = _
  rw [if_neg h.readable, if_neg (by rw [h.regular]; decide)]

theorem Opens.frame (h : s.Opens l w c st) :
    w.cache = s.world.cache ∧ c.fileAddress = s.fileAddress l.conn :=
  locate_frame _ _ _ _ h.located

/-- A call comes to a file, or it changes neither the cache nor `fileAddress_`. -/
theorem answer_cases (h : s.answer l = some (w', c', ret)) :
    (∃ w c st, s.Opens l w c st) ∨
      (ret ≠ .FILE_REQUEST ∧ w'.cache = s.world.cache ∧
        c'.fileAddress = s.fileAddress l.conn) := by
  rw [answer, doRequest_eq] at h
  obtain ⟨⟨w, c⟩, hloc, hres⟩ := Option.bind_eq_some_iff.mp h
  have hframe := locate_frame _ _ _ _ hloc
  unfold resolveFile at hres
  dsimp only at hres
  split at hres
  · cases hres
    exact .inr ⟨by decide, hframe⟩
  · next st hstat =>
    split at hres
    · cases hres
      exact .inr ⟨by decide, hframe⟩
    · next hread =>
      split at hres
      · cases hres
        exact .inr ⟨by decide, hframe⟩
      · next hdir => exact .inl ⟨w, c, st, hloc, hstat, hread, Bool.of_not_eq_true hdir⟩

/-- A call that comes to a file of the cache. -/
theorem answer_hit (h : Consistent s) (ho : s.Opens l w c st) (hfound : ¬ s.Missed c.realFile) :
    ∃ bytes cache, s.loaded c.realFile = some bytes ∧ Caches cache s.loaded ∧
      s.answer l = some ({ w with cache := cache },
        { c with fileStat := st, fileAddress := s.fileAddress l.conn ++ textOf bytes },
        .FILE_REQUEST) := by
  obtain ⟨hcache, hfile⟩ := ho.frame
  obtain ⟨bytes, cache, hbytes, hcaches, hload⟩ := loadFile_hit l.disk (w := w)
    (c := { c with fileStat := st }) (by rw [hcache]; exact h.cached) (by rw [hcache]; exact hfound)
  refine ⟨bytes, cache, hbytes, hcaches, ?_⟩
  rw [answer_of_opens ho, hload, ← hfile]

/-- A call that maps a file. -/
theorem answer_miss (h : Consistent s) (ho : s.Opens l w c st) (hmiss : s.Missed c.realFile)
    (hne : l.disk.bytes c.realFile ≠ [])
    (hends : 0 ∈ l.disk.bytes c.realFile ∨ ¬ pageSize ∣ (l.disk.bytes c.realFile).length) :
    ∃ cache,
      Caches cache (Function.update s.loaded c.realFile (some (l.disk.bytes c.realFile))) ∧
      s.answer l = some ({ w with cache := cache },
        { c with fileStat := st, fileAddress := textOf (l.disk.bytes c.realFile) },
        .FILE_REQUEST) := by
  obtain ⟨hcache, -⟩ := ho.frame
  obtain ⟨cache, hcaches, hload⟩ := loadFile_miss l.disk (w := w) (c := { c with fileStat := st })
    (by rw [hcache]; exact h.cached) (by rw [hcache]; exact hmiss) ho.stat ho.regular hne hends
  exact ⟨cache, hcaches, by rw [answer_of_opens ho, hload]⟩

/-- A call that cannot make a string of the file. -/
theorem answer_undefined (ho : s.Opens l w c st) (hmiss : s.Missed c.realFile)
    (hends : l.disk.bytes c.realFile = [] ∨
      ¬ (0 ∈ l.disk.bytes c.realFile ∨ ¬ pageSize ∣ (l.disk.bytes c.realFile).length)) :
    s.answer l = none := by
  obtain ⟨hcache, -⟩ := ho.frame
  rw [answer_of_opens ho]
  exact loadFile_undefined l.disk (by rw [hcache]; exact hmiss) ho.stat ho.regular hends

section Effect

variable [DecidableEq T]

theorem loaded_after_miss {r : World × HttpConnection × HttpCode} (hret : r.2.2 = .FILE_REQUEST)
    (h : s.Missed r.2.1.realFile) :
    (s.after l r).loaded
      = Function.update s.loaded r.2.1.realFile (some (l.disk.bytes r.2.1.realFile)) :=
  if_pos ⟨hret, h⟩

theorem loaded_after_hit {r : World × HttpConnection × HttpCode} (h : ¬ s.Missed r.2.1.realFile) :
    (s.after l r).loaded = s.loaded :=
  if_neg fun hand => h hand.2

/-- The bytes that a file had when it was loaded, behind a call that maps it. -/
theorem loaded_of_miss {d : HttpConnection} (h : s.Missed d.realFile) :
    (s.after l (w, d, .FILE_REQUEST)).loaded d.realFile = some (l.disk.bytes d.realFile) := by
  rw [loaded_after_miss rfl h]
  exact Function.update_self _ _ _

theorem loaded_of_hit {d : HttpConnection} {bytes : List UInt8} (h : ¬ s.Missed d.realFile)
    (hbytes : s.loaded d.realFile = some bytes) :
    (s.after l (w, d, ret)).loaded d.realFile = some bytes := by
  rw [loaded_after_hit h]
  exact hbytes

/-- Only the connection of the call has another `fileAddress_`. -/
theorem strings_after (h : ∀ i, 0 ∉ s.fileAddress i) (hc : 0 ∉ c.fileAddress) (i : T) :
    0 ∉ (s.after l (w, c, ret)).fileAddress i := by
  show 0 ∉ Function.update s.fileAddress l.conn c.fileAddress i
  rcases eq_or_ne i l.conn with rfl | hi
  · rw [Function.update_self]
    exact hc
  · rw [Function.update_of_ne hi]
    exact h i

/-- The cache holds what was made of the files last loaded, and no string has a NUL. -/
theorem step_consistent (h : Consistent s) (hs : s.step l = some t) : Consistent t := by
  obtain ⟨⟨w', c', ret⟩, hanswer, rfl⟩ := Option.map_eq_some_iff.mp hs
  -- `doRequest` got as far as the file, or the world is as it was
  rcases answer_cases hanswer with ⟨w, c, st, ho⟩ | ⟨hret, hcache, hfile⟩
  · by_cases hmiss : s.Missed c.realFile
    · by_cases hdef : l.disk.bytes c.realFile = [] ∨
          ¬ (0 ∈ l.disk.bytes c.realFile ∨ ¬ pageSize ∣ (l.disk.bytes c.realFile).length)
      · rw [answer_undefined ho hmiss hdef] at hanswer
        cases hanswer
      · -- the file is mapped, and its path loaded with the bytes it has now
        obtain ⟨hne, hends⟩ := not_or.mp hdef
        obtain ⟨cache, hcaches, hload⟩ := answer_miss h ho hmiss hne (not_not.mp hends)
        cases hanswer.symm.trans hload
        refine ⟨?_, strings_after h.strings (textOf_noNul _)⟩
        rw [loaded_after_miss]
        · exact hcaches
        · rfl
        · exact hmiss
    · -- the file is found: nothing is loaded, and `fileAddress_` grows
      obtain ⟨bytes, cache, -, hcaches, hload⟩ := answer_hit h ho hmiss
      cases hanswer.symm.trans hload
      refine ⟨?_, strings_after h.strings fun hmem => ?_⟩
      · rw [loaded_after_hit]
        · exact hcaches
        · exact hmiss
      · rcases List.mem_append.mp hmem with hmem | hmem
        · exact h.strings l.conn hmem
        · exact textOf_noNul bytes hmem
  · -- no file was reached
    refine ⟨?_, strings_after h.strings (by rw [hfile]; exact h.strings l.conn)⟩
    show Caches w'.cache (if ret = _ ∧ _ then _ else _)
    rw [if_neg fun hand => hret hand.1, hcache]
    exact h.cached

end Effect

/-- The second iovec, where the string is as long as `st_size`. -/
theorem servesFile_iff {bytes : List UInt8} (hsize : c.fileStat.st_size < 2 ^ 63) :
    ServesFile c bytes ↔ c.fileStat.st_size = c.fileAddress.length ∧ c.fileAddress = bytes := by
  refine ⟨fun h => ⟨h.size, h.content⟩, fun ⟨hlen, hbytes⟩ => ⟨hlen, hbytes, ?_⟩⟩
  have hvec : c.queueFile.writeVec.2
      = { base := .fileAddress 0, len := c.queueFile.fileAddress.length } := by
    show ({ base := .fileAddress 0, len := toSizeT c.fileStat.st_size } : IoVec) = _
    rw [hlen, toSizeT_natCast (by omega)]
    rfl
  rw [hvec, loadBytes_file (Nat.le_refl _), List.take_length, queueFile_fileAddress, hbytes]

section Whole

variable [DecidableEq T]

/-- A file that is mapped is served whole if its string is all of it. -/
theorem served_iff_of_miss (h : Consistent s) (ho : s.Opens l w c st)
    (hne : l.disk.bytes c.realFile ≠ []) (hmiss : s.Missed c.realFile) :
    s.Served l ↔ 0 ∉ l.disk.bytes c.realFile ∧ ¬ pageSize ∣ (l.disk.bytes c.realFile).length := by
  have hst := l.disk.size _ _ ho.stat ho.regular
  have hfits := l.disk.off_t c.realFile
  have hpos := List.length_pos_iff.mpr hne
  constructor
  · intro hserved
    obtain ⟨r, hr⟩ := Option.isSome_iff_exists.mp (hserved.returns _ ⟨w, c, st, ho, rfl, hne⟩)
    -- otherwise the mapping is no C string, and the call is undefined
    have hends : 0 ∈ l.disk.bytes c.realFile ∨ ¬ pageSize ∣ (l.disk.bytes c.realFile).length := by
      by_contra hnot
      rw [answer_undefined ho hmiss (.inr hnot)] at hr
      cases hr
    obtain ⟨cache, -, hload⟩ := answer_miss h ho hmiss hne hends
    obtain ⟨bytes, hbytes, hfile⟩ := hserved.body _ _ hload (by show st.st_size ≠ 0; omega)
    cases hbytes.symm.trans (loaded_of_miss hmiss)
    have hclean := textOf_eq_self.mp hfile.content
    exact ⟨hclean, hends.resolve_left hclean⟩
  · rintro ⟨hclean, hpage⟩
    obtain ⟨cache, -, hload⟩ := answer_miss h ho hmiss hne (.inr hpage)
    refine ⟨fun _ _ => by rw [hload]; rfl, fun w' c' hanswer _ => ?_⟩
    cases hanswer.symm.trans hload
    refine ⟨l.disk.bytes c.realFile, ?_, (servesFile_iff ?_).mpr ⟨?_, textOf_eq_self.mpr hclean⟩⟩
    · exact loaded_of_miss hmiss
    · show st.st_size < 2 ^ 63
      omega
    · show st.st_size = (textOf (l.disk.bytes c.realFile)).length
      rw [textOf_eq_self.mpr hclean]
      exact hst

/-- A file that is found in the cache. -/
theorem served_iff_of_hit (h : Consistent s) (ho : s.Opens l w c st)
    (hne : l.disk.bytes c.realFile ≠ []) (hfound : ¬ s.Missed c.realFile) :
    s.Served l ↔ s.fileAddress l.conn = [] ∧ ∃ bytes, s.loaded c.realFile = some bytes ∧
      0 ∉ bytes ∧ bytes.length = (l.disk.bytes c.realFile).length := by
  have hst := l.disk.size _ _ ho.stat ho.regular
  have hfits := l.disk.off_t c.realFile
  have hpos := List.length_pos_iff.mpr hne
  obtain ⟨bytes, cache, hbytes, -, hload⟩ := answer_hit h ho hfound
  constructor
  · intro hserved
    obtain ⟨bytes', hbytes', hfile⟩ := hserved.body _ _ hload (by show st.st_size ≠ 0; omega)
    cases hbytes'.symm.trans (loaded_of_hit hfound hbytes)
    have hcontent : s.fileAddress l.conn ++ textOf bytes = bytes := hfile.content
    -- neither part has a NUL, so the file had none and its string is all of it
    have hclean : 0 ∉ bytes := by
      rw [← hcontent]
      intro hmem
      rcases List.mem_append.mp hmem with hmem | hmem
      · exact h.strings l.conn hmem
      · exact textOf_noNul bytes hmem
    rw [textOf_eq_self.mpr hclean] at hcontent
    refine ⟨List.append_left_eq_self.mp hcontent, bytes, hbytes, hclean, ?_⟩
    have hsize : st.st_size = (s.fileAddress l.conn ++ textOf bytes).length := hfile.size
    rw [textOf_eq_self.mpr hclean, hcontent] at hsize
    omega
  · rintro ⟨hempty, bytes', hbytes', hclean, hlen⟩
    cases hbytes.symm.trans hbytes'
    have hstring : s.fileAddress l.conn ++ textOf bytes = bytes := by
      rw [hempty, textOf_eq_self.mpr hclean, List.nil_append]
    refine ⟨fun _ _ => by rw [hload]; rfl, fun w' c' hanswer _ => ?_⟩
    cases hanswer.symm.trans hload
    refine ⟨bytes, ?_, (servesFile_iff ?_).mpr ⟨?_, hstring⟩⟩
    · exact loaded_of_hit hfound hbytes
    · show st.st_size < 2 ^ 63
      omega
    · show st.st_size = (s.fileAddress l.conn ++ textOf bytes).length
      rw [hstring]
      omega

omit [DecidableEq T] in
/-- A request is for one file. -/
theorem Requests.path_eq {path : List UInt8} (h : s.Requests l path) (ho : s.Opens l w c st) :
    path = c.realFile ∧ l.disk.bytes c.realFile ≠ [] := by
  obtain ⟨w', c', st', ho', rfl, hne⟩ := h
  cases ho'.located.symm.trans ho.located
  exact ⟨rfl, hne⟩

theorem served_iff_whole (h : Consistent s) : s.Served l ↔ s.Whole l := by
  -- the condition is about the one path that is requested, and about a miss or a hit of it
  by_cases hreq : ∃ path, s.Requests l path
  · obtain ⟨path, w, c, st, ho, rfl, hne⟩ := hreq
    by_cases hmiss : s.Missed c.realFile
    · rw [served_iff_of_miss h ho hne hmiss]
      refine ⟨fun hcond => ⟨fun path hr _ => ?_, fun path hr hfound => ?_⟩, fun hw => ?_⟩
      · rw [(hr.path_eq ho).1]
        exact hcond
      · rw [(hr.path_eq ho).1] at hfound
        exact absurd hmiss hfound
      · exact hw.miss _ ⟨w, c, st, ho, rfl, hne⟩ hmiss
    · rw [served_iff_of_hit h ho hne hmiss]
      refine ⟨fun hcond => ⟨fun path hr hm => ?_, fun path hr _ => ?_⟩, fun hw => ?_⟩
      · rw [(hr.path_eq ho).1] at hm
        exact absurd hm hmiss
      · rw [(hr.path_eq ho).1]
        exact hcond
      · exact hw.hit _ ⟨w, c, st, ho, rfl, hne⟩ hmiss
  · -- no file, or an empty one
    refine iff_of_true ⟨fun path hr => absurd ⟨path, hr⟩ hreq, fun w' c' hanswer hsize => ?_⟩
      ⟨fun path hr => absurd ⟨path, hr⟩ hreq, fun path hr => absurd ⟨path, hr⟩ hreq⟩
    rcases answer_cases hanswer with ⟨w, c, st, ho⟩ | ⟨hret, -⟩
    · -- an empty file: a miss cannot map it, and a hit answers with size 0
      have hnil : l.disk.bytes c.realFile = [] := by
        by_contra hne
        exact hreq ⟨_, w, c, st, ho, rfl, hne⟩
      have hst := l.disk.size _ _ ho.stat ho.regular
      rw [hnil] at hst
      by_cases hmiss : s.Missed c.realFile
      · rw [answer_undefined ho hmiss (.inl hnil)] at hanswer
        cases hanswer
      · obtain ⟨bytes, cache, -, -, hload⟩ := answer_hit h ho hmiss
        cases hanswer.symm.trans hload
        exact absurd hst hsize
    · exact absurd rfl hret

end Whole

end Call

/-! ## Runs -/

section Runs

variable [DecidableEq T] {w : World} {rt : Runtime}

omit [DecidableEq T] in
theorem start_consistent {capacity : Nat} (hcap : capacity ≠ 0)
    (hnew : LFUCache.new rt capacity = some w.cache) : (start w : Service T).Consistent := by
  obtain ⟨cache, hnew', r, hd, gs, hcapacity, hrep, hrun⟩ := new_refines rt capacity
  cases hnew.symm.trans hnew'
  have hcapacity : w.cache.capacity = capacity := hcapacity
  have hne : w.cache.capacity ≠ 0 := by
    rw [hcapacity]
    exact hcap
  -- the reference has no entry yet
  obtain ⟨-, rfl⟩ := hrun.functional .nil
  refine ⟨⟨hne, Cache.empty, hd, gs, hrep, Nat.zero_le _, fun path e he => ?_⟩,
    fun _ => List.not_mem_nil⟩
  cases he

/-- **The served body is the file.** For any connections that share the cache and every run of
calls of `doRequest`, with any changes of the files between them: every request of a file that
is not empty returns, and whenever `FILE_REQUEST` is returned with an `st_size` other than zero,
`fileAddress_` has `st_size` bytes, those that the file held when it was loaded, and the second
iovec reads nothing else, if and only if every call meets `Whole`. -/
theorem served_iff (hnew : LFUCache.new rt LFU_CAPACITY = some w.cache) (ls : List (Asked T)) :
    Along step Served (start w) ls ↔ Along step Whole (start w) ls :=
  along_congr (fun _ _ _ h hs => step_consistent h hs) (fun _ _ h => served_iff_whole h)
    (start_consistent (by decide) hnew)

end Runs

/-! ## Files without and with a NUL -/

/-- Every path is a file of these bytes. -/
def sampleDisk (bytes : List UInt8) (h : bytes.length < 2 ^ 63) : Disk where
  site := { sampleSite with
    stat := fun _ => some ⟨S_IROTH, bytes.length⟩
    mmap := fun _ => mapping bytes }
  bytes _ := bytes
  size _ _ hstat _ := by cases hstat; rfl
  mmap _ _ _ _ := rfl
  off_t _ := h
  inc := rfl

/-- The connection asks for `/a`. -/
def asksForA (conn : Nat) (disk : Disk) : Asked Nat where
  conn := conn
  members := { passedOver (ascii "/a" ++ [0]) with url := .input 8 }
  disk := disk

/-- Such a call comes to the path `/a`. -/
theorem asksForA_path {s : Service Nat} {conn : Nat} {disk : Disk} {w : World}
    {c : HttpConnection} {st : FileStat} (h : s.Opens (asksForA conn disk) w c st) :
    c.realFile = ascii "/a" := by
  have hloc : ∀ (w : World) (file : List UInt8),
      (locate disk.site w { (asksForA conn disk).members with fileAddress := file }).map
        (fun r => r.2.realFile) = some (ascii "/a") := fun _ _ => rfl
  have hpath := hloc s.world (s.fileAddress conn)
  rw [show locate disk.site s.world { (asksForA conn disk).members with
    fileAddress := s.fileAddress conn } = some (w, c) from h.located] at hpath
  exact Option.some.inj hpath

/-- A file that is mapped for one connection and found by another. -/
theorem served_iff_sample :
    Along step Served (start sampleWorld)
      [asksForA 0 (sampleDisk [1, 2, 3] (by decide)), asksForA 1 (sampleDisk [1, 2, 3] (by decide))] := by
  have hnew : LFUCache.new sampleSite.rt LFU_CAPACITY = some sampleWorld.cache := rfl
  have hfirst : (step (start sampleWorld)
      (asksForA 0 (sampleDisk [1, 2, 3] (by decide)))).map
        (fun t => (t.fileAddress 1, t.loaded (ascii "/a"))) = some ([], some [1, 2, 3]) := rfl
  refine (served_iff hnew _).mpr ⟨⟨fun path _ _ => ?_, fun path _ hfound => ?_⟩, fun t ht => ?_⟩
  · show 0 ∉ [1, 2, 3] ∧ ¬ pageSize ∣ 3
    decide
  · exact absurd rfl hfound
  · rw [ht] at hfirst
    obtain ⟨hfile, hloaded⟩ := Prod.mk.inj (Option.some.inj hfirst)
    refine ⟨⟨fun path _ _ => ?_, fun path hr _ => ?_⟩, fun _ _ => trivial⟩
    · show 0 ∉ [1, 2, 3] ∧ ¬ pageSize ∣ 3
      decide
    · obtain ⟨w, c, st, ho, rfl, -⟩ := hr
      rw [asksForA_path ho]
      exact ⟨hfile, [1, 2, 3], hloaded, by decide, rfl⟩

/-- A file of three bytes with a NUL in the middle: `st_size` is three, and the string one
byte long. -/
theorem nul_in_file :
    ∃ w c, answer (start sampleWorld) (asksForA 0 (sampleDisk [97, 0, 98] (by decide)))
        = some (w, c, .FILE_REQUEST) ∧ c.fileStat.st_size = 3 ∧ c.fileAddress = [97] ∧
      ¬ Along step Served (start sampleWorld)
        [asksForA 0 (sampleDisk [97, 0, 98] (by decide))] := by
  refine ⟨_, _, rfl, rfl, rfl, fun h => ?_⟩
  obtain ⟨bytes, -, hfile⟩ := h.1.body _ _ rfl (by decide)
  exact absurd hfile.size (by decide)

end Service

end HttpWebserver.HttpConnection
