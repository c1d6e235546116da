import HttpWebserver.HttpConnection.DoRequest
import HttpWebserver.HttpConnection.RequestLine
import HttpWebserver.Lib.PathNormal

/-!
# HttpConnection — the document root

`doRequest` appends to `docRoot_` what the url asks for, and gives the path to `stat`, `open` and
`mmap`.

* `buildPath`: `doRequest` up to the call of `stat`;
* `requested`: what is appended, from the url and the members of the connection;
* **`realFile_below_iff`** — on a new connection the path is below `docRoot_` exactly when what is
  appended goes up no further than it comes back.
* `pageOfRequest`: the page a request stands for.
* **`realFile_page_iff`** — the path is `docRoot_` and that page exactly where no form is answered.
-/

namespace HttpWebserver.HttpConnection

open CString PartialRules PathNormal Storage

/-! ## The path that is built

`doRequest` appends a page or the url to `docRoot_`, as text, and for a form the url first. The
page that a form leads to is copied over the url, where the byte behind the last `/` chooses once
more. -/

/-- `resolveUrl` up to the call of `stat`. -/
def buildUrl (site : Site) (w : World) (c : HttpConnection) : Option (World × HttpConnection) := do
  let p ← c.search c.url (strrchr · · slash)
  let choice ← c.charAt p 1
  let (w, c) ← (if c.cgi = 1 ∧ (choice = 50 ∨ choice = 51) then doCgi site w c p
    else some (w, c))
  let choice ← c.charAt p 1
  let file ← c.page choice
  some (w, { c with realFile := c.realFile ++ file })

/-- `doRequest` up to the call of `stat`. -/
def buildPath (site : Site) (w : World) (c : HttpConnection) : Option (World × HttpConnection) :=
  buildUrl site w { c with realFile := c.realFile ++ c.docRoot }

/-- The path is used as it was built. -/
theorem doRequest_eq_buildPath (site : Site) (w : World) (c : HttpConnection) :
    doRequest site w c = (buildPath site w c).bind fun r => resolveFile site r.1 r.2 := by
  unfold doRequest resolveUrl buildPath buildUrl
  simp only [Option.bind_eq_bind, Option.bind_assoc, Option.bind_some]

/-- The byte behind the last `/`, or the NUL. -/
def choiceOf (url : List UInt8) : UInt8 := (url.reverse.takeWhile (· ≠ slash)).getLast?.getD 0

/-- The page for a choice, or else the url. -/
def pageFor (choice : UInt8) (url : List UInt8) : List UInt8 :=
  if choice = 48 then ascii "/register.html"
  else if choice = 49 then ascii "/log.html"
  else if choice = 53 then ascii "/picture.html"
  else if choice = 54 then ascii "/video.html"
  else if choice = 55 then ascii "/fans.html"
  else url

/-- What is appended to `docRoot_`. With a form it is the url behind its second byte, and the
page that the form leads to. -/
def requested (site : Site) (w : World) (c : HttpConnection) (url : List UInt8) :
    Option (List UInt8) :=
  if c.cgi = 1 ∧ (choiceOf url = 50 ∨ choiceOf url = 51) then
    c.decodeForm.map fun form =>
      slash :: (url.drop 2 ++ (formPage site w (choiceOf url) form.1 form.2).2)
  else
    some (pageFor (choiceOf url) url)

/-- The page of a request: the one that the form leads to, where the block on `cgi_` runs, the
one for the choice, or else the url. -/
def pageOfRequest (site : Site) (w : World) (c : HttpConnection) (url : List UInt8) :
    Option (List UInt8) :=
  if c.cgi = 1 ∧ (choiceOf url = 50 ∨ choiceOf url = 51) then
    c.decodeForm.map fun form => (formPage site w (choiceOf url) form.1 form.2).2
  else some (pageFor (choiceOf url) url)

section Build

variable {site : Site} {w : World} {c : HttpConnection} {p : Ptr} {mem a b url : List UInt8}

theorem choiceOf_eq (hb : slash ∉ b) : choiceOf (a ++ slash :: b) = b.head?.getD 0 := by
  have hall : ∀ x ∈ b.reverse, (decide (x ≠ slash)) = true := by
    intro x hx
    apply decide_eq_true
    rintro rfl
    exact hb (List.mem_reverse.mp hx)
  have hrev : (a ++ slash :: b).reverse = b.reverse ++ slash :: a.reverse := by simp
  have hstop : (slash :: a.reverse).takeWhile (· ≠ slash) = [] :=
    List.takeWhile_cons_of_neg (by decide)
  rw [choiceOf, hrev, List.takeWhile_append_of_pos hall, hstop, List.append_nil,
    List.getLast?_reverse]

theorem page_eq (h : c.deref c.url = some url) (choice : UInt8) :
    c.page choice = some (pageFor choice url) := by
  unfold page pageFor
  rw [h]
  split_ifs <;> rfl

/-- The byte behind the last slash of the url. -/
theorem charAt_choice (h : c.StringAt p mem (a ++ slash :: b)) (hb : slash ∉ b) :
    c.charAt (p.add a.length) 1 = some (choiceOf (a ++ slash :: b)) := by
  have hrest : c.StringAt ((p.add a.length).add 1) mem b := by
    have hcut : c.StringAt (p.add a.length) mem ([slash] ++ b) := h.add
    exact hcut.add
  rw [choiceOf_eq hb, ← hrest.charAt_zero, Ptr.add_add, charAt_add c h.ne_null,
    charAt_add c h.ne_null]

/-- A page has no byte that chooses another page. -/
theorem formPage_mem {choice x : UInt8} {name password : List UInt8}
    (hx : x ∈ (formPage site w choice name password).2) :
    x ≠ 0 ∧ x ∉ ([48, 49, 53, 54, 55] : List UInt8) := by
  have hpages : ∀ page ∈ [ascii "/log.html", ascii "/registerError.html", ascii "/welcome.html",
      ascii "/logError.html"], ∀ x ∈ page, x ≠ 0 ∧ x ∉ ([48, 49, 53, 54, 55] : List UInt8) := by
    decide +kernel
  apply hpages (formPage site w choice name password).2 _ x hx
  unfold formPage register login
  dsimp only
  split_ifs <;> simp

/-- A byte that does not choose a page leaves the url. -/
theorem pageFor_url {choice : UInt8} (h : choice ∉ ([48, 49, 53, 54, 55] : List UInt8))
    (url : List UInt8) : pageFor choice url = url := by
  simp only [List.mem_cons, List.not_mem_nil, or_false, not_or] at h
  obtain ⟨h0, h1, h5, h6, h7⟩ := h
  rw [pageFor, if_neg h0, if_neg h1, if_neg h5, if_neg h6, if_neg h7]

/-- Behind a page that has been copied to the url stands what stood there before. -/
theorem copied_choice {page mem' : List UInt8} (h : c.StringAt p mem url)
    (hcopy : strcpy mem p.off page = some mem') {n : Nat} {old : UInt8}
    (hold : c.charAt p n = some old) :
    ∃ x, (c.setStorage p mem').charAt p n = some x ∧ (x ∈ page ∨ x = 0 ∨ x = old) := by
  have hlt := cString_lt h.string
  obtain ⟨hfits, rfl⟩ := strcpy_eq_some_iff.mp hcopy
  rw [charAt, h.storage, Option.bind_eq_bind, Option.bind_some] at hold
  rw [charAt, storage_setStorage h.ne_null, Option.bind_eq_bind, Option.bind_some,
    overwrite_getElem? (by omega), if_neg (by omega)]
  split
  · next hin =>
    -- the byte is one of the page, or its NUL
    obtain ⟨x, hx⟩ : ∃ x, (page ++ [0])[p.off + n - p.off]? = some x :=
      ⟨_, List.getElem?_eq_getElem (by omega)⟩
    refine ⟨x, hx, ?_⟩
    rcases List.mem_append.mp (List.mem_of_getElem? hx) with hpage | hzero
    · exact .inl hpage
    · exact .inr (.inl (List.mem_singleton.mp hzero))
  · exact ⟨old, hold, .inr (.inr rfl)⟩

/-- The page is the string at the url then. -/
theorem copied_page {page mem' : List UInt8} (h : c.StringAt p mem url) (hzero : 0 ∉ page)
    (hcopy : strcpy mem p.off page = some mem') : (c.setStorage p mem').deref p = some page := by
  obtain ⟨hfits, rfl⟩ := strcpy_eq_some_iff.mp hcopy
  have hstring : cString mem p.off = some ([] ++ url) := h.string
  exact deref_eq_some.mpr ⟨_, storage_setStorage h.ne_null _, cString_overwrite hstring hzero hfits⟩

/-- The block on `cgi_`: the url behind its second byte is appended, and the page of the form is
copied to the url. -/
theorem doCgi_eq {choice : UInt8} (h : c.StringAt c.url mem url) (hlen : 2 ≤ url.length)
    (hchoice : c.charAt p 1 = some choice) :
    doCgi site w c p = c.decodeForm.bind fun form =>
      (strcpy mem c.url.off (formPage site w choice form.1 form.2).2).map fun mem' =>
        ((formPage site w choice form.1 form.2).1,
          { c.setStorage c.url mem' with realFile := c.realFile ++ slash :: url.drop 2 }) := by
  have hcut : c.StringAt c.url mem (url.take 2 ++ url.drop 2) := by
    rw [List.take_append_drop]
    exact h
  have hrest : c.deref (c.url.add 2) = some (url.drop 2) := by
    have hadd := hcut.add
    rw [List.length_take_of_le hlen] at hadd
    exact deref_eq_some.mpr ⟨mem, hadd⟩
  -- `flag`, the second byte of the url
  obtain ⟨flag, hflag⟩ : ∃ flag, c.charAt c.url 1 = some flag := by
    have hone : c.StringAt c.url mem (url.take 1 ++ url.drop 1) := by
      rw [List.take_append_drop]
      exact h
    have hsecond := hone.add
    rw [List.length_take_of_le (Nat.le_of_succ_le hlen)] at hsecond
    rw [← Nat.add_zero 1, ← charAt_add c h.ne_null]
    exact ⟨_, hsecond.charAt_zero⟩
  rw [doCgi, hflag, Option.bind_eq_bind, Option.bind_some, hrest, Option.bind_eq_bind,
    Option.bind_some, answerForm, decodeForm_withRealFile]
  cases c.decodeForm with
  | none => rfl
  | some form =>
    obtain ⟨name, password⟩ := form
    have hcopy := writing_eq (c := { c with realFile := c.realFile ++ slash :: url.drop 2 })
      h.storage (strcpy · · (formPage site w choice name password).2)
    rw [Option.bind_eq_bind, Option.bind_some, charAt_withRealFile, hchoice]
    dsimp only [Option.bind_eq_bind, Option.bind_some]
    rw [hcopy, Option.map_eq_bind, Option.map_eq_bind, Option.bind_assoc]
    simp only [Option.bind_some, Function.comp_apply, setStorage_withRealFile]

/-- `buildUrl` behind the search for the last slash. -/
theorem buildUrl_eq (hat : c.StringAt c.url mem (a ++ slash :: b)) (hb : slash ∉ b) :
    buildUrl site w c =
      (if c.cgi = 1 ∧ (choiceOf (a ++ slash :: b) = 50 ∨ choiceOf (a ++ slash :: b) = 51) then
        doCgi site w c (c.url.add a.length) else some (w, c)).bind fun r =>
        (r.2.charAt (c.url.add a.length) 1).bind fun choice =>
          (r.2.page choice).bind fun file =>
            some (r.1, { r.2 with realFile := r.2.realFile ++ file }) := by
  have hsearch : c.search c.url (strrchr · · slash) = some (c.url.add a.length) := by
    rw [hat.search, strrchr_eq hat.string hb]
    rfl
  unfold buildUrl
  rw [hsearch, Option.bind_eq_bind, Option.bind_some, charAt_choice hat hb, Option.bind_eq_bind,
    Option.bind_some]
  rfl

/-- The page of a form has been copied over the url. The byte behind the slash then chooses no
other page: it is what stood there, or a byte of the page. -/
theorem copied_form {page mem' : List UInt8} {choice : UInt8} {n : Nat}
    (hat : c.StringAt c.url mem url)
    (hpage : ∀ x ∈ page, x ≠ 0 ∧ x ∉ ([48, 49, 53, 54, 55] : List UInt8))
    (hcopy : strcpy mem c.url.off page = some mem') (hold : c.charAt c.url n = some choice)
    (hchoice : choice = 50 ∨ choice = 51) :
    ∃ x, (c.setStorage c.url mem').charAt c.url n = some x ∧
      (c.setStorage c.url mem').page x = some page := by
  obtain ⟨x, hx, hbyte⟩ := copied_choice hat hcopy hold
  have hnochoice : x ∉ ([48, 49, 53, 54, 55] : List UInt8) := by
    rcases hbyte with hmem | rfl | rfl
    · exact (hpage x hmem).2
    · decide
    · rcases hchoice with rfl | rfl
      · decide
      · decide
  have hurl : (c.setStorage c.url mem').deref (c.setStorage c.url mem').url = some page := by
    rw [setStorage_url]
    exact copied_page hat (fun hzero => (hpage 0 hzero).1 rfl) hcopy
  exact ⟨x, hx, by rw [page_eq hurl, pageFor_url hnochoice]⟩

/-- A form leaves its page at the url, and the path ends with it. -/
theorem buildUrl_form (hat : c.StringAt c.url mem (a ++ slash :: b)) (hb : slash ∉ b)
    (hcgi : c.cgi = 1 ∧ (choiceOf (a ++ slash :: b) = 50 ∨ choiceOf (a ++ slash :: b) = 51)) :
    buildUrl site w c = c.decodeForm.bind fun form =>
      let (w', page) := formPage site w (choiceOf (a ++ slash :: b)) form.1 form.2
      (strcpy mem c.url.off page).map fun mem' => (w', { c.setStorage c.url mem' with
        realFile := c.realFile ++ slash :: ((a ++ slash :: b).drop 2 ++ page) }) := by
  have hchoice := charAt_choice hat hb
  -- behind the last slash there is a digit, so the url has two bytes
  have hlen : 2 ≤ (a ++ slash :: b).length := by
    cases b with
    | nil =>
      rw [choiceOf_eq hb] at hcgi
      exact absurd hcgi.2 (by decide)
    | cons y b =>
      rw [List.length_append, List.length_cons, List.length_cons]
      omega
  rw [buildUrl_eq hat hb, if_pos hcgi, doCgi_eq hat hlen hchoice]
  rw [charAt_add c hat.ne_null] at hchoice
  cases c.decodeForm with
  | none => rfl
  | some form =>
    rw [Option.bind_some, Option.bind_some]
    dsimp only
    -- the page takes the place of the url, and its last component begins with the same digit
    cases hcopy : strcpy mem c.url.off
        (formPage site w (choiceOf (a ++ slash :: b)) form.1 form.2).2 with
    | none => rfl
    | some mem' =>
      obtain ⟨x, hx, hpage⟩ := copied_form hat (fun _ => formPage_mem) hcopy hchoice hcgi.2
      rw [Option.map_some, Option.bind_some]
      dsimp only
      rw [charAt_withRealFile, charAt_add _ hat.ne_null, hx, Option.bind_some,
        page_withRealFile, hpage, Option.bind_some, Option.map_some, List.append_assoc,
        List.cons_append]

/-- What `buildUrl` appends. -/
theorem buildUrl_realFile (hurl : c.deref c.url = some url) (hslash : slash ∈ url) :
    Ensures (fun r => ∃ path, requested site w c url = some path ∧
      r.2.realFile = c.realFile ++ path) (buildUrl site w c) := by
  obtain ⟨mem, hat⟩ := deref_eq_some.mp hurl
  obtain ⟨a, b, rfl, hb⟩ := exists_last hslash
  by_cases hcgi : c.cgi = 1 ∧ (choiceOf (a ++ slash :: b) = 50 ∨ choiceOf (a ++ slash :: b) = 51)
  · rw [buildUrl_form hat hb hcgi, requested, if_pos hcgi]
    intro r hrun
    obtain ⟨form, hdecode, hrun⟩ := Option.bind_eq_some_iff.mp hrun
    obtain ⟨mem', -, rfl⟩ := Option.map_eq_some_iff.mp hrun
    rw [hdecode]
    exact ⟨_, rfl, rfl⟩
  · rw [buildUrl_eq hat hb, requested, if_neg hcgi, if_neg hcgi, Option.bind_some,
      charAt_choice hat hb, Option.bind_some, page_eq hurl]
    exact ensures_some ⟨_, rfl, rfl⟩

/-- What is appended begins with a slash, as the url does. -/
theorem requested_slash {path : List UInt8} (hurl : url.head? = some slash)
    (hpath : requested site w c url = some path) : path.head? = some separator := by
  unfold requested at hpath
  split at hpath
  · obtain ⟨form, -, rfl⟩ := Option.map_eq_some_iff.mp hpath
    rfl
  · cases hpath
    unfold pageFor
    split_ifs
    iterate 5 rfl
    exact hurl

/-- The path of an accepted url on a new connection: the document root, and what is appended. -/
theorem buildPath_requested {b d c' : HttpConnection} {text : Ptr} {s : List UInt8} {w' : World}
    (htext : b.deref text = some s) (hline : b.parseRequestLine text = some (d, .NO_REQUEST))
    (hurl : d.deref d.url = some url) (hsame : c.deref c.url = some url) (hnew : c.realFile = [])
    (hbuilt : buildPath site w c = some (w', c')) :
    url.head? = some slash ∧
      ∃ path, requested site w c url = some path ∧ c'.realFile = c.docRoot ++ path := by
  obtain ⟨l, path, -, hpath, hurl'⟩ := accepted_url htext hline
  cases hurl.symm.trans hurl'
  have hslash : (pageOf path).head? = some slash := by
    obtain ⟨q, rfl⟩ := hpath.slash
    unfold pageOf
    split_ifs <;> rfl
  -- `requested` does not look at `realFile_`
  have hform : requested site w { c with realFile := c.realFile ++ c.docRoot } (pageOf path) =
      requested site w c (pageOf path) := by
    rw [requested, decodeForm_withRealFile]
    rfl
  have hat : deref { c with realFile := c.realFile ++ c.docRoot } c.url = some (pageOf path) := by
    rw [deref_withRealFile]
    exact hsame
  obtain ⟨file, hfile, hreal⟩ := buildUrl_realFile hat (List.mem_of_mem_head? hslash) _ hbuilt
  rw [hform] at hfile
  dsimp only at hreal
  rw [hnew, List.nil_append] at hreal
  exact ⟨hslash, file, hfile, hreal⟩

/-- **The document root.** For every `docRoot_`, every request line that `parseRequestLine` accepts
and every path that `doRequest` builds for its url on a new connection, whatever the other
members are: the path is `docRoot_` or below it, if and only if `docRoot_` is not empty and what
is appended to it returns. -/
theorem realFile_below_iff {b d c' : HttpConnection} {text : Ptr} {s : List UInt8} {w' : World}
    (htext : b.deref text = some s) (hline : b.parseRequestLine text = some (d, .NO_REQUEST))
    (hurl : d.deref d.url = some url) (hsame : c.deref c.url = some url) (hnew : c.realFile = [])
    (hbuilt : buildPath site w c = some (w', c')) :
    Below c.docRoot c'.realFile ↔
      c.docRoot ≠ [] ∧ ∃ path, requested site w c url = some path ∧ Returns c.docRoot path := by
  obtain ⟨hslash, file, hfile, hreal⟩ := buildPath_requested htext hline hurl hsame hnew hbuilt
  rw [hreal, below_append_iff (requested_slash hslash hfile), hfile]
  simp only [Option.some.injEq, exists_eq_left']

/-- **One page.** For every `docRoot_`, every users table, every form that the loops decode and
every url that `parseRequestLine` accepts, on a new connection: the path that is given to `stat` is
`docRoot_` followed by the page of the request if and only if the block on `cgi_` does not run.
The block appends the url behind its second byte as well. -/
theorem realFile_page_iff {b d c' : HttpConnection} {text : Ptr} {s : List UInt8} {w' : World}
    (htext : b.deref text = some s) (hline : b.parseRequestLine text = some (d, .NO_REQUEST))
    (hurl : d.deref d.url = some url) (hsame : c.deref c.url = some url) (hnew : c.realFile = [])
    (hbuilt : buildPath site w c = some (w', c')) :
    (∃ page, pageOfRequest site w c url = some page ∧ c'.realFile = c.docRoot ++ page) ↔
      ¬ (c.cgi = 1 ∧ (choiceOf url = 50 ∨ choiceOf url = 51)) := by
  obtain ⟨-, path, hpath, hreal⟩ := buildPath_requested htext hline hurl hsame hnew hbuilt
  rw [hreal]
  by_cases hform : c.cgi = 1 ∧ (choiceOf url = 50 ∨ choiceOf url = 51)
  · refine iff_of_false ?_ (not_not.mpr hform)
    rintro ⟨page, hpage, heq⟩
    rw [requested, if_pos hform] at hpath
    rw [pageOfRequest, if_pos hform] at hpage
    obtain ⟨form, hdecode, rfl⟩ := Option.map_eq_some_iff.mp hpath
    rw [hdecode, Option.map_some] at hpage
    cases hpage
    -- the page has a slash and the url in front
    have hlen := congrArg List.length (List.append_cancel_left heq)
    rw [List.length_cons, List.length_append] at hlen
    omega
  · rw [requested, if_neg hform] at hpath
    cases hpath
    exact iff_of_true ⟨_, if_neg hform, rfl⟩ hform

end Build

/-- A connection with a document root that has received one line. -/
def rooted (root line : String) : HttpConnection :=
  { received line with docRoot := ascii root }

/-- `..` that stays below the document root. -/
theorem realFile_below_iff_parent : ∃ d w' c',
    (rooted "/w" "GET /a/../b HTTP/1.1").parseRequestLine (.input 8) = some (d, .NO_REQUEST) ∧
      buildPath sampleSite sampleWorld d = some (w', c') ∧ Below (ascii "/w") c'.realFile := by
  have hdone : ((rooted "/w" "GET /a/../b HTTP/1.1").parseRequestLine (.input 8)).map
      (fun r => (r.2, r.1.deref r.1.url, r.1.realFile, r.1.docRoot, r.1.cgi)) =
      some (.NO_REQUEST, some (ascii "/a/../b"), [], ascii "/w", 0) := by decide +kernel
  obtain ⟨⟨d, ret⟩, hline, hd⟩ := Option.map_eq_some_iff.mp hdone
  simp only [Prod.mk.injEq] at hd
  obtain ⟨rfl, hurl, hnew, hroot, hcgi⟩ := hd
  have hbuilt : (((rooted "/w" "GET /a/../b HTTP/1.1").parseRequestLine (.input 8)).bind
      fun r => buildPath sampleSite sampleWorld r.1).isSome := by decide +kernel
  rw [hline, Option.bind_some] at hbuilt
  obtain ⟨⟨w', c'⟩, hbuilt⟩ := Option.isSome_iff_exists.mp hbuilt
  have htext : (rooted "/w" "GET /a/../b HTTP/1.1").deref (.input 8) =
      some (ascii "GET /a/../b HTTP/1.1") := by decide +kernel
  have hbelow := (realFile_below_iff htext hline hurl hurl hnew hbuilt).mpr
  rw [hroot] at hbelow
  have hpath : requested sampleSite sampleWorld d (ascii "/a/../b") = some (ascii "/a/../b") := by
    rw [requested, hcgi, if_neg (by decide)]
    decide
  refine ⟨d, w', c', hline, hbuilt, hbelow ⟨by decide, _, hpath, .of_ups ?_⟩⟩
  decide +kernel

/-- The path of the request is `/w/../etc/passwd`, outside `/w`. -/
theorem realFile_above_root : ∃ d w' c',
    (rooted "/w" "GET /../etc/passwd HTTP/1.1").parseRequestLine (.input 8) =
        some (d, .NO_REQUEST) ∧
      buildPath sampleSite sampleWorld d = some (w', c') ∧
      c'.realFile = ascii "/w/../etc/passwd" ∧ ¬ Below (ascii "/w") c'.realFile := by
  have hdone : ((rooted "/w" "GET /../etc/passwd HTTP/1.1").parseRequestLine (.input 8)).bind
      (fun r => (buildPath sampleSite sampleWorld r.1).map fun s => (r.2, s.2.realFile)) =
      some (.NO_REQUEST, ascii "/w/../etc/passwd") := by decide +kernel
  obtain ⟨⟨d, ret⟩, hline, hbuilt⟩ := Option.bind_eq_some_iff.mp hdone
  obtain ⟨⟨w', c'⟩, hbuilt, hreal⟩ := Option.map_eq_some_iff.mp hbuilt
  simp only [Prod.mk.injEq] at hreal
  obtain ⟨rfl, hreal⟩ := hreal
  refine ⟨d, w', c', hline, hbuilt, hreal, fun h => ?_⟩
  have hnames := h.names
  rw [hreal] at hnames
  revert hnames
  decide +kernel

/-- The page for a registration, without a form. -/
theorem realFile_page_iff_fixed : ∃ d w' c' page,
    (rooted "/w" "GET /0 HTTP/1.1").parseRequestLine (.input 8) = some (d, .NO_REQUEST) ∧
      buildPath sampleSite sampleWorld d = some (w', c') ∧
      pageOfRequest sampleSite sampleWorld d (ascii "/0") = some page ∧
      c'.realFile = d.docRoot ++ page := by
  have hdone : ((rooted "/w" "GET /0 HTTP/1.1").parseRequestLine (.input 8)).map
      (fun r => (r.2, r.1.deref r.1.url, r.1.realFile, r.1.cgi)) =
      some (.NO_REQUEST, some (ascii "/0"), [], 0) := by decide +kernel
  obtain ⟨⟨d, ret⟩, hline, hd⟩ := Option.map_eq_some_iff.mp hdone
  simp only [Prod.mk.injEq] at hd
  obtain ⟨rfl, hurl, hnew, hcgi⟩ := hd
  have hbuilt : (((rooted "/w" "GET /0 HTTP/1.1").parseRequestLine (.input 8)).bind
      fun r => buildPath sampleSite sampleWorld r.1).isSome := by decide +kernel
  rw [hline, Option.bind_some] at hbuilt
  obtain ⟨⟨w', c'⟩, hbuilt⟩ := Option.isSome_iff_exists.mp hbuilt
  have htext : (rooted "/w" "GET /0 HTTP/1.1").deref (.input 8) =
      some (ascii "GET /0 HTTP/1.1") := by decide +kernel
  have hno : ¬ (d.cgi = 1 ∧ (choiceOf (ascii "/0") = 50 ∨ choiceOf (ascii "/0") = 51)) := by
    rw [hcgi]
    decide
  obtain ⟨page, hpage, hreal⟩ :=
    (realFile_page_iff htext hline hurl hurl hnew hbuilt).mpr hno
  exact ⟨d, w', c', page, hline, hbuilt, hpage, hreal⟩

/-- A connection with a url, a form and a document root. -/
def formAt (root url form : String) : HttpConnection :=
  { passedOver (ascii url ++ List.replicate 20 0 ++ ascii form ++ [0]) with
    docRoot := ascii root
    url := .input 8
    string := .input (8 + (ascii url).length + 20)
    cgi := 1 }

/-- A login at `/2x` whose page is `/logError.html`: the url is in the path, too. -/
theorem realFile_page_and_url : ∃ d w' c',
    (rooted "/w" "POST /2x HTTP/1.1").parseRequestLine (.input 8) = some (d, .NO_REQUEST) ∧
      d.deref d.url = (formAt "/w" "/2x" "user=a&password=b").deref (.input 8) ∧
      buildPath sampleSite sampleWorld (formAt "/w" "/2x" "user=a&password=b")
        = some (w', c') ∧
      pageOfRequest sampleSite sampleWorld (formAt "/w" "/2x" "user=a&password=b") (ascii "/2x")
        = some (ascii "/logError.html") ∧
      c'.realFile = ascii "/w/x/logError.html" ∧
      c'.realFile ≠ ascii "/w" ++ ascii "/logError.html" := by
  have hdone : ((rooted "/w" "POST /2x HTTP/1.1").parseRequestLine (.input 8)).map
      (fun r => (r.2, r.1.deref r.1.url)) = some (.NO_REQUEST, some (ascii "/2x")) := by
    decide +kernel
  obtain ⟨⟨d, ret⟩, hline, hd⟩ := Option.map_eq_some_iff.mp hdone
  simp only [Prod.mk.injEq] at hd
  obtain ⟨rfl, hurl⟩ := hd
  have hbuilt : (buildPath sampleSite sampleWorld (formAt "/w" "/2x" "user=a&password=b")).map
      (fun r => r.2.realFile) = some (ascii "/w/x/logError.html") := by decide +kernel
  obtain ⟨⟨w', c'⟩, hrun, hreal⟩ := Option.map_eq_some_iff.mp hbuilt
  refine ⟨d, w', c', hline, hurl.trans ?_, hrun, ?_, hreal, ?_⟩
  · decide +kernel
  · decide +kernel
  · rw [hreal]
    decide

end HttpWebserver.HttpConnection
