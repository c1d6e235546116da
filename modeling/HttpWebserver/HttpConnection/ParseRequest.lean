import HttpWebserver.HttpConnection.ProcessRead
import HttpWebserver.Lib.PartialRules

/-!
# HttpConnection — the line handlers

The model of `parseRequestLine`, `parseHeaders` and `parseContent` in
`HttpConnection/HttpConnection.cc`. They work in place: a `char*` of the connection points into
the storage of a buffer, and the bytes that end a word are overwritten with NULs there.

* The functions of `<string.h>` are those of `CString`, applied to the storage a pointer points
  into. Reading or writing through a null pointer is `none`.
* `parseRequestLine` is cut where the source moves on to the next word: `parseMethod`,
  `parseVersion`, `parseUrl`.

What each handler can do is said once: `parseRequestLine_spec`, `parseHeaders_spec`,
`parseContent_spec`. The request line is read `InPlace`, and no member but those of the line
changes.
-/

namespace HttpWebserver.Ptr

/-- A result of pointer arithmetic on `p`: null, or a position in the storage of `p`. -/
def From (p q : Ptr) : Prop := q = .null ∨ ∃ pos, q = p.moveTo pos

theorem From.null (p : Ptr) : p.From .null := .inl rfl

theorem From.moveTo {p q : Ptr} (h : p.From q) (pos : Nat) : p.From (q.moveTo pos) := by
  rcases h with rfl | ⟨_, rfl⟩
  · exact .inl rfl
  · exact .inr ⟨pos, by cases p <;> rfl⟩

theorem From.add {p q : Ptr} (h : p.From q) (n : Nat) : p.From (q.add n) := h.moveTo _

theorem From.trans {p q r : Ptr} (h : p.From q) (hr : q.From r) : p.From r := by
  rcases hr with rfl | ⟨pos, rfl⟩
  · exact .inl rfl
  · exact h.moveTo pos

end HttpWebserver.Ptr

namespace HttpWebserver.HttpConnection

open CString MachineInt PartialRules Storage

/-! ## Strings behind a pointer

The handlers work on `char*`s into the storage of a buffer. A pointer is a position here, and the
functions of `string.h` read and write the storage from there on. -/

/-- The storage a pointer points into. -/
def storage (c : HttpConnection) : Ptr → Option (List UInt8)
  | .null => none
  | .input _ => some c.inputBuffer.buffer
  | .output _ => some c.outputBuffer.buffer

/-- The connection with other contents in the storage a pointer points into. -/
def setStorage (c : HttpConnection) (p : Ptr) (mem : List UInt8) : HttpConnection :=
  match p with
  | .null => c
  | .input _ => { c with inputBuffer := { c.inputBuffer with buffer := mem } }
  | .output _ => { c with outputBuffer := { c.outputBuffer with buffer := mem } }

/-- `p[n]`. -/
def charAt (c : HttpConnection) (p : Ptr) (n : Nat) : Option UInt8 := do
  let mem ← c.storage p
  mem[p.off + n]?

/-- `p[n] = '\0'`. -/
def putNul (c : HttpConnection) (p : Ptr) (n : Nat) : Option HttpConnection := do
  let mem ← c.storage p
  let mem ← writeAt mem (p.off + n) [0]
  some (c.setStorage p mem)

/-- A searching function, with its result as a pointer into the same storage. -/
def search (c : HttpConnection) (p : Ptr)
    (f : List UInt8 → Nat → Option (Option Nat)) : Option Ptr := do
  let mem ← c.storage p
  let found ← f mem p.off
  some (found.elim .null p.moveTo)

/-- A function that reads the string at a pointer. -/
def reading {α : Type} (c : HttpConnection) (p : Ptr) (f : List UInt8 → Nat → Option α) :
    Option α := do
  let mem ← c.storage p
  f mem p.off

/-- A function that writes at a pointer. -/
def writing (c : HttpConnection) (p : Ptr) (f : List UInt8 → Nat → Option (List UInt8)) :
    Option HttpConnection := do
  let mem ← c.storage p
  let mem ← f mem p.off
  some (c.setStorage p mem)

/-- `" \t"`. -/
def blanks : List UInt8 := [32, 9]

/-- `'/'`. -/
def slash : UInt8 := 47

/-- `p += strspn(p, " \t")`. -/
def skipBlanks (c : HttpConnection) (p : Ptr) : Option Ptr := do
  let n ← c.reading p (strspn · · blanks)
  some (p.add n)

/-! ## The request line

Three parts of `parseRequestLine`, each called where the source goes on. -/

/-- The scheme and the host of a url, if it begins with that scheme: the url is then what
follows them, from the first `/` on. -/
def stripScheme (c : HttpConnection) (scheme : List UInt8) : Option HttpConnection := do
  if ← c.reading c.url (strncasecmp · · scheme) then
    let url ← c.search (c.url.add scheme.length) (strchr · · slash)
    some { c with url := url }
  else
    some c

/-- The end of `parseRequestLine`, from the url on. -/
def parseUrl (c : HttpConnection) : Option (HttpConnection × HttpCode) := do
  let c ← c.stripScheme (ascii "http://")
  let c ← c.stripScheme (ascii "https://")
  if c.url = .null then
    some (c, .BAD_REQUEST)
  else do
    let first ← c.charAt c.url 0
    if first ≠ slash then
      some (c, .BAD_REQUEST)
    else do
      let len ← c.reading c.url strlen
      let c ← (if len = 1 then c.writing c.url (strcat · · (ascii "judge.html")) else some c)
      some ({ c with checkState := .CHECK_STATE_HEADER }, .NO_REQUEST)

/-- The middle of `parseRequestLine`: the url ends at a blank, and the version is behind it. -/
def parseVersion (c : HttpConnection) : Option (HttpConnection × HttpCode) := do
  let url ← c.skipBlanks c.url
  let c := { c with url := url }
  let version ← c.search c.url (strpbrk · · blanks)
  let c := { c with version := version }
  if version = .null then
    some (c, .BAD_REQUEST)
  else do
    let c ← c.putNul version 0
    let version ← c.skipBlanks (version.add 1)
    let c := { c with version := version }
    if ← c.reading version (strcasecmp · · (ascii "HTTP/1.1")) then
      c.parseUrl
    else
      some (c, .BAD_REQUEST)

/-- The method the string at `text` is. -/
def parseMethod (c : HttpConnection) (text : Ptr) : Option (Option Method) := do
  if ← c.reading text (strcasecmp · · (ascii "GET")) then
    some (some .GET)
  else if ← c.reading text (strcasecmp · · (ascii "POST")) then
    some (some .POST)
  else
    some none

def parseRequestLine (c : HttpConnection) (text : Ptr) : Option (HttpConnection × HttpCode) := do
  let url ← c.search text (strpbrk · · blanks)
  let c := { c with url := url }
  if url = .null then
    some (c, .BAD_REQUEST)
  else do
    let c ← c.putNul url 0
    let c := { c with url := url.add 1 }
    match ← c.parseMethod text with
    | none => some (c, .BAD_REQUEST)
    | some method => parseVersion { c with method := method }

/-! ## The headers and the body -/

def parseHeaders (c : HttpConnection) (text : Ptr) : Option (HttpConnection × HttpCode) := do
  let first ← c.charAt text 0
  if first = 0 then
    if c.ContentLength ≠ 0 then
      some ({ c with checkState := .CHECK_STATE_CONTENT }, .NO_REQUEST)
    else
      some (c, .GET_REQUEST)
  else if ← c.reading text (strncasecmp · · (ascii "Connection:")) then
    let text ← c.skipBlanks (text.add 11)
    if ← c.reading text (strcasecmp · · (ascii "keep-alive")) then
      some ({ c with linger := true }, .NO_REQUEST)
    else
      some (c, .NO_REQUEST)
  else if ← c.reading text (strncasecmp · · (ascii "Content-length:")) then
    let text ← c.skipBlanks (text.add 15)
    let length ← c.reading text atol
    some ({ c with ContentLength := length }, .NO_REQUEST)
  else if ← c.reading text (strncasecmp · · (ascii "Host:")) then
    let text ← c.skipBlanks (text.add 5)
    some ({ c with host := text }, .NO_REQUEST)
  else
    some (c, .NO_REQUEST)

/-- The comparison is one of unsigned values. -/
def parseContent (c : HttpConnection) (text : Ptr) : Option (HttpConnection × HttpCode) :=
  if toSizeT c.ContentLength ≤ c.inputBuffer.readableBytes then do
    let c ← c.putNul text c.ContentLength.toNat
    some ({ c with string := text }, .GET_REQUEST)
  else
    some (c, .NO_REQUEST)

/-! ## What the handlers change

Whatever text a handler gets, it writes into the storage of its pointer, and sets members of the
request. -/

section Specs

variable {c d : HttpConnection} {p q text : Ptr}

theorem search_from {f : List UInt8 → Nat → Option (Option Nat)} (hq : c.search p f = some q) :
    p.From q := by
  obtain ⟨mem, -, hq⟩ := Option.bind_eq_some_iff.mp hq
  obtain ⟨found, -, hq⟩ := Option.bind_eq_some_iff.mp hq
  cases hq
  cases found with
  | none => exact .null p
  | some pos => exact .inr ⟨pos, rfl⟩

theorem skipBlanks_from (hq : c.skipBlanks p = some q) : p.From q := by
  obtain ⟨n, -, hq⟩ := Option.bind_eq_some_iff.mp hq
  cases hq
  exact .inr ⟨_, rfl⟩

/-! Writing to the storage of a pointer changes no member but a buffer. -/

section SetStorage

variable (c : HttpConnection) (p : Ptr) (mem : List UInt8)

theorem setStorage_moveTo (pos : Nat) :
    c.setStorage (p.moveTo pos) mem = c.setStorage p mem := by
  cases p <;> rfl

theorem setStorage_storage : c.setStorage p ((c.storage p).getD []) = c := by
  cases p <;> rfl

theorem setStorage_startLine : (c.setStorage p mem).startLine = c.startLine := by
  cases p <;> rfl

theorem setStorage_checkState : (c.setStorage p mem).checkState = c.checkState := by
  cases p <;> rfl

theorem setStorage_url : (c.setStorage p mem).url = c.url := by
  cases p <;> rfl

theorem setStorage_realFile : (c.setStorage p mem).realFile = c.realFile := by
  cases p <;> rfl

theorem setStorage_fileAddress : (c.setStorage p mem).fileAddress = c.fileAddress := by
  cases p <;> rfl

end SetStorage

theorem writing_eq {mem : List UInt8} (h : c.storage p = some mem)
    (f : List UInt8 → Nat → Option (List UInt8)) :
    c.writing p f = (f mem p.off).map fun mem' => c.setStorage p mem' := by
  rw [writing, h, Option.map_eq_bind]
  rfl

theorem writing_spec (c : HttpConnection) (p : Ptr) (f : List UInt8 → Nat → Option (List UInt8)) :
    Ensures (fun d => ∃ mem, d = c.setStorage p mem) (c.writing p f) := by
  unfold writing
  exact ensures_bind_eq fun mem _ => ensures_bind_eq fun mem' _ => ensures_some ⟨mem', rfl⟩

theorem putNul_spec (c : HttpConnection) (p : Ptr) (n : Nat) :
    Ensures (fun d => ∃ mem, d = c.setStorage p mem) (c.putNul p n) := by
  unfold putNul
  exact ensures_bind_eq fun mem _ => ensures_bind_eq fun mem' _ => ensures_some ⟨mem', rfl⟩

/-- The request line at `text` has been read up to some word: its storage is written to, and the
members of the line are set. -/
def InPlace (text : Ptr) (c d : HttpConnection) : Prop :=
  ∃ mem u v m s, text.From u ∧
    d = { c.setStorage text mem with url := u, version := v, method := m, checkState := s }

/-- The search for the first word. -/
theorem inPlace_url (c : HttpConnection) (hq : text.From q) :
    InPlace text c { c with url := q } :=
  ⟨_, q, c.version, c.method, c.checkState, hq, by rw [setStorage_storage]⟩

namespace InPlace

theorem url (h : InPlace text c d) : text.From d.url := by
  obtain ⟨mem, u, v, m, s, hu, rfl⟩ := h
  exact hu

theorem setUrl (h : InPlace text c d) (hq : text.From q) : InPlace text c { d with url := q } := by
  obtain ⟨mem, u, v, m, s, -, rfl⟩ := h
  exact ⟨mem, q, v, m, s, hq, rfl⟩

theorem setVersion (h : InPlace text c d) (q : Ptr) : InPlace text c { d with version := q } := by
  obtain ⟨mem, u, v, m, s, hu, rfl⟩ := h
  exact ⟨mem, u, q, m, s, hu, rfl⟩

theorem setMethod (h : InPlace text c d) (method : Method) :
    InPlace text c { d with method := method } := by
  obtain ⟨mem, u, v, m, s, hu, rfl⟩ := h
  exact ⟨mem, u, v, method, s, hu, rfl⟩

theorem setCheckState (h : InPlace text c d) (state : CheckState) :
    InPlace text c { d with checkState := state } := by
  obtain ⟨mem, u, v, m, s, hu, rfl⟩ := h
  exact ⟨mem, u, v, m, state, hu, rfl⟩

theorem setStorage (h : InPlace text c d) (hq : text.From q) (mem : List UInt8) :
    InPlace text c (d.setStorage q mem) := by
  rcases hq with rfl | ⟨pos, rfl⟩
  · exact h
  · obtain ⟨mem', u, v, m, s, hu, rfl⟩ := h
    rw [setStorage_moveTo]
    exact ⟨mem, u, v, m, s, hu, by cases text <;> rfl⟩

theorem writing (h : InPlace text c d) (hq : text.From q)
    (f : List UInt8 → Nat → Option (List UInt8)) :
    Ensures (InPlace text c) (d.writing q f) :=
  ensures_mono (writing_spec d q f) fun _ ⟨mem, hmem⟩ => hmem ▸ h.setStorage hq mem

theorem putNul (h : InPlace text c d) (hq : text.From q) (n : Nat) :
    Ensures (InPlace text c) (d.putNul q n) :=
  ensures_mono (putNul_spec d q n) fun _ ⟨mem, hmem⟩ => hmem ▸ h.setStorage hq mem

end InPlace

theorem stripScheme_spec (h : InPlace text c d) (scheme : List UInt8) :
    Ensures (InPlace text c) (d.stripScheme scheme) := by
  unfold stripScheme
  refine ensures_bind_eq fun starts _ => ensures_ite (fun _ => ?_) fun _ => ensures_some h
  exact ensures_bind_eq fun url hurl =>
    ensures_some (h.setUrl ((h.url.add _).trans (search_from hurl)))

/-- What `parseRequestLine` and its parts end in: rejected, or on to the headers. -/
def LineDone (text : Ptr) (c : HttpConnection) (r : HttpConnection × HttpCode) : Prop :=
  InPlace text c r.1 ∧
    (r.2 = .BAD_REQUEST ∨ r.2 = .NO_REQUEST ∧ r.1.checkState = .CHECK_STATE_HEADER)

theorem parseUrl_spec (h : InPlace text c d) : Ensures (LineDone text c) d.parseUrl := by
  unfold parseUrl
  refine ensures_bind (stripScheme_spec h _) fun c₁ h₁ => ?_
  refine ensures_bind (stripScheme_spec h₁ _) fun c₂ h₂ => ?_
  refine ensures_ite (fun _ => ensures_some ⟨h₂, .inl rfl⟩) fun _ => ?_
  refine ensures_bind_eq fun first _ => ?_
  refine ensures_ite (fun _ => ensures_some ⟨h₂, .inl rfl⟩) fun _ => ?_
  -- the url `/` gets a page appended in the buffer
  refine ensures_bind_eq fun len _ => ensures_bind (P := InPlace text c) ?_ fun c₃ h₃ => ?_
  · exact ensures_ite (fun _ => h₂.writing h₂.url _) fun _ => ensures_some h₂
  · exact ensures_some ⟨h₃.setCheckState _, .inr ⟨rfl, rfl⟩⟩

theorem parseVersion_spec (h : InPlace text c d) : Ensures (LineDone text c) d.parseVersion := by
  unfold parseVersion
  refine ensures_bind_eq fun url hurl => ?_
  have h₁ := h.setUrl (h.url.trans (skipBlanks_from hurl))
  refine ensures_bind_eq fun version hversion => ?_
  have hv : text.From version := h₁.url.trans (search_from hversion)
  have h₂ := h₁.setVersion version
  refine ensures_ite (fun _ => ensures_some ⟨h₂, .inl rfl⟩) fun _ => ?_
  -- the NUL behind the url
  refine ensures_bind (h₂.putNul hv 0) fun c₁ h₃ => ?_
  refine ensures_bind_eq fun version' _ => ensures_bind_eq fun same _ => ?_
  exact ensures_ite (fun _ => parseUrl_spec (h₃.setVersion _))
    fun _ => ensures_some ⟨h₃.setVersion _, .inl rfl⟩

theorem parseRequestLine_spec (c : HttpConnection) (text : Ptr) :
    Ensures (LineDone text c) (c.parseRequestLine text) := by
  unfold parseRequestLine
  refine ensures_bind_eq fun url hurl => ?_
  have hu : text.From url := search_from hurl
  have h := inPlace_url c hu
  refine ensures_ite (fun _ => ensures_some ⟨h, .inl rfl⟩) fun _ => ?_
  -- the NUL behind the method
  refine ensures_bind (h.putNul hu 0) fun c₁ h₁ => ?_
  have h₂ := h₁.setUrl (hu.add 1)
  refine ensures_bind_eq fun method _ => ?_
  cases method with
  | none => exact ensures_some ⟨h₂, .inl rfl⟩
  | some method => exact parseVersion_spec (h₂.setMethod method)

/-- A header sets members of the request; only an empty line ends the headers. -/
theorem parseHeaders_spec (c : HttpConnection) (text : Ptr) :
    Ensures (fun r => r.2 ≠ .BAD_REQUEST ∧ ∃ state linger length host,
        r.1 = { c with
          checkState := state, linger := linger, ContentLength := length, host := host } ∧
        (state = c.checkState ∨ state = .CHECK_STATE_CONTENT))
      (c.parseHeaders text) := by
  unfold parseHeaders
  refine ensures_bind_eq fun first _ => ensures_ite (fun _ => ?_) fun _ => ?_
  · -- the empty line: a body is expected, or the request is complete
    exact ensures_ite (fun _ => ensures_some ⟨nofun, _, _, _, _, rfl, .inr rfl⟩)
      fun _ => ensures_some ⟨nofun, _, _, _, _, rfl, .inl rfl⟩
  refine ensures_bind_eq fun connection _ => ensures_ite (fun _ => ?_) fun _ => ?_
  · refine ensures_bind_eq fun value _ => ensures_bind_eq fun keep _ => ?_
    exact ensures_ite (fun _ => ensures_some ⟨nofun, _, _, _, _, rfl, .inl rfl⟩)
      fun _ => ensures_some ⟨nofun, _, _, _, _, rfl, .inl rfl⟩
  refine ensures_bind_eq fun length _ => ensures_ite (fun _ => ?_) fun _ => ?_
  · exact ensures_bind_eq fun value _ => ensures_bind_eq fun n _ =>
      ensures_some ⟨nofun, _, _, _, _, rfl, .inl rfl⟩
  refine ensures_bind_eq fun host _ => ensures_ite (fun _ => ?_)
    fun _ => ensures_some ⟨nofun, _, _, _, _, rfl, .inl rfl⟩
  exact ensures_bind_eq fun value _ => ensures_some ⟨nofun, _, _, _, _, rfl, .inl rfl⟩

/-- A body is incomplete, or it gets its NUL and `string_` points at it. -/
theorem parseContent_spec (c : HttpConnection) (text : Ptr) :
    Ensures (fun r => r = (c, .NO_REQUEST) ∨
        ∃ mem, r = ({ c.setStorage text mem with string := text }, .GET_REQUEST))
      (c.parseContent text) := by
  unfold parseContent
  refine ensures_ite (fun _ => ?_) fun _ => ensures_some (.inl rfl)
  refine ensures_bind (putNul_spec c text _) fun d ⟨mem, hd⟩ => ensures_some (.inr ⟨mem, ?_⟩)
  rw [hd]

end Specs

end HttpWebserver.HttpConnection
