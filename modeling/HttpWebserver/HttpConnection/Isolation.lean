import HttpWebserver.HttpConnection.KeepAlive
import HttpWebserver.HttpConnection.StaleInput

/-!
# HttpConnection — requests kept apart

`Isolated` compares a connection that has served requests with one that was just constructed: do
they answer alike whatever comes next? Each connection reads the next request into its own input
buffer, the old one behind the bytes of the requests before.

* **`isolated_iff`** — they do when every earlier request was turned down at its request line, the
  bytes it left in the input buffer are within those of the shortest request line, and the members
  that are never initialised happen to hold the same. Where they do, the earlier requests were
  turned down and those members, but for `string_`, are the same.
* `old_request_in_path` — a request that was not turned down shows in the next path, and so do
  bytes behind those of the shortest request line.

`init()` leaves `realFile_`, `linger_`, `ContentLength_`, `cgi_` and the storage of the input
buffer alone, and the constructor does not initialise `linger_`, `ContentLength_`, `cgi_` and
`string_`.

The two runs are related read by read (`SideBySide`): up to the request line by what has been
written to the input buffers since, and behind it, when the buffers are the same, by `Matched`.
-/

namespace HttpWebserver.HttpConnection

open CString Machine MachineInt PartialRules Storage

/-- The answers of the two connections to whatever comes next are the same. -/
def Isolated (lineOf : HttpConnection → Ptr) (c d : HttpConnection) : Prop :=
  ∀ site w chunks, answer lineOf site w c chunks = answer lineOf site w d chunks

/-! ## Two connections side by side

A connection that has served requests stands beside a new one. They are run on the same chunks,
and `SideBySide` is kept by each read and by the loop behind it, up to the verdict. -/

/-- At a request line: the members agree, and the input buffers where they have been written. -/
structure Near (stop : Nat) (c d : HttpConnection) : Prop where
  members : Alike { c with inputBuffer := d.inputBuffer } d
  input : Follow stop c.inputBuffer d.inputBuffer
  checkState : c.checkState = .CHECK_STATE_REQUESTLINE
  startLine : c.startLine = .null ∧ d.startLine = .null

/-- Between two reads: the request line is awaited, or it has been accepted on both. -/
def SideBySide (lineOf : HttpConnection → Ptr) (stop : Nat) (c d : HttpConnection) : Prop :=
  Near stop c d ∨ lineOf = lineStart ∧ Matched c d

/-- Two runs of the loop with the same answer, and what they leave for the next read. -/
inductive Together (lineOf : HttpConnection → Ptr) (stop : Nat) :
    ReadOutcome World → ReadOutcome World → Prop where
  | returned {c d : HttpConnection} (w : World) (ret : HttpCode)
    (hanswer : answerOf c ret = answerOf d ret)
    (hnext : ret = .NO_REQUEST → SideBySide lineOf stop c d) :
    Together lineOf stop (.returned w c ret) (.returned w d ret)
  | undefined : Together lineOf stop .undefined .undefined
  | outOfFuel : Together lineOf stop .outOfFuel .outOfFuel

section SideBySide

variable {lineOf : HttpConnection → Ptr} {stop : Nat} {c d : HttpConnection} {site : Site}
  {w : World}

theorem answerOf_alike {ret : HttpCode} (h : Alike c d)
    (hurl : ¬ (ret = .NO_REQUEST ∧ c.checkState = .CHECK_STATE_REQUESTLINE) →
      c.url = d.url ∧ c.url.Local) : answerOf c ret = answerOf d ret := by
  unfold answerOf
  rw [← h.checkState, h.method, h.ContentLength, h.linger, h.cgi, h.realFile, h.fileAddress]
  congr 1
  by_cases hret : ret = .NO_REQUEST ∧ c.checkState = .CHECK_STATE_REQUESTLINE
  · rw [if_pos hret, if_pos hret]
  · -- the url is part of the answer, and points into the input buffer
    obtain ⟨hsame, hlocal⟩ := hurl hret
    rw [if_neg hret, if_neg hret, ← hsame, h.deref hlocal]

/-! ### At the request line

As long as the request line is awaited only the input buffers may differ, where the connections
have not written yet. -/

theorem Near.checkState' (h : Near stop c d) : d.checkState = .CHECK_STATE_REQUESTLINE :=
  h.members.checkState.symm.trans h.checkState

/-- As long as there is no url, the input buffer is no part of the answer. -/
theorem Near.answerOf (h : Near stop c d) :
    c.answerOf .NO_REQUEST = d.answerOf .NO_REQUEST := by
  have hsame : HttpConnection.answerOf { c with inputBuffer := d.inputBuffer } .NO_REQUEST
      = d.answerOf .NO_REQUEST :=
    answerOf_alike h.members fun hne => absurd ⟨rfl, h.checkState⟩ hne
  rw [← hsame]
  unfold HttpConnection.answerOf
  rw [if_pos ⟨rfl, h.checkState⟩, if_pos ⟨rfl, h.checkState⟩]

/-- With the same input buffer the connections are alike altogether. -/
theorem Near.matched (h : Near stop c d) (hinput : d.inputBuffer = c.inputBuffer) :
    Matched c d := by
  have halike := h.members
  rw [hinput] at halike
  exact ⟨halike, fun hne => absurd h.checkState hne⟩

theorem Near.scanned (h : Near stop c d) {b b' : Buffer} (hfollow : Follow stop b b') :
    Near stop { c with inputBuffer := b } { d with inputBuffer := b' } where
  members := { h.members with inputBuffer := rfl }
  input := hfollow
  checkState := h.checkState
  startLine := h.startLine

theorem Near.read (h : Near stop c d) (readv : Readv) :
    Option.Rel (fun r s => Near stop r.1 s.1 ∧ r.2 = s.2) (c.read readv) (d.read readv) := by
  unfold HttpConnection.read
  refine rel_bind (h.input.readFd readv) ?_
  rintro ⟨b, n⟩ ⟨b', n'⟩ ⟨hfollow, rfl⟩
  exact rel_ite Iff.rfl (fun _ => rel_some ⟨h.scanned hfollow, rfl⟩)
    fun _ => rel_some ⟨h.scanned hfollow, rfl⟩

/-- A null pointer is no request line, and no line is turned down. -/
theorem processReadFrom_getLine {b : Buffer} (hstate : c.checkState = .CHECK_STATE_REQUESTLINE)
    (hnull : c.startLine = .null) (hscan : scanLine c.inputBuffer = some (b, .LINE_OK))
    (site : Site) (w : World) :
    ∃ calls, processReadFrom getLine (handlers site) w c = some (.undefined, calls) := by
  obtain ⟨calls, hrun⟩ := processReadFrom_line getLine hstate hscan site w
  rw [show getLine c = .null from hnull] at hrun
  exact ⟨calls, hrun⟩

/-- Both turn down a line that is shorter than any request line. -/
theorem Near.rejected {mark : Nat} {b b' : Buffer} (h : Near stop c d)
    (hinput : SameInput mark stop c.inputBuffer d.inputBuffer)
    (hshort : c.inputBuffer.writerIndex < kCheapPrepend + shortestLine)
    (hscan : scanLine c.inputBuffer = some (b, .LINE_OK))
    (hscan' : scanLine d.inputBuffer = some (b', .LINE_OK)) (hsame : SameInput mark stop b b') :
    Option.Rel (fun r s => Together lineStart stop r.1 s.1)
      (processReadFrom lineStart (handlers site) w c)
      (processReadFrom lineStart (handlers site) w d) := by
  obtain ⟨e, e', hreq, hreq', hmethod, hurl⟩ := rejected_before hinput hshort hscan hsame
    (c.atRequestLine b) (d.atRequestLine b') rfl rfl h.members.method.symm
  have htext : d.lineStart = .input c.inputBuffer.peek := congrArg Ptr.input hinput.peek
  rw [← htext] at hreq'
  obtain ⟨_, hrun⟩ := processReadFrom_rejected lineStart h.checkState hscan hreq site w
  obtain ⟨_, hrun'⟩ := processReadFrom_rejected lineStart h.checkState' hscan' hreq' site w
  rw [hrun, hrun']
  refine rel_some (.returned w .BAD_REQUEST ?_ nofun)
  -- the members that the answer shows besides are those of the two connections
  obtain ⟨hframe, -⟩ := parseRequestLine_frame _ _ _ hreq
  obtain ⟨hframe', -⟩ := parseRequestLine_frame _ _ _ hreq'
  have hne : ¬ (HttpCode.BAD_REQUEST = .NO_REQUEST ∧ e.checkState = .CHECK_STATE_REQUESTLINE) :=
    fun hboth => absurd hboth.1 (by decide)
  have hne' : ¬ (HttpCode.BAD_REQUEST = .NO_REQUEST ∧ e'.checkState = .CHECK_STATE_REQUESTLINE) :=
    fun hboth => absurd hboth.1 (by decide)
  unfold HttpConnection.answerOf
  rw [if_neg hne, if_neg hne', hmethod, hurl]
  congr 1
  · exact hframe.ContentLength.trans (h.members.ContentLength.trans hframe'.ContentLength.symm)
  · exact hframe.linger.trans (h.members.linger.trans hframe'.linger.symm)
  · exact hframe.cgi.trans (h.members.cgi.trans hframe'.cgi.symm)
  · exact hframe.realFile.trans (h.members.realFile.trans hframe'.realFile.symm)
  · exact hframe.fileAddress.trans (h.members.fileAddress.trans hframe'.fileAddress.symm)

/-! ### The loop -/

theorem processReadFrom_matched (h : Matched c d) :
    Option.Rel (fun r s => Together lineStart stop r.1 s.1)
      (processReadFrom lineStart (handlers site) w c)
      (processReadFrom lineStart (handlers site) w d) := by
  have hloop := processReadLoop_alike h site (c.inputBuffer.readableBytes + 2) w .LINE_OK [] []
  unfold processReadFrom
  rw [← h.1.inputBuffer]
  refine rel_mono hloop fun r s houtcome => ?_
  obtain ⟨x, _⟩ := r
  obtain ⟨y, _⟩ := s
  cases houtcome with
  | returned w ret halike hurl =>
    refine .returned w ret (answerOf_alike halike hurl) fun _ => .inr ⟨rfl, halike, ?_⟩
    exact fun hstate => hurl fun hboth => hstate hboth.2
  | undefined => exact .undefined
  | outOfFuel => exact .outOfFuel

theorem processReadFrom_near (hline : lineOf = getLine ∨ lineOf = lineStart)
    (hstop : stop ≤ kCheapPrepend + shortestLine) (h : Near stop c d) :
    Option.Rel (fun r s => Together lineOf stop r.1 s.1)
      (processReadFrom lineOf (handlers site) w c)
      (processReadFrom lineOf (handlers site) w d) := by
  rcases rel_cases (scanLine_follow h.input) with ⟨hscan, hscan'⟩ |
    ⟨⟨b, status⟩, ⟨b', status'⟩, hscan, hscan', hfollow, hstatus⟩
  · -- the scanner is undefined on both connections or on neither
    rw [processReadFrom_none h.checkState hscan, processReadFrom_none h.checkState' hscan']
    exact .none
  dsimp only at hstatus hfollow
  subst hstatus
  by_cases hopen : status = .LINE_OK
  · subst hopen
    rcases hline with rfl | rfl
    · -- the code's `getLine()` returns a null pointer on both sides
      obtain ⟨_, hrun⟩ := processReadFrom_getLine h.checkState h.startLine.1 hscan site w
      obtain ⟨_, hrun'⟩ := processReadFrom_getLine h.checkState' h.startLine.2 hscan' site w
      rw [hrun, hrun']
      exact rel_some .undefined
    rcases h.input with hinput | ⟨mark, hinput⟩
    · exact processReadFrom_matched (h.matched hinput)
    by_cases hle : stop ≤ mark
    · exact processReadFrom_matched (h.matched (hinput.eq_of_le (.inl hle)))
    · -- less has been written than a request line takes
      have hwritten := hinput.written
      obtain ⟨hsame, -⟩ : SameScan mark stop (b, .LINE_OK) (b', .LINE_OK) := by
        have hscanned := scanLine_same hinput
        rw [hscan, hscan'] at hscanned
        cases hscanned with
        | some hscanned => exact hscanned
      exact h.rejected hinput (by omega) hscan hscan' hsame
  · -- no line yet, so what is left is near again
    rw [processReadFrom_open h.checkState hscan hopen,
      processReadFrom_open h.checkState' hscan' hopen]
    have hnear := h.scanned hfollow
    exact rel_some (.returned w .NO_REQUEST hnear.answerOf fun _ => .inl hnear)

/-! ### The reads of a request -/

theorem Matched.read (h : Matched c d) (readv : Readv) :
    Option.Rel (fun r s => Matched r.1 s.1 ∧ r.2 = s.2) (c.read readv) (d.read readv) := by
  unfold HttpConnection.read
  rw [← h.1.inputBuffer]
  refine rel_bind_same fun r _ => ?_
  have hread : Matched { c with inputBuffer := r.1 } { d with inputBuffer := r.1 } :=
    ⟨{ h.1 with inputBuffer := rfl }, h.2⟩
  exact rel_ite Iff.rfl (fun _ => rel_some ⟨hread, rfl⟩) fun _ => rel_some ⟨hread, rfl⟩

theorem SideBySide.read (h : SideBySide lineOf stop c d) (readv : Readv) :
    Option.Rel (fun r s => SideBySide lineOf stop r.1 s.1 ∧ r.2 = s.2) (c.read readv)
      (d.read readv) := by
  rcases h with hnear | ⟨hline, hmatched⟩
  · exact rel_mono (hnear.read readv) fun _ _ h => ⟨.inl h.1, h.2⟩
  · exact rel_mono (hmatched.read readv) fun _ _ h => ⟨.inr ⟨hline, h.1⟩, h.2⟩

theorem SideBySide.enableReading (h : SideBySide lineOf stop c d) :
    SideBySide lineOf stop c.enableReading d.enableReading := by
  rcases h with ⟨hmembers, hinput, hstate, hnull⟩ | ⟨hline, halike, hurl⟩
  · exact .inl ⟨{ hmembers with }, hinput, hstate, hnull⟩
  · exact .inr ⟨hline, { halike with }, hurl⟩

theorem SideBySide.answerOf (h : SideBySide lineOf stop c d) :
    c.answerOf .NO_REQUEST = d.answerOf .NO_REQUEST := by
  rcases h with hnear | ⟨-, halike, hurl⟩
  · exact hnear.answerOf
  · exact answerOf_alike halike fun hne => hurl fun hstate => hne ⟨rfl, hstate⟩

/-- Two connections that stand beside each other answer a request alike. -/
theorem resolve_sideBySide (hline : lineOf = getLine ∨ lineOf = lineStart)
    (hstop : stop ≤ kCheapPrepend + shortestLine) (h : SideBySide lineOf stop c d)
    (chunks : List (List UInt8)) :
    Option.Rel (fun r s => r.2.1.answerOf r.2.2 = s.2.1.answerOf s.2.2)
      (resolve lineOf site w c chunks) (resolve lineOf site w d chunks) := by
  -- induction on the reads
  induction chunks generalizing w c d with
  | nil => exact rel_some h.answerOf
  | cons chunk chunks ih =>
    unfold resolve
    refine rel_bind (h.read (.bytes chunk)) ?_
    rintro ⟨c₁, ok⟩ ⟨d₁, ok'⟩ ⟨h₁, rfl⟩
    refine rel_ite Iff.rfl (fun _ => ?_) fun _ => rel_some h₁.answerOf
    have hrun : Option.Rel (fun r s => Together lineOf stop r.1 s.1)
        (processReadFrom lineOf (handlers site) w c₁)
        (processReadFrom lineOf (handlers site) w d₁) := by
      rcases h₁ with hnear | ⟨rfl, hmatched⟩
      · exact processReadFrom_near hline hstop hnear
      · exact processReadFrom_matched hmatched
    refine rel_bind hrun ?_
    rintro ⟨x, _⟩ ⟨y, _⟩ houtcome
    cases houtcome with
    | returned w ret hanswer hnext =>
      exact rel_ite Iff.rfl (fun hret => ih (hnext hret).enableReading)
        fun _ => rel_some hanswer
    | undefined => exact .none
    | outOfFuel => exact .none

theorem isolated_of_sideBySide (hline : lineOf = getLine ∨ lineOf = lineStart)
    (hstop : stop ≤ kCheapPrepend + shortestLine) (h : SideBySide lineOf stop c d) :
    Isolated lineOf c d := by
  intro site w chunks
  rcases rel_cases (resolve_sideBySide hline hstop h chunks) with ⟨hc, hd⟩ | ⟨r, s, hc, hd, hsame⟩
  · rw [answer, answer, hc, hd]
  · rw [answer, answer, hc, hd]
    exact congrArg some hsame

end SideBySide

/-! ## What the next request shows

The converse: a request that is an empty line is turned down, and its answer shows the members
that a served request has left. -/

section Shown

variable {lineOf : HttpConnection → Ptr} {c d : HttpConnection} {site : Site} {w : World}

/-- The answer of a connection that has no url yet. -/
def blank (c : HttpConnection) (ret : HttpCode) : Answer where
  verdict := ret
  method := c.method
  url := none
  contentLength := c.ContentLength
  linger := c.linger
  cgi := c.cgi
  realFile := c.realFile
  fileAddress := c.fileAddress

/-- As long as nothing has arrived. -/
theorem answer_nil (hc : c.AtRest) : answer lineOf site w c [] = some (c.blank .NO_REQUEST) := by
  rw [answer, resolve, Option.map_some, answerOf, if_pos ⟨rfl, hc.checkState⟩]
  rfl

/-- A request that consists of an empty line. -/
def emptyLine : List (List UInt8) := [[CR, LF]]

/-- The empty line is turned down, and shows what the members hold. -/
theorem answer_emptyLine (hc : c.AtRest) (hwf : c.inputBuffer.WellFormed)
    (hroom : 2 ≤ c.inputBuffer.writableBytes) :
    answer lineStart site w c emptyLine = some (c.blank .BAD_REQUEST) := by
  have hempty : c.inputBuffer.readable = [] := by
    apply List.eq_nil_of_length_eq_zero
    rw [hwf.readable_length_eq, hc.readerIndex, hc.writerIndex, Nat.sub_self]
  -- the two bytes arrive in the free storage
  obtain ⟨b, hread, hb, -⟩ := Buffer.readFd_spec hwf
    (show ([CR, LF] : List UInt8).length < 2 ^ 31 by decide)
    fun hcompacts => absurd hcompacts.1 (Nat.not_lt.mpr hroom)
  have hreadable : b.readable = CR :: LF :: [] := by
    rw [hb.readable hwf, hempty]
    rfl
  have hrest : c.read (.bytes [CR, LF]) = some ({ c with inputBuffer := b }, true) := by
    rw [read, hread]
    rfl
  -- NULs take their place, so there is no word at the start of the line
  have hscan : scanLine b = some (delimited b 0, .LINE_OK) :=
    scanLine_line (show Bare [] from fun _ h => absurd h List.not_mem_nil) hb.wellFormed hreadable
  obtain ⟨-, -, hbuffer⟩ := delimited_nil hb.wellFormed hreadable
  have htext : StringAt ({ c with inputBuffer := b }.atRequestLine (delimited b 0))
      (lineStart { c with inputBuffer := b }) (delimited b 0).buffer [] := by
    refine ⟨rfl, cString_eq_some_iff.mpr ⟨List.not_mem_nil,
      0 :: b.buffer.drop (b.readerIndex + 2), ?_⟩⟩
    show (delimited b 0).buffer.drop b.readerIndex = _
    rw [hbuffer, drop_overwrite_self (Nat.le_trans hb.wellFormed.order hb.wellFormed.inside)]
    rfl
  obtain ⟨calls, hrun⟩ := processReadFrom_rejected lineStart
    (c := { c with inputBuffer := b }) hc.checkState hscan
    (parseRequestLine_no_blank htext (fun _ h => absurd h List.not_mem_nil)) site w
  rw [answer, emptyLine, resolve_verdict hrest hrun nofun]
  rfl

/-- A connection with a path or other values in these members than a connection without a path
does not answer like it. -/
theorem members_of_isolated (hline : lineOf = getLine ∨ lineOf = lineStart) (hc : c.AtRest)
    (hd : d.AtRest) (hpath : d.realFile = []) (hwf : d.inputBuffer.WellFormed)
    (hroom : 2 ≤ d.inputBuffer.writableBytes) (h : Isolated lineOf c d) :
    c.realFile = [] ∧ c.linger = d.linger ∧ c.ContentLength = d.ContentLength ∧
      c.cgi = d.cgi := by
  rcases hline with rfl | rfl
  · have hsame := h sampleSite sampleWorld []
    rw [answer_nil hc, answer_nil hd] at hsame
    have hblank := Option.some.inj hsame
    exact ⟨(congrArg Answer.realFile hblank).trans hpath, congrArg Answer.linger hblank,
      congrArg Answer.contentLength hblank, congrArg Answer.cgi hblank⟩
  · have hsame := h sampleSite sampleWorld emptyLine
    rw [answer_emptyLine hd hwf hroom] at hsame
    obtain ⟨⟨w, e, ret⟩, hrun, hblank⟩ := Option.map_eq_some_iff.mp hsame
    have hverdict : ret = .BAD_REQUEST := congrArg Answer.verdict hblank
    have hnil : e.realFile = [] := (congrArg Answer.realFile hblank).trans hpath
    have hbefore := (resolve_grows hrun).1
    rw [hnil] at hbefore
    -- the verdict was reached without a path, so at the request line
    rcases resolve_cases hc.checkState hrun with ⟨-, hframe⟩ | ⟨-, hne⟩
    · exact ⟨List.prefix_nil.mp hbefore,
        hframe.linger.symm.trans (congrArg Answer.linger hblank),
        hframe.ContentLength.symm.trans (congrArg Answer.contentLength hblank),
        hframe.cgi.symm.trans (congrArg Answer.cgi hblank)⟩
    · rcases hne with hne | hopen
      · exact absurd hnil hne
      · rw [hverdict] at hopen
        cases hopen

end Shown

/-! ## Isolation

A request that was turned down at its request line leaves the members as `init()` had them. One
that was not leaves its path in `realFile_`, which `init()` does not clear. -/

/-- The members that nothing initialises hold the same in the storage of two connections;
`string_` is read only where `cgi_` is 1. -/
structure SameRemains (raw raw' : HttpConnection) : Prop where
  linger : raw.linger = raw'.linger
  ContentLength : raw.ContentLength = raw'.ContentLength
  cgi : raw.cgi = raw'.cgi
  string : raw.cgi = 1 → raw.string = raw'.string ∧ raw.string.Local

/-- What `init()` leaves in the storage of the input buffer is what a new one has there, but for
the bytes of the shortest request line. -/
def CleanInput (c : HttpConnection) : Prop :=
  SameOutside kCheapPrepend (kCheapPrepend + shortestLine) (Buffer.new readBufferSize).buffer
    c.inputBuffer.buffer

section Isolation

variable {lineOf : HttpConnection → Ptr} {raw raw' c : HttpConnection}
  {this this' sockfd sockfd' : Nat} {poller poller' : EpollPoller} {root : List UInt8}
  {visits : List Visit}

theorem new_atRest (raw : HttpConnection) (this sockfd : Nat) (poller : EpollPoller)
    (root : List UInt8) : (new raw this sockfd poller root).init.AtRest :=
  ⟨rfl, rfl, rfl, rfl, rfl⟩

/-- After requests that left nothing behind, the connection is beside a new one. -/
theorem near_of_rejected
    (hrun : exec (serve lineOf) (new raw this sockfd poller root).init visits = some c)
    (hrej : Along (serve lineOf) (RejectedAt lineOf) (new raw this sockfd poller root).init visits)
    (hraw : SameRemains raw raw') (hclean : CleanInput c) :
    Near (kCheapPrepend + shortestLine) (new raw' this' sockfd' poller' root).init c := by
  -- rejected visits leave every member but the input buffer as the constructor and `init` left it
  have hframe := exec_rejected (new_atRest raw this sockfd poller root) hrun hrej
  obtain ⟨hrest, -⟩ := exec_grows (new_atRest raw this sockfd poller root) hrun
  refine ⟨?members, .inr ⟨kCheapPrepend, ?input⟩, rfl, rfl, hrest.startLine⟩
  case members =>
    constructor
    case docRoot => exact hframe.docRoot.symm
    case inputBuffer => rfl
    case checkState => exact hrest.checkState.symm
    case method => exact hrest.method.symm
    case realFile => exact hframe.realFile.symm
    case fileAddress => exact hframe.fileAddress.symm
    case linger => exact (hframe.linger.trans hraw.linger).symm
    case ContentLength => exact (hframe.ContentLength.trans hraw.ContentLength).symm
    case cgi => exact (hframe.cgi.trans hraw.cgi).symm
    case string =>
      intro hone
      obtain ⟨hsame, hlocal⟩ := hraw.string (hraw.cgi.trans hone)
      exact ⟨(hframe.string.trans hsame).symm, hsame ▸ hlocal⟩
  -- both input buffers are empty, and agree outside the 16 bytes of a shortest line
  case input =>
    exact ⟨(Buffer.retrieveAll_spec (Buffer.new_wellFormed readBufferSize)).1, hrest.readerIndex,
      hrest.writerIndex, Nat.le_refl _, hclean⟩

theorem isolated_of_rejected (hline : lineOf = getLine ∨ lineOf = lineStart)
    (hrun : exec (serve lineOf) (new raw this sockfd poller root).init visits = some c)
    (hrej : Along (serve lineOf) (RejectedAt lineOf) (new raw this sockfd poller root).init visits)
    (hraw : SameRemains raw raw') (hclean : CleanInput c) :
    Isolated lineOf c (new raw' this' sockfd' poller' root).init := fun site w chunks =>
  (isolated_of_sideBySide hline (Nat.le_refl _)
    (.inl (near_of_rejected hrun hrej hraw hclean)) site w chunks).symm

/-- The next request shows what an earlier one or the storage has left. -/
theorem rejected_of_isolated (hline : lineOf = getLine ∨ lineOf = lineStart)
    (hrun : exec (serve lineOf) (new raw this sockfd poller root).init visits = some c)
    (h : Isolated lineOf c (new raw' this' sockfd' poller' root).init) :
    Along (serve lineOf) (RejectedAt lineOf) (new raw this sockfd poller root).init visits ∧
      raw.linger = raw'.linger ∧ raw.ContentLength = raw'.ContentLength ∧ raw.cgi = raw'.cgi := by
  have hstart := new_atRest raw this sockfd poller root
  obtain ⟨hc, -⟩ := exec_grows hstart hrun
  have hwf := (Buffer.retrieveAll_spec (Buffer.new_wellFormed readBufferSize)).1
  have hroom : 2 ≤ (Buffer.new readBufferSize).retrieveAll.writableBytes := by
    rw [hwf.writableBytes_eq]
    simp [Buffer.new, Buffer.retrieveAll, readBufferSize]
  obtain ⟨hfile, hlinger, hlength, hcgi⟩ := members_of_isolated hline hc
    (new_atRest raw' this' sockfd' poller' root) rfl hwf hroom h
  have hrej : Along (serve lineOf) (RejectedAt lineOf)
      (new raw this sockfd poller root).init visits := by
    by_contra hacc
    exact exec_accepted hstart hrun hacc hfile
  have hframe := exec_rejected hstart hrun hrej
  exact ⟨hrej, hframe.linger.symm.trans hlinger, hframe.ContentLength.symm.trans hlength,
    hframe.cgi.symm.trans hcgi⟩

/-- **Keep-alive.** After requests that were all turned down at their request line, with no more
left in the input buffer than the bytes of the shortest one, and in storage that held the same, the
next request is answered as on a new connection. After any other request, or with other values of
`linger_`, `ContentLength_` or `cgi_` in the storage, there is one that is not. -/
theorem isolated_iff (hline : lineOf = getLine ∨ lineOf = lineStart)
    (hrun : exec (serve lineOf) (new raw this sockfd poller root).init visits = some c) :
    (Along (serve lineOf) (RejectedAt lineOf) (new raw this sockfd poller root).init visits ∧
        CleanInput c ∧ SameRemains raw raw' →
      Isolated lineOf c (new raw' this' sockfd' poller' root).init) ∧
      (Isolated lineOf c (new raw' this' sockfd' poller' root).init →
        Along (serve lineOf) (RejectedAt lineOf) (new raw this sockfd poller root).init visits ∧
          raw.linger = raw'.linger ∧ raw.ContentLength = raw'.ContentLength ∧
          raw.cgi = raw'.cgi) :=
  ⟨fun h => isolated_of_rejected hline hrun h.1 h.2.2 h.2.1, rejected_of_isolated hline hrun⟩

/-- A request in zeroed storage, on a site where nothing can be opened. -/
def sampleVisit (chunks : List (List UInt8)) : Visit := ⟨chunks, sampleSite, sampleWorld, zeroed⟩

/-- A line of one word that arrives in two pieces. -/
def oneWord : List (List UInt8) := [ascii "FO", ascii "O" ++ [CR, LF]]

/-- The connection has turned down a line, and kept the `O` of it. -/
theorem isolated_iff_sample :
    ∃ c, exec (serve lineStart) (new zeroed 0 5 EpollPoller.new []).init [sampleVisit oneWord]
        = some c ∧
      Isolated lineStart c (new zeroed 0 6 EpollPoller.new []).init := by
  have hserved : ((exec (serve lineStart) (new zeroed 0 5 EpollPoller.new []).init
      [sampleVisit oneWord]).map fun c => (c.realFile, c.inputBuffer.buffer))
      = some ([], List.replicate kCheapPrepend 0 ++ ascii "O" ++ List.replicate 2047 0) := by
    decide +kernel
  obtain ⟨c, hrun, hleft⟩ := Option.map_eq_some_iff.mp hserved
  have hclean : CleanInput c := by
    rw [CleanInput, show c.inputBuffer.buffer = _ from congrArg Prod.snd hleft]
    exact ⟨by decide +kernel, by decide +kernel, by decide +kernel⟩
  -- without a path the line has been turned down
  have hrej : Along (serve lineStart) (RejectedAt lineStart)
      (new zeroed 0 5 EpollPoller.new []).init [sampleVisit oneWord] := by
    by_contra hacc
    exact exec_accepted (new_atRest zeroed 0 5 EpollPoller.new []) hrun hacc
      (congrArg Prod.fst hleft)
  refine ⟨c, hrun, (isolated_iff (.inr rfl) hrun).1 ⟨hrej, hclean, rfl, rfl, rfl, fun hone => ?_⟩⟩
  exact absurd hone (by decide)

/-- `GET /a`, without headers. -/
def getA : List (List UInt8) := [ascii "GET /a HTTP/1.1" ++ [CR, LF, CR, LF]]

/-- A line that is longer than the shortest request line, and is turned down. -/
def longWord : List (List UInt8) := [List.replicate 20 89 ++ [CR, LF]]

/-- `GET /` with the empty line in the second read, and the beginning of another request. -/
def twoReads : List (List UInt8) :=
  [ascii "GET / HTTP/1.1" ++ [CR, LF], [CR, LF] ++ ascii "xx/xxxxxxxxxxx"]

/-- The path of the request `next` behind the request `earlier`. -/
def pathBehind (earlier next : List (List UInt8)) : Option (List UInt8) :=
  (exec (serve lineStart) (new zeroed 0 5 EpollPoller.new (ascii "/w")).init
    [sampleVisit earlier]).bind fun c =>
      (answer lineStart sampleSite sampleWorld c next).map (·.realFile)

/-- The path of the request `next` on a new connection. -/
def pathAlone (next : List (List UInt8)) : Option (List UInt8) :=
  (answer lineStart sampleSite sampleWorld
    (new zeroed 0 6 EpollPoller.new (ascii "/w")).init next).map (·.realFile)

theorem not_isolated_of_path {earlier next : List (List UInt8)} {path : List UInt8}
    (hbehind : pathBehind earlier next = some path) (hne : pathAlone next ≠ some path) :
    ∃ c, exec (serve lineStart) (new zeroed 0 5 EpollPoller.new (ascii "/w")).init
        [sampleVisit earlier] = some c ∧
      ¬ Isolated lineStart c (new zeroed 0 6 EpollPoller.new (ascii "/w")).init := by
  obtain ⟨c, hrun, hpath⟩ := Option.bind_eq_some_iff.mp hbehind
  refine ⟨c, hrun, fun h => hne ?_⟩
  rw [pathAlone, ← h sampleSite sampleWorld next]
  exact hpath

/-- The same request twice on one connection: the second path stands behind the first. And a line
that was turned down: bytes of it stand behind the next path. -/
theorem old_request_in_path :
    (pathBehind getA getA = some (ascii "/w/a/w/a") ∧ pathAlone getA = some (ascii "/w/a") ∧
      ∃ c, exec (serve lineStart) (new zeroed 0 5 EpollPoller.new (ascii "/w")).init
          [sampleVisit getA] = some c ∧
        ¬ Isolated lineStart c (new zeroed 0 6 EpollPoller.new (ascii "/w")).init) ∧
    (pathBehind longWord twoReads = some (ascii "/w/xxxxxxxxxxxYYYY") ∧
      pathAlone twoReads = some (ascii "/w/xxxxxxxxxxx") ∧
      ∃ c, exec (serve lineStart) (new zeroed 0 5 EpollPoller.new (ascii "/w")).init
          [sampleVisit longWord] = some c ∧
        ¬ Isolated lineStart c (new zeroed 0 6 EpollPoller.new (ascii "/w")).init) := by
  have hagain : pathBehind getA getA = some (ascii "/w/a/w/a") := by decide +kernel
  have hfirst : pathAlone getA = some (ascii "/w/a") := by decide +kernel
  have hstale : pathBehind longWord twoReads = some (ascii "/w/xxxxxxxxxxxYYYY") := by
    decide +kernel
  have hfresh : pathAlone twoReads = some (ascii "/w/xxxxxxxxxxx") := by decide +kernel
  refine ⟨⟨hagain, hfirst, not_isolated_of_path hagain ?_⟩, hstale, hfresh,
    not_isolated_of_path hstale ?_⟩
  · rw [hfirst]
    decide
  · rw [hfresh]
    decide

end Isolation

end HttpWebserver.HttpConnection
