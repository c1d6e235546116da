import HttpWebserver.HttpConnection.Alike
import HttpWebserver.HttpConnection.Write

/-!
# HttpConnection — one request after another

A connection that serves requests, each followed by `init()`. A request arrives in any number of
reads (`resolve`); `serve` is a request from its first byte to the `init()` behind its response.

* `RejectedAt`: the request got no further than its request line, which was turned down;
* `exec_rejected`: such requests leave the members alone that a later request reads;
* `exec_accepted`: any other leaves a path in `realFile_`, which `init()` does not reset, and
  `doRequest` only appends to it.

`answer` is what parsing and resolving a request comes to. Where the lines of a request are found is
a parameter: with the `getLine` of the code no request gets past its request line, and with
`lineStart` it does.
-/

namespace HttpWebserver.HttpConnection

open CString Machine MachineInt PartialRules Storage

/-! ## Requests on a connection

A request arrives in chunks, each of them read into the input buffer of the connection, with
whatever an earlier request has left in its storage. -/

/-- A request that arrives in `chunks`. Each is read into the input buffer and handed to the loop
of `processRead`, its lines found by `lineOf`, until there is a verdict. -/
def resolve (lineOf : HttpConnection → Ptr) (site : Site) :
    World → HttpConnection → List (List UInt8) → Option (World × HttpConnection × HttpCode)
  | w, c, [] => some (w, c, .NO_REQUEST)
  | w, c, chunk :: chunks => do
    let (c, ok) ← c.read (.bytes chunk)
    if ok then
      let (outcome, _) ← processReadFrom lineOf (handlers site) w c
      match outcome with
      | .returned w c ret =>
        if ret = .NO_REQUEST then resolve lineOf site w c.enableReading chunks
        else some (w, c, ret)
      | _ => none
    else
      -- an error or the end of the stream: nothing more arrives
      some (w, c, .NO_REQUEST)

/-- What parsing and resolving a request comes to. -/
structure Answer where
  verdict : HttpCode
  method : Method
  url : Option (List UInt8)
  contentLength : Int
  linger : Bool
  cgi : Int
  realFile : List UInt8
  fileAddress : List UInt8
deriving DecidableEq, Repr

def answerOf (c : HttpConnection) (ret : HttpCode) : Answer where
  verdict := ret
  method := c.method
  -- while the request line is awaited there is no url
  url := if ret = .NO_REQUEST ∧ c.checkState = .CHECK_STATE_REQUESTLINE then none
    else c.deref c.url
  contentLength := c.ContentLength
  linger := c.linger
  cgi := c.cgi
  realFile := c.realFile
  fileAddress := c.fileAddress

/-- The answer to the request in `chunks`; `none` is undefined behaviour. -/
def answer (lineOf : HttpConnection → Ptr) (site : Site) (w : World) (c : HttpConnection)
    (chunks : List (List UInt8)) : Option Answer :=
  (resolve lineOf site w c chunks).map fun r => answerOf r.2.1 r.2.2

/-- An earlier request: what each read brought of it, what its handlers met, and what sending the
response left in the members that `processWrite` and `write` work on. -/
structure Visit where
  chunks : List (List UInt8)
  site : Site
  world : World
  sent : HttpConnection

/-- The members of the response. -/
def respond (c sent : HttpConnection) : HttpConnection :=
  { c with
    channel := sent.channel
    poller := sent.poller
    outputBuffer := sent.outputBuffer
    bytesToSend := sent.bytesToSend
    bytesHaveSend := sent.bytesHaveSend
    writeVec := sent.writeVec
    writeIovcnt := sent.writeIovcnt }

/-- A request is served completely: a verdict, the response, `unmap()` and `init()`. -/
def serve (lineOf : HttpConnection → Ptr) (c : HttpConnection) (v : Visit) :
    Option HttpConnection :=
  (resolve lineOf v.site v.world c v.chunks).bind fun r =>
    if r.2.2 = .NO_REQUEST then none else r.2.1.unmap.map fun c => (c.respond v.sent).init

/-- The connection as the request line in `b` finds it. -/
def atRequestLine (c : HttpConnection) (b : Buffer) : HttpConnection :=
  { c with inputBuffer := b, startLine := .output c.outputBuffer.peek }

/-- Between two requests. -/
structure AtRest (c : HttpConnection) : Prop where
  checkState : c.checkState = .CHECK_STATE_REQUESTLINE
  method : c.method = .GET
  startLine : c.startLine = .null
  readerIndex : c.inputBuffer.readerIndex = kCheapPrepend
  writerIndex : c.inputBuffer.writerIndex = kCheapPrepend

/-- The first line of the request in `chunks` is turned down by `parseRequestLine`. -/
def LineRejected (lineOf : HttpConnection → Ptr) : HttpConnection → List (List UInt8) → Prop
  | _, [] => False
  | c, chunk :: chunks => ∃ d b status, c.read (.bytes chunk) = some (d, true) ∧
      scanLine d.inputBuffer = some (b, status) ∧
      if status = .LINE_OK then
        ∃ e, (d.atRequestLine b).parseRequestLine (lineOf d) = some (e, .BAD_REQUEST)
      else LineRejected lineOf { d with inputBuffer := b }.enableReading chunks

/-- An earlier request that got no further than its request line. -/
def RejectedAt (lineOf : HttpConnection → Ptr) (c : HttpConnection) (v : Visit) : Prop :=
  LineRejected lineOf c v.chunks

/-! ## What the line handlers leave alone -/

/-- The members that `parseRequestLine` does not touch, as far as a later request reads them. -/
structure LineFrame (c d : HttpConnection) : Prop where
  docRoot : d.docRoot = c.docRoot
  realFile : d.realFile = c.realFile
  fileAddress : d.fileAddress = c.fileAddress
  linger : d.linger = c.linger
  ContentLength : d.ContentLength = c.ContentLength
  cgi : d.cgi = c.cgi
  string : d.string = c.string

theorem LineFrame.refl (c : HttpConnection) : LineFrame c c := ⟨rfl, rfl, rfl, rfl, rfl, rfl, rfl⟩

theorem LineFrame.trans {c d e : HttpConnection} (h₁ : LineFrame c d) (h₂ : LineFrame d e) :
    LineFrame c e where
  docRoot := h₂.docRoot.trans h₁.docRoot
  realFile := h₂.realFile.trans h₁.realFile
  fileAddress := h₂.fileAddress.trans h₁.fileAddress
  linger := h₂.linger.trans h₁.linger
  ContentLength := h₂.ContentLength.trans h₁.ContentLength
  cgi := h₂.cgi.trans h₁.cgi
  string := h₂.string.trans h₁.string

section Frame

variable {c d : HttpConnection} {p text : Ptr}

theorem InPlace.frame (h : InPlace text c d) : LineFrame c d := by
  obtain ⟨mem, u, v, m, s, -, rfl⟩ := h
  cases text <;> exact ⟨rfl, rfl, rfl, rfl, rfl, rfl, rfl⟩

/-- What `parseRequestLine` and its parts end in: rejected, or on to the headers. -/
def LineEnd (c : HttpConnection) (r : HttpConnection × HttpCode) : Prop :=
  LineFrame c r.1 ∧
    (r.2 = .BAD_REQUEST ∨ r.2 = .NO_REQUEST ∧ r.1.checkState = .CHECK_STATE_HEADER)

theorem parseRequestLine_frame (c : HttpConnection) (text : Ptr) :
    Ensures (LineEnd c) (c.parseRequestLine text) :=
  ensures_mono (parseRequestLine_spec c text) fun _ ⟨h, hend⟩ => ⟨h.frame, hend⟩

/-- What a header or the body does: the request line is behind it, and it is never rejected. -/
def HeaderEnd (c : HttpConnection) (r : HttpConnection × HttpCode) : Prop :=
  r.1.realFile = c.realFile ∧ r.2 ≠ .BAD_REQUEST ∧
    (c.checkState ≠ .CHECK_STATE_REQUESTLINE → r.1.checkState ≠ .CHECK_STATE_REQUESTLINE)

theorem parseHeaders_frame (c : HttpConnection) (text : Ptr) :
    Ensures (HeaderEnd c) (c.parseHeaders text) := by
  refine ensures_mono (parseHeaders_spec c text) fun r ⟨hret, state, _, _, _, hd, hstate⟩ => ?_
  unfold HeaderEnd
  rw [hd]
  refine ⟨rfl, hret, fun h => ?_⟩
  rcases hstate with rfl | rfl
  · exact h
  · exact nofun

theorem parseContent_frame (c : HttpConnection) (text : Ptr) :
    Ensures (HeaderEnd c) (c.parseContent text) := by
  refine ensures_mono (parseContent_spec c text) fun r hr => ?_
  rcases hr with rfl | ⟨mem, rfl⟩
  · exact ⟨rfl, nofun, id⟩
  · refine ⟨setStorage_realFile c text mem, nofun, fun h => ?_⟩
    show (c.setStorage text mem).checkState ≠ _
    rw [setStorage_checkState]
    exact h

end Frame

/-! ## What `doRequest` does to `realFile_` -/

section RealFile

variable {c : HttpConnection} {p text : Ptr}

/-- A result whose path is the one of `c` with something behind it. -/
def Longer (c : HttpConnection) (r : World × HttpConnection × HttpCode) : Prop :=
  ∃ path, path ≠ [] ∧ r.2.1.realFile = c.realFile ++ path

theorem doRequest_realFile (site : Site) (w : World) (c : HttpConnection) :
    Ensures (Longer c) (doRequest site w c) := by
  refine ensures_mono (doRequest_spec site w c) fun r ⟨mem, path, st, file, hne, hd⟩ => ?_
  exact ⟨path, hne, by rw [hd]⟩

end RealFile

/-! ## What the loop does to `realFile_`

Nothing shortens the path: it begins with what earlier requests have left of it. -/

section Loop

variable {c : HttpConnection} {text : Ptr}

/-- The path after a round. -/
def RoundGrows (c : HttpConnection) : Round World → Prop
  | .again d _ => d.realFile = c.realFile ∧ d.checkState ≠ .CHECK_STATE_REQUESTLINE
  | .stop _ d _ => c.realFile <+: d.realFile ∧
      (c.checkState ≠ .CHECK_STATE_REQUESTLINE → d.realFile ≠ [])

/-- The path after the loop: it only gets longer, and behind a request line that was accepted
it is not empty, or more of the request is awaited. -/
def Grows (c : HttpConnection) : ReadOutcome World → Prop
  | .returned _ d ret => c.realFile <+: d.realFile ∧
      (c.checkState ≠ .CHECK_STATE_REQUESTLINE →
        d.realFile ≠ [] ∨ ret = .NO_REQUEST ∧ d.checkState ≠ .CHECK_STATE_REQUESTLINE)
  | .undefined => True
  | .outOfFuel => True

theorem request_grows {d : HttpConnection} (hd : d.realFile = c.realFile) (site : Site)
    (w : World) :
    Ensures (RoundGrows c)
      ((doRequest site w d).bind fun r => some (.stop r.1 r.2.1 r.2.2)) := by
  refine ensures_bind (doRequest_realFile site w d) fun r ⟨path, hne, hpath⟩ => ensures_some ?_
  rw [hd] at hpath
  refine ⟨⟨path, hpath.symm⟩, fun _ hnil => hne ?_⟩
  rw [hpath] at hnil
  exact (List.append_eq_nil_iff.mp hnil).2

theorem dispatch_grows (site : Site) (w : World) (c : HttpConnection) (text : Ptr) :
    Ensures (RoundGrows c) (dispatch (handlers site) w c text) := by
  unfold dispatch
  cases hstate : c.checkState with
  | CHECK_STATE_REQUESTLINE =>
    refine ensures_bind (parseRequestLine_frame c text) fun ⟨d, ret⟩ ⟨hframe, hret⟩ => ?_
    refine ensures_ite (fun _ => ensures_some ⟨?_, fun h => absurd hstate h⟩) fun hgo => ?_
    · rw [show d.realFile = c.realFile from hframe.realFile]
    · obtain ⟨-, hheader⟩ := hret.resolve_left hgo
      refine ensures_some ⟨hframe.realFile, ?_⟩
      rw [show d.checkState = .CHECK_STATE_HEADER from hheader]
      decide
  | CHECK_STATE_HEADER =>
    refine ensures_bind (parseHeaders_frame c text) fun ⟨d, ret⟩ ⟨hd, hret, hnext⟩ => ?_
    refine ensures_ite (fun h => absurd h hret) fun _ => ?_
    exact ensures_ite (fun _ => request_grows hd site w)
      fun _ => ensures_some ⟨hd, hnext (by rw [hstate]; decide)⟩
  | CHECK_STATE_CONTENT =>
    refine ensures_bind (parseContent_frame c text) fun ⟨d, ret⟩ ⟨hd, hret, hnext⟩ => ?_
    exact ensures_ite (fun _ => request_grows hd site w)
      fun _ => ensures_some ⟨hd, hnext (by rw [hstate]; decide)⟩

theorem nextLine_frame (c : HttpConnection) (lineStatus : LineStatus) :
    Ensures (fun r => r.1.realFile = c.realFile ∧ r.1.checkState = c.checkState)
      (c.nextLine lineStatus) := by
  unfold nextLine parseLine
  refine ensures_ite (fun _ => ensures_some ⟨rfl, rfl⟩) fun _ r hr => ?_
  obtain ⟨b, -, rfl⟩ := Option.map_eq_some_iff.mp hr
  exact ⟨rfl, rfl⟩

/-- A round has only moved on in the request. -/
theorem Grows.later {d : HttpConnection} {r : ReadOutcome World}
    (hfile : d.realFile = c.realFile) (hnext : d.checkState ≠ .CHECK_STATE_REQUESTLINE)
    (h : Grows d r) : Grows c r := by
  cases r with
  | returned w e ret =>
    obtain ⟨hpre, hne⟩ := h
    rw [hfile] at hpre
    exact ⟨hpre, fun _ => hne hnext⟩
  | undefined => trivial
  | outOfFuel => trivial

theorem processReadLoop_grows (lineOf : HttpConnection → Ptr) (site : Site) (fuel : Nat)
    (w : World) (c : HttpConnection) (lineStatus : LineStatus) (calls : List Call) :
    Ensures (fun r => Grows c r.1)
      (processReadLoop lineOf (handlers site) fuel w c lineStatus calls) := by
  induction fuel generalizing w c lineStatus calls with
  | zero => exact ensures_some trivial
  | succ fuel ih =>
    unfold processReadLoop
    refine ensures_bind (nextLine_frame c lineStatus) fun r hr => ?_
    obtain ⟨d, status⟩ := r
    obtain ⟨hfile, hstate⟩ := hr
    dsimp only at hfile hstate
    -- without a line the loop ends, and there is no verdict
    refine ensures_ite (fun _ => ensures_some ?_) fun _ => ?_
    · exact ⟨by rw [hfile], fun h => .inr ⟨rfl, hstate ▸ h⟩⟩
    have hround := dispatch_grows site w { d with startLine := .output d.outputBuffer.peek }
      (lineOf c)
    dsimp only
    revert hround
    generalize dispatch (handlers site) w { d with startLine := .output d.outputBuffer.peek }
      (lineOf c) = round
    intro hround
    cases round with
    | none => exact ensures_some trivial
    | some round =>
      have hgrows := hround round rfl
      cases round with
      | again e lineStatus =>
        obtain ⟨he, hnext⟩ := hgrows
        exact ensures_mono (ih w e lineStatus _) fun _ => Grows.later (he.trans hfile) hnext
      | stop w' e ret =>
        refine ensures_some ⟨?_, fun h => .inl (hgrows.2 ?_)⟩
        · rw [← hfile]
          exact hgrows.1
        · show d.checkState ≠ _
          rw [hstate]
          exact h

end Loop

/-! ## The reads of a request

Either the request line is turned down, with the other members as they were, or the path gets
longer. -/

section Serve

variable {lineOf : HttpConnection → Ptr} {c c' d : HttpConnection} {v : Visit} {site : Site}
  {w w' : World} {b : Buffer} {chunk : List UInt8} {chunks : List (List UInt8)}
  {ret : HttpCode} {r : World × HttpConnection × HttpCode}

theorem read_eq_some {readv : Readv} {ok : Bool} (h : c.read readv = some (d, ok)) :
    ∃ b, d = { c with inputBuffer := b } := by
  obtain ⟨⟨b, n⟩, -, h⟩ := Option.bind_eq_some_iff.mp h
  dsimp only at h
  split at h <;> cases h <;> exact ⟨b, rfl⟩

/-- `read` changes the input buffer only. -/
theorem read_frame {readv : Readv} {ok : Bool} (h : c.read readv = some (d, ok)) :
    d.checkState = c.checkState ∧ LineFrame c d := by
  obtain ⟨b, rfl⟩ := read_eq_some h
  exact ⟨rfl, ⟨rfl, rfl, rfl, rfl, rfl, rfl, rfl⟩⟩

theorem dispatch_requestLine (hstate : c.checkState = .CHECK_STATE_REQUESTLINE) (text : Ptr) :
    dispatch (handlers site) w c text =
      (c.parseRequestLine text).bind fun r =>
        if r.2 = .BAD_REQUEST then some (.stop w r.1 .BAD_REQUEST)
        else some (.again r.1 .LINE_OK) := by
  rw [dispatch, hstate]
  rfl

/-- The first round. -/
theorem processReadFrom_line (lineOf : HttpConnection → Ptr)
    (hstate : c.checkState = .CHECK_STATE_REQUESTLINE)
    (hline : scanLine c.inputBuffer = some (b, .LINE_OK)) (site : Site) (w : World) :
    ∃ calls, processReadFrom lineOf (handlers site) w c =
      match (c.atRequestLine b).parseRequestLine (lineOf c) with
      | none => some (.undefined, calls)
      | some (d, ret) =>
        if ret = .BAD_REQUEST then some (.returned w d .BAD_REQUEST, calls)
        else processReadLoop lineOf (handlers site) (c.inputBuffer.readableBytes + 1) w d .LINE_OK
          calls := by
  have hnext : c.nextLine .LINE_OK = some ({ c with inputBuffer := b }, .LINE_OK) :=
    nextLine_requestLine hstate hline
  have hround : dispatch (handlers site) w (c.atRequestLine b) (lineOf c) = _ :=
    dispatch_requestLine (c := c.atRequestLine b) hstate _
  obtain ⟨calls, hrun⟩ : ∃ calls, processReadFrom lineOf (handlers site) w c =
      afterRound lineOf (handlers site) (c.inputBuffer.readableBytes + 1) w calls _ :=
    ⟨_, processReadLoop_line hnext hround _ []⟩
  refine ⟨calls, hrun.trans ?_⟩
  cases (c.atRequestLine b).parseRequestLine (lineOf c) with
  | none => rfl
  | some r =>
    rw [Option.bind_some]
    dsimp only
    by_cases hr : r.2 = .BAD_REQUEST
    · rw [if_pos hr, if_pos hr]
      rfl
    · rw [if_neg hr, if_neg hr]
      rfl

/-- A request that is turned down at its request line. -/
theorem processReadFrom_rejected (lineOf : HttpConnection → Ptr)
    (hstate : c.checkState = .CHECK_STATE_REQUESTLINE)
    (hline : scanLine c.inputBuffer = some (b, .LINE_OK))
    (hreq : (c.atRequestLine b).parseRequestLine (lineOf c) = some (d, .BAD_REQUEST))
    (site : Site) (w : World) :
    ∃ calls, processReadFrom lineOf (handlers site) w c
      = some (.returned w d .BAD_REQUEST, calls) := by
  obtain ⟨calls, hrun⟩ := processReadFrom_line lineOf hstate hline site w
  rw [hreq] at hrun
  exact ⟨calls, hrun⟩

/-- Without a complete line there is no verdict. -/
theorem processReadFrom_open {status : LineStatus}
    (hstate : c.checkState = .CHECK_STATE_REQUESTLINE)
    (hscan : scanLine c.inputBuffer = some (b, status)) (hopen : status ≠ .LINE_OK) (site : Site)
    (w : World) : processReadFrom lineOf (handlers site) w c
      = some (.returned w { c with inputBuffer := b } .NO_REQUEST, []) :=
  processReadLoop_noLine (nextLine_requestLine hstate hscan) hopen _ []

theorem processReadFrom_none (hstate : c.checkState = .CHECK_STATE_REQUESTLINE)
    (hscan : scanLine c.inputBuffer = none) (site : Site) (w : World) :
    processReadFrom lineOf (handlers site) w c = none := by
  have hlines : ¬ (c.checkState = .CHECK_STATE_CONTENT ∧ LineStatus.LINE_OK = .LINE_OK) :=
    fun hbody => absurd (hstate.symm.trans hbody.1) (by decide)
  rw [processReadFrom, processReadLoop, nextLine, if_neg hlines, parseLine, hscan]
  rfl

/-- A read, the loop behind it, and the reads that follow. -/
theorem resolve_cons (h : resolve lineOf site w c (chunk :: chunks) = some r) :
    ∃ d ok, c.read (.bytes chunk) = some (d, ok) ∧
      (ok = false ∧ r = (w, d, .NO_REQUEST) ∨
        ok = true ∧ ∃ w' e ret calls,
          processReadFrom lineOf (handlers site) w d = some (.returned w' e ret, calls) ∧
          (ret = .NO_REQUEST ∧ resolve lineOf site w' e.enableReading chunks = some r ∨
            ret ≠ .NO_REQUEST ∧ r = (w', e, ret))) := by
  rw [resolve] at h
  obtain ⟨⟨d, ok⟩, hread, h⟩ := Option.bind_eq_some_iff.mp h
  refine ⟨d, ok, hread, ?_⟩
  cases ok with
  | false =>
    cases h
    exact .inl ⟨rfl, rfl⟩
  | true =>
    obtain ⟨⟨outcome, calls⟩, hrun, h⟩ := Option.bind_eq_some_iff.mp h
    cases outcome with
    | returned w' e ret =>
      refine .inr ⟨rfl, w', e, ret, calls, hrun, ?_⟩
      by_cases hret : ret = .NO_REQUEST
      · exact .inl ⟨hret, (if_pos hret).symm.trans h⟩
      · have hr := (if_neg hret).symm.trans h
        cases hr
        exact .inr ⟨hret, rfl⟩
    | undefined => cases h
    | outOfFuel => cases h

/-- A read that brings the verdict. -/
theorem resolve_verdict {calls : List Call} (hread : c.read (.bytes chunk) = some (d, true))
    (hrun : processReadFrom lineOf (handlers site) w d = some (.returned w' c' ret, calls))
    (hret : ret ≠ .NO_REQUEST) :
    resolve lineOf site w c (chunk :: chunks) = some (w', c', ret) := by
  rw [resolve, hread]
  show (processReadFrom lineOf (handlers site) w d).bind _ = _
  rw [hrun]
  exact if_neg hret

theorem lineRejected_cons {status : LineStatus} (hread : c.read (.bytes chunk) = some (d, true))
    (hscan : scanLine d.inputBuffer = some (b, status)) :
    LineRejected lineOf c (chunk :: chunks) ↔
      if status = .LINE_OK then
        ∃ e, (d.atRequestLine b).parseRequestLine (lineOf d) = some (e, .BAD_REQUEST)
      else LineRejected lineOf { d with inputBuffer := b }.enableReading chunks := by
  constructor
  · rintro ⟨d', b', status', hread', hscan', hline⟩
    cases hread.symm.trans hread'
    cases hscan.symm.trans hscan'
    exact hline
  · exact fun hline => ⟨_, _, _, hread, hscan, hline⟩

/-- The path after all reads of a request. -/
theorem resolve_grows (h : resolve lineOf site w c chunks = some r) :
    c.realFile <+: r.2.1.realFile ∧
      (c.checkState ≠ .CHECK_STATE_REQUESTLINE ∨ c.realFile ≠ [] →
        r.2.1.realFile ≠ [] ∨ r.2.2 = .NO_REQUEST) := by
  -- induction on the reads; a path that is not empty stays so
  induction chunks generalizing w c with
  | nil =>
    cases h
    exact ⟨List.prefix_rfl, fun _ => .inr rfl⟩
  | cons chunk chunks ih =>
    obtain ⟨d, ok, hread, hcases⟩ := resolve_cons h
    obtain ⟨b, rfl⟩ := read_eq_some hread
    rcases hcases with ⟨-, rfl⟩ | ⟨-, w', e, ret, calls, hrun, hrest⟩
    · exact ⟨List.prefix_rfl, fun _ => .inr rfl⟩
    obtain ⟨hpre, hne⟩ := processReadLoop_grows _ _ _ _ _ _ _ _ hrun
    have hlong : c.checkState ≠ .CHECK_STATE_REQUESTLINE ∨ c.realFile ≠ [] →
        e.realFile ≠ [] ∨ ret = .NO_REQUEST ∧ e.checkState ≠ .CHECK_STATE_REQUESTLINE := by
      rintro (hstate | hpath)
      · exact hne hstate
      · refine .inl fun hnil => hpath ?_
        rw [hnil] at hpre
        exact List.prefix_nil.mp hpre
    rcases hrest with ⟨-, hrest⟩ | ⟨hret, rfl⟩
    · obtain ⟨hpre', hne'⟩ := ih hrest
      exact ⟨hpre.trans hpre', fun hc => hne' ((hlong hc).symm.imp (fun h => h.2) id)⟩
    · exact ⟨hpre, fun hc => .inl ((hlong hc).resolve_right fun h => hret h.1)⟩

/-- A request is turned down at its request line, with the other members as they were, or it gets
a path. -/
theorem resolve_cases (hstate : c.checkState = .CHECK_STATE_REQUESTLINE)
    (h : resolve lineOf site w c chunks = some r) :
    LineRejected lineOf c chunks ∧ LineFrame c r.2.1 ∨
      ¬ LineRejected lineOf c chunks ∧ (r.2.1.realFile ≠ [] ∨ r.2.2 = .NO_REQUEST) := by
  -- induction on the reads in front of the end of the first line
  induction chunks generalizing w c with
  | nil =>
    cases h
    exact .inr ⟨id, .inr rfl⟩
  | cons chunk chunks ih =>
    obtain ⟨d, ok, hread, hcases⟩ := resolve_cons h
    obtain ⟨hstate', hframe⟩ := read_frame hread
    rw [hstate] at hstate'
    rcases hcases with ⟨rfl, rfl⟩ | ⟨rfl, w', e, ret, calls, hrun, hrest⟩
    · refine .inr ⟨?_, .inr rfl⟩
      rintro ⟨d', b', status, hread', -⟩
      cases hread.symm.trans hread'
    cases hscan : scanLine d.inputBuffer with
    | none =>
      rw [processReadFrom_none hstate' hscan] at hrun
      cases hrun
    | some s =>
      obtain ⟨b, status⟩ := s
      rw [lineRejected_cons hread hscan]
      by_cases hopen : status = .LINE_OK
      · subst hopen
        rw [if_pos rfl]
        obtain ⟨calls', hline⟩ := processReadFrom_line lineOf hstate' hscan site w
        rw [hrun] at hline
        cases hreq : (d.atRequestLine b).parseRequestLine (lineOf d) with
        | none =>
          rw [hreq] at hline
          cases hline
        | some s =>
          obtain ⟨f, ret'⟩ := s
          rw [hreq] at hline
          obtain ⟨hframe', hend⟩ := parseRequestLine_frame _ _ _ hreq
          dsimp only at hline hend hframe'
          split at hline
          · next hr =>
            subst hr
            cases hline
            obtain ⟨-, rfl⟩ := hrest.resolve_left fun h => absurd h.1 (by decide)
            exact .inl ⟨⟨e, rfl⟩, hframe.trans { hframe' with }⟩
          · next hr =>
            -- the rest of the request comes behind its request line
            have hgrows := processReadLoop_grows _ _ _ _ _ _ _ _ hline.symm
            have hlong := hgrows.2 (by rw [(hend.resolve_left hr).2]; decide)
            refine .inr ⟨fun ⟨g, hg⟩ => hr (congrArg Prod.snd (Option.some.inj hg)), ?_⟩
            rcases hrest with ⟨-, hrest⟩ | ⟨hret, rfl⟩
            · exact (resolve_grows hrest).2 (hlong.symm.imp (fun h => h.2) id)
            · exact .inl (hlong.resolve_right fun h => hret h.1)
      · rw [if_neg hopen]
        rw [processReadFrom_open hstate' hscan hopen] at hrun
        cases hrun
        obtain ⟨-, hrest⟩ := hrest.resolve_right fun h => h.1 rfl
        -- nothing but the input buffer and the registration has changed
        rcases ih (c := { d with inputBuffer := b }.enableReading) hstate' hrest with
          ⟨hrej, hframe'⟩ | hacc
        · exact .inl ⟨hrej, hframe.trans { hframe' with }⟩
        · exact .inr hacc

/-- Everything a served request can do. -/
theorem serve_cases (h : serve lineOf c v = some c') (hc : c.AtRest) :
    c'.AtRest ∧ c.realFile <+: c'.realFile ∧
      (RejectedAt lineOf c v ∧ LineFrame c c' ∨
        ¬ RejectedAt lineOf c v ∧ c'.realFile ≠ []) := by
  obtain ⟨⟨w, d, ret⟩, hrun, h⟩ := Option.bind_eq_some_iff.mp h
  dsimp only at h
  split at h
  · cases h
  next hret =>
  obtain ⟨e, he, rfl⟩ := Option.map_eq_some_iff.mp h
  cases unmap_eq_some he
  have hpre := (resolve_grows hrun).1
  -- the response and `init()` leave the members of the request alone
  refine ⟨⟨rfl, rfl, rfl, rfl, rfl⟩, hpre, ?_⟩
  rcases resolve_cases hc.checkState hrun with ⟨hrej, hframe⟩ | ⟨hacc, hne⟩
  · exact .inl ⟨hrej, { hframe with }⟩
  · exact .inr ⟨hacc, hne.resolve_right hret⟩

end Serve

/-! ## Runs -/

section Runs

variable {lineOf : HttpConnection → Ptr} {c c' d : HttpConnection} {visits : List Visit}

theorem exec_grows (hc : c.AtRest) (hrun : exec (serve lineOf) c visits = some c') :
    c'.AtRest ∧ c.realFile <+: c'.realFile :=
  exec_invariant (I := fun d : HttpConnection => d.AtRest ∧ c.realFile <+: d.realFile)
    (fun _ _ _ ⟨hrest, hpre⟩ hstep =>
      have hserve := serve_cases hstep hrest
      ⟨hserve.1, hpre.trans hserve.2.1⟩)
    ⟨hc, List.prefix_rfl⟩ hrun

/-- Requests that are turned down at their request line leave nothing behind. -/
theorem exec_rejected (hc : c.AtRest) (hrun : exec (serve lineOf) c visits = some c')
    (hrej : Along (serve lineOf) (RejectedAt lineOf) c visits) : LineFrame c c' := by
  induction visits generalizing c with
  | nil =>
    cases hrun
    exact LineFrame.refl _
  | cons v visits ih =>
    obtain ⟨d, hstep, hrun⟩ := Option.bind_eq_some_iff.mp hrun
    obtain ⟨hv, hrest⟩ := (along_cons hstep).mp hrej
    obtain ⟨hd, -, hserve⟩ := serve_cases hstep hc
    obtain ⟨-, hframe⟩ := hserve.resolve_right fun h => h.1 hv
    exact hframe.trans (ih hd hrun hrest)

/-- One that is not leaves a path. -/
theorem exec_accepted (hc : c.AtRest) (hrun : exec (serve lineOf) c visits = some c')
    (hacc : ¬ Along (serve lineOf) (RejectedAt lineOf) c visits) : c'.realFile ≠ [] := by
  induction visits generalizing c with
  | nil => exact absurd trivial hacc
  | cons v visits ih =>
    obtain ⟨d, hstep, hrun⟩ := Option.bind_eq_some_iff.mp hrun
    obtain ⟨hd, -, hserve⟩ := serve_cases hstep hc
    rcases hserve with ⟨hv, -⟩ | ⟨-, hne⟩
    · exact ih hd hrun fun h => hacc ((along_cons hstep).mpr ⟨hv, h⟩)
    · -- the later requests only make the path longer
      intro hnil
      have hpre := (exec_grows hd hrun).2
      rw [hnil] at hpre
      exact hne (List.prefix_nil.mp hpre)

end Runs

end HttpWebserver.HttpConnection
