import HttpWebserver.HttpConnection.KeepAlive
import HttpWebserver.HttpConnection.LineDelivery

/-!
# HttpConnection — bytes behind a request

One connection under read events and write events in any order. A read event is `read()` and
`process()`; a write event is a run of the machine of `write`. An `Exchange` remembers, beside the
connection, the bytes that have been received and those that have been handed on: consumed by
`parseLine`, or dropped by `init()` as the end of a request that was answered.

* The handlers leave the input buffer alone, as their text never points into it (`Beside`).
* `processRead` returns, and what its calls of `parseLine` passed over and what is readable behind
  it are what was readable (`processReadLoop_behind`).
* **`accounted_iff`** — in all states of a run the bytes received are those handed on, followed by
  those readable, exactly when each `write()` that finds nothing to send finds no byte readable
  behind the request that was answered.

A `write()` with nothing to send calls `init()`, and its `retrieveAll()` takes everything that is
readable. The writable event that makes the call is not tied to a response: it also comes while a
request is being received.
-/

namespace HttpWebserver

open Machine

/-- The bytes a `readv` delivers. -/
def Readv.data : Readv → List UInt8
  | .error => []
  | .bytes incoming => incoming

def Ptr.Outside (p : Ptr) : Prop := ∀ off, p ≠ .input off

namespace Ptr

theorem outside_null : Ptr.null.Outside := fun _ h => by cases h

theorem outside_output (off : Nat) : (Ptr.output off).Outside := fun _ h => by cases h

theorem Outside.moveTo {p : Ptr} (hp : p.Outside) (pos : Nat) : (p.moveTo pos).Outside := by
  cases p with
  | null => exact outside_null
  | input off => exact absurd rfl (hp off)
  | output off => exact outside_output pos

theorem Outside.of_from {p q : Ptr} (hp : p.Outside) (h : p.From q) : q.Outside := by
  rcases h with rfl | ⟨pos, rfl⟩
  · exact outside_null
  · exact hp.moveTo pos

end Ptr

namespace HttpConnection

open Buffer CString PartialRules

/-! ## The events

A connection with the bytes it has received and those that were handed on: the latter and the
readable ones must be the former, in order. -/

/-- A connection between two events or inside `write()`: the bytes received, those handed on so far
(`parseLine` has passed over them, or they were dropped with a request that was answered), and how
many bytes of a request that was answered are still to come or to be dropped. -/
structure Exchange where
  sending : Sending
  world : World
  received : List UInt8
  handed : List UInt8
  answered : Nat

/-- An event: a `readv` with what the handlers meet, what `processWrite` leaves in the members of
the response, and how much of a rejected request is left; or a step of `write()`. -/
inductive Event where
  | read (incoming : Readv) (site : Site) (sent : HttpConnection) (rest : Nat)
  | write (l : WriteLabel)

/-- What a request has left unread when its answer is decided: `rest` where its request line was
turned down, its body, which `parseContent` does not consume, or nothing. -/
def unread (c : HttpConnection) (rest : Nat) : Nat :=
  match c.checkState with
  | .CHECK_STATE_REQUESTLINE => rest
  | .CHECK_STATE_HEADER => 0
  | .CHECK_STATE_CONTENT => c.ContentLength.toNat

/-- The end of `process()`: the request is waited for, or `processWrite` sets its answer up. -/
def answerWith (c : HttpConnection) (ret : HttpCode) (sent : HttpConnection) : HttpConnection :=
  if ret = .NO_REQUEST then c.enableReading else c.respond sent

namespace Exchange

def conn (s : Exchange) : HttpConnection := s.sending.conn

def readable (s : Exchange) : List UInt8 := s.conn.inputBuffer.readable

/-- `process()`. -/
def process (s : Exchange) (site : Site) (sent : HttpConnection) (rest : Nat) :
    Option Exchange :=
  match processRead (handlers site) s.world s.conn with
  | some (.returned w c ret, _) =>
    let parsed := passed (handlers site) s.world s.conn
    some {
      sending := { s.sending with conn := c.answerWith ret sent }
      world := w
      received := s.received
      handed := s.handed ++ parsed
      answered := if ret = .NO_REQUEST then s.answered - parsed.length else c.unread rest }
  | _ => none

def step (s : Exchange) : Event → Option Exchange
  | .read incoming site sent rest =>
    -- the events of a connection are handled by one thread
    if s.sending.phase = .idle ∧ incoming.data.length ≤ maxTransfer then do
      let (c, ok) ← s.conn.read incoming
      let s := { s with
        sending := { s.sending with conn := c }
        received := s.received ++ incoming.data }
      if ok then s.process site sent rest else some s
    else none
  | .write l => do
    let sending ← writeStep s.sending l
    if l = .call ∧ s.conn.bytesToSend = 0 then
      -- `init()` drops what is readable
      some { s with
        sending := sending
        handed := s.handed ++ s.readable.take s.answered
        answered := s.answered - s.readable.length }
    else
      some { s with sending := sending }

/-- A connection at an event; what is readable then has just been received. -/
def start (c : HttpConnection) (w : World) : Exchange where
  sending := ⟨c, .idle, []⟩
  world := w
  received := c.inputBuffer.readable
  handed := []
  answered := 0

/-- No byte is lost: what was received has been handed on or is readable, in order. -/
def Accounted (s : Exchange) : Prop := s.received = s.handed ++ s.readable

/-- A `write()` that finds nothing to send finds nothing readable behind the request that was
answered. -/
def Spared (s : Exchange) : Event → Prop
  | .read _ _ _ _ => True
  | .write l =>
    l = .call → s.sending.phase = .idle → s.conn.bytesToSend = 0 →
      s.readable.length ≤ s.answered

end Exchange

/-- No pointer that a handler writes through points into the input buffer; `url_` is assigned by
`parseRequestLine` before that writes through it. -/
structure Outside (c : HttpConnection) : Prop where
  startLine : c.startLine.Outside
  url : c.checkState ≠ .CHECK_STATE_REQUESTLINE → c.url.Outside

theorem init_outside (c : HttpConnection) : c.init.Outside :=
  ⟨Ptr.outside_null, fun h => absurd rfl h⟩

/-! ## What the handlers do to the input buffer

As they never get a text in the input buffer, they leave it alone. -/

/-- What a handler leaves whose text is outside of the input buffer. -/
structure Beside (c d : HttpConnection) : Prop where
  inputBuffer : d.inputBuffer = c.inputBuffer
  startLine : d.startLine = c.startLine
  url : d.url.Outside

section Beside

variable {c d : HttpConnection} {p text : Ptr} {site : Site} {w : World}

theorem Beside.outside (h : Beside c d) (hc : c.startLine.Outside) : d.Outside :=
  ⟨by rw [h.startLine]; exact hc, fun _ => h.url⟩

theorem setStorage_inputBuffer (hp : p.Outside) (mem : List UInt8) :
    (c.setStorage p mem).inputBuffer = c.inputBuffer := by
  cases p with
  | null => rfl
  | input off => exact absurd rfl (hp off)
  | output off => rfl

theorem InPlace.beside (htext : text.Outside) (h : InPlace text c d) : Beside c d := by
  obtain ⟨mem, u, v, m, s, hu, rfl⟩ := h
  exact ⟨setStorage_inputBuffer htext mem, setStorage_startLine c text mem, htext.of_from hu⟩

theorem parseRequestLine_beside (htext : text.Outside) :
    Ensures (fun r => Beside c r.1) (c.parseRequestLine text) :=
  ensures_mono (parseRequestLine_spec c text) fun _ h => h.1.beside htext

theorem parseHeaders_beside (hurl : c.url.Outside) (text : Ptr) :
    Ensures (fun r => Beside c r.1) (c.parseHeaders text) := by
  refine ensures_mono (parseHeaders_spec c text) fun r ⟨_, _, _, _, _, hd, _⟩ => ?_
  rw [hd]
  exact ⟨rfl, rfl, hurl⟩

/-- The state stays as well: the body is looked at again until it is complete. -/
theorem parseContent_beside (hurl : c.url.Outside) (htext : text.Outside) :
    Ensures (fun r => Beside c r.1 ∧ r.1.checkState = c.checkState) (c.parseContent text) := by
  refine ensures_mono (parseContent_spec c text) fun r hr => ?_
  rcases hr with rfl | ⟨mem, rfl⟩
  · exact ⟨⟨rfl, rfl, hurl⟩, rfl⟩
  · refine ⟨⟨setStorage_inputBuffer htext mem, setStorage_startLine c text mem, ?_⟩,
      setStorage_checkState c text mem⟩
    show (c.setStorage text mem).url.Outside
    rw [setStorage_url]
    exact hurl

theorem Beside.doRequest (h : Beside c d) :
    Ensures (fun r => Beside c r.2.1) (doRequest site w d) := by
  refine ensures_mono (doRequest_spec site w d) fun r ⟨mem, path, st, file, _, hd⟩ => ?_
  rw [hd]
  refine ⟨(setStorage_inputBuffer h.url mem).trans h.inputBuffer,
    (setStorage_startLine d d.url mem).trans h.startLine, ?_⟩
  show (d.setStorage d.url mem).url.Outside
  rw [setStorage_url]
  exact h.url

end Beside

/-! ## What `processRead` leaves

Only the scan consumes bytes in the loop. -/

section Loop

variable {c d : HttpConnection} {text : Ptr} {site : Site} {w : World}

/-- A round leaves the input buffer, and with an incomplete body the state, for a scan. -/
def RoundBeside (c : HttpConnection) : Round World → Prop
  | .again d status => Beside c d ∧
      (c.checkState = .CHECK_STATE_CONTENT →
        d.checkState = .CHECK_STATE_CONTENT ∧ status ≠ .LINE_OK)
  | .stop _ d _ => Beside c d

theorem request_beside (h : Beside c d) :
    Ensures (RoundBeside c)
      ((doRequest site w d).bind fun r => some (.stop r.1 r.2.1 r.2.2)) :=
  ensures_bind h.doRequest fun _ hr => ensures_some hr

theorem dispatch_beside (site : Site) (w : World) (hc : c.Outside) (htext : text.Outside) :
    Ensures (RoundBeside c) (dispatch (handlers site) w c text) := by
  unfold dispatch
  cases hstate : c.checkState with
  | CHECK_STATE_REQUESTLINE =>
    refine ensures_bind (parseRequestLine_beside htext) fun ⟨d, ret⟩ hd => ?_
    refine ensures_ite (fun _ => ensures_some hd) fun _ => ensures_some ⟨hd, fun h => ?_⟩
    rw [hstate] at h
    cases h
  | CHECK_STATE_HEADER =>
    have hurl := hc.url (by rw [hstate]; decide)
    refine ensures_bind (parseHeaders_beside hurl text) fun ⟨d, ret⟩ hd => ?_
    refine ensures_ite (fun _ => ensures_some hd) fun _ => ?_
    refine ensures_ite (fun _ => request_beside hd) fun _ => ensures_some ⟨hd, fun h => ?_⟩
    rw [hstate] at h
    cases h
  | CHECK_STATE_CONTENT =>
    have hurl := hc.url (by rw [hstate]; decide)
    refine ensures_bind (parseContent_beside hurl htext) fun ⟨d, ret⟩ ⟨hd, hsame⟩ => ?_
    refine ensures_ite (fun _ => request_beside hd) fun _ => ensures_some ⟨hd, fun h => ?_⟩
    exact ⟨hsame.trans h, by decide⟩

/-- A delimited line is consumed. -/
theorem scanLine_ok {b b' : Buffer} (h : b.WellFormed) (hscan : scanLine b = some (b', .LINE_OK)) :
    b'.readable.length < b.readable.length := by
  have hstuck : ¬ Stuck b := by
    intro hstuck
    obtain ⟨status, hne, heq⟩ := scanLine_stuck h hstuck
    rw [hscan] at heq
    cases heq
    exact hne rfl
  have hne : b.readable ≠ [] := by
    intro hnil
    rw [scanLine, parseLineLoop_nil h hnil] at hscan
    cases hscan
  exact scanLine_consumes h hne hstuck hscan

/-- The loop condition leaves the end of what was readable, and less of it if it delimits a
line. -/
theorem nextLine_scanned (h : c.inputBuffer.WellFormed) (status : LineStatus) :
    Ensures (fun r => ∃ b, r.1 = { c with inputBuffer := b } ∧ b.WellFormed ∧
        b.readable <:+ c.inputBuffer.readable ∧
        (r.2 = .LINE_OK → ¬ (c.checkState = .CHECK_STATE_CONTENT ∧ status = .LINE_OK) →
          b.readable.length < c.inputBuffer.readable.length))
      (c.nextLine status) := by
  unfold nextLine parseLine
  refine ensures_ite (fun hbody => ensures_some ?_) fun _ r hr => ?_
  · exact ⟨c.inputBuffer, rfl, h, List.suffix_rfl, fun _ hnot => absurd hbody hnot⟩
  · obtain ⟨⟨b, status'⟩, hscan, rfl⟩ := Option.map_eq_some_iff.mp hr
    obtain ⟨hwf, hsuffix⟩ := scanLine_suffix h hscan
    refine ⟨b, rfl, hwf, hsuffix, fun hok _ => ?_⟩
    cases hok
    exact scanLine_ok h hscan

/-- What `processRead` leaves once `parseLine` has passed over some bytes: it returns, unless a
handler is undefined, and drops no other bytes. -/
def Behind (c : HttpConnection) (parsed : List UInt8) : ReadOutcome World → Prop
  | .returned _ d _ => d.inputBuffer.WellFormed ∧
      c.inputBuffer.readable = parsed ++ d.inputBuffer.readable ∧ d.Outside
  | .undefined => True
  | .outOfFuel => False

/-- The rounds that are enough: one for each byte, one for the scan that finds no line, and one
for a body. -/
def rounds (c : HttpConnection) (status : LineStatus) : Nat :=
  c.inputBuffer.readable.length +
    if c.checkState = .CHECK_STATE_CONTENT ∧ status ≠ .LINE_OK then 1 else 2

theorem rounds_less {status status' : LineStatus}
    (hle : d.inputBuffer.readable.length ≤ c.inputBuffer.readable.length)
    (hlt : ¬ (c.checkState = .CHECK_STATE_CONTENT ∧ status = .LINE_OK) →
      d.inputBuffer.readable.length < c.inputBuffer.readable.length)
    (hbody : c.checkState = .CHECK_STATE_CONTENT →
      d.checkState = .CHECK_STATE_CONTENT ∧ status' ≠ .LINE_OK) :
    rounds d status' < rounds c status := by
  unfold rounds
  by_cases hcontent : c.checkState = .CHECK_STATE_CONTENT
  · -- the body was looked at, and a line of it is scanned next
    rw [if_pos (hbody hcontent)]
    by_cases hstatus : status = .LINE_OK
    · rw [if_neg fun h => h.2 hstatus]
      omega
    · rw [if_pos ⟨hcontent, hstatus⟩]
      have hlt := hlt fun h => hstatus h.2
      omega
  · -- a line was delimited, and it has at least its CR LF
    have hline : ¬ (c.checkState = .CHECK_STATE_CONTENT ∧ status ≠ .LINE_OK) :=
      fun h => hcontent h.1
    rw [if_neg hline]
    have hlt := hlt fun h => hcontent h.1
    split <;> omega

theorem Behind.trans {r : ReadOutcome World} {front parsed : List UInt8}
    (hfront : c.inputBuffer.readable = front ++ d.inputBuffer.readable) (h : Behind d parsed r) :
    Behind c (front ++ parsed) r := by
  cases r with
  | returned w e ret =>
    obtain ⟨hwf, hread, hout⟩ := h
    refine ⟨hwf, ?_, hout⟩
    rw [hfront, hread, List.append_assoc]
  | undefined => trivial
  | outOfFuel => exact h

/-- A call of `parseLine` leaves what it has not advanced over. -/
theorem advanced_append (h : d.inputBuffer.readable <:+ c.inputBuffer.readable) :
    c.inputBuffer.readable = c.advanced d ++ d.inputBuffer.readable :=
  (List.suffix_iff_eq_append.mp h).symm

theorem processReadLoop_behind (site : Site) {fuel : Nat} (w : World) {c : HttpConnection}
    {status : LineStatus} (calls : List Call) (hwf : c.inputBuffer.WellFormed) (hc : c.Outside)
    (hfuel : rounds c status ≤ fuel) :
    Ensures (fun r => Behind c (passedLoop getLine (handlers site) fuel w c status) r.1)
      (processReadLoop getLine (handlers site) fuel w c status calls) := by
  -- induction on the fuel: each round takes a byte, or is the one look at a body
  induction fuel generalizing w c status calls with
  | zero =>
    unfold rounds at hfuel
    split at hfuel <;> omega
  | succ fuel ih =>
    cases hline : c.nextLine status with
    | none =>
      rw [processReadLoop, hline]
      intro r hr
      cases hr
    | some line =>
      obtain ⟨d, status'⟩ := line
      obtain ⟨b, hd, hwf', hsuffix, hconsumes⟩ := nextLine_scanned hwf status _ hline
      dsimp only at hd hconsumes
      subst hd
      have hfront := advanced_append (d := { c with inputBuffer := b }) hsuffix
      by_cases hok : status' = .LINE_OK
      · -- the line that is handed on is the one `startLine_` pointed at before
        subst hok
        have hround := dispatch_beside site w
          (c := { c with inputBuffer := b, startLine := .output c.outputBuffer.peek })
          ⟨Ptr.outside_output _, hc.url⟩ (show c.getLine.Outside from hc.startLine)
        rw [processReadLoop_line hline rfl, passedLoop_line hline rfl]
        revert hround
        generalize dispatch (handlers site) w
          { c with inputBuffer := b, startLine := .output c.outputBuffer.peek } c.getLine = round
        intro hround
        cases round with
        | none => exact ensures_some trivial
        | some round =>
          have hbeside := hround round rfl
          cases round with
          | stop w' e ret =>
            have he := Beside.outside hbeside (Ptr.outside_output _)
            obtain ⟨hb, -, -⟩ := hbeside
            refine ensures_some ⟨?_, ?_, he⟩
            · rw [hb]
              exact hwf'
            · -- no round is behind it
              show _ = _ ++ [] ++ e.inputBuffer.readable
              rw [List.append_nil, hb]
              exact hfront
          | again e status'' =>
            obtain ⟨hbeside, hbody⟩ := hbeside
            have he := hbeside.outside (Ptr.outside_output _)
            have hb : e.inputBuffer = b := hbeside.inputBuffer
            have hless : rounds e status'' < rounds c status := by
              refine rounds_less ?_ ?_ hbody
              · rw [hb]
                exact hsuffix.length_le
              · rw [hb]
                exact hconsumes rfl
            have hwf'' : e.inputBuffer.WellFormed := by
              rw [hb]
              exact hwf'
            refine ensures_mono (ih w _ hwf'' he (by omega)) fun r hr => hr.trans ?_
            rw [hb]
            exact hfront
      · rw [processReadLoop_noLine hline hok, passedLoop_noLine hline hok]
        exact ensures_some ⟨hwf', hfront, ⟨hc.startLine, hc.url⟩⟩

/-- `processRead` with the handlers of the connection returns or is undefined. -/
theorem processRead_behind (site : Site) (w : World) (hwf : c.inputBuffer.WellFormed)
    (hc : c.Outside) : Ensures (fun r => Behind c (passed (handlers site) w c) r.1)
      (processRead (handlers site) w c) := by
  refine processReadLoop_behind site w [] hwf hc ?_
  rw [rounds, hwf.readable_length]
  split <;> omega

end Loop

/-! ## What one event keeps

A read stores what has arrived behind the readable bytes. A write drops bytes only with the reset
at the end of a response, and then all that are readable. -/

/-- What holds at every event of a run in which no byte is lost. -/
structure Exchange.Sound (s : Exchange) : Prop where
  wellFormed : s.conn.inputBuffer.WellFormed
  outside : s.conn.Outside
  accounted : s.Accounted

/-- The members of the request, which `write` leaves alone. -/
structure SameRequest (c d : HttpConnection) : Prop where
  inputBuffer : d.inputBuffer = c.inputBuffer
  startLine : d.startLine = c.startLine
  checkState : d.checkState = c.checkState
  url : d.url = c.url

theorem SameRequest.outside {c d : HttpConnection} (h : SameRequest c d) (hc : c.Outside) :
    d.Outside where
  startLine := by
    rw [h.startLine]
    exact hc.startLine
  url hstate := by
    rw [h.checkState] at hstate
    rw [h.url]
    exact hc.url hstate

section Read

variable {s t : Exchange} {c : HttpConnection} {incoming : Readv}

theorem answerWith_same (c : HttpConnection) (ret : HttpCode) (sent : HttpConnection) :
    SameRequest c (c.answerWith ret sent) := by
  unfold answerWith
  split <;> exact ⟨rfl, rfl, rfl, rfl⟩

/-- What arrives is stored behind what is readable. -/
theorem read_stores (h : c.inputBuffer.WellFormed) (hmax : incoming.data.length ≤ maxTransfer) :
    Ensures (fun r => ∃ b, r.1 = { c with inputBuffer := b } ∧ b.WellFormed ∧
        b.readable = c.inputBuffer.readable ++ incoming.data)
      (c.read incoming) := by
  cases incoming with
  | error =>
    obtain ⟨ok, hread⟩ := read_spec (c := c) (show c.inputBuffer.readFd .error = _ from rfl)
    rw [hread]
    exact ensures_some ⟨c.inputBuffer, rfl, h, (List.append_nil _).symm⟩
  | bytes data =>
    have hmax : data.length ≤ maxTransfer := hmax
    by_cases hcompact : c.inputBuffer.Compacts data.length
    · -- the read leaves the storage, which is undefined
      rw [read_compact h hmax hcompact]
      intro r hr
      cases hr
    · have hint : data.length < 2 ^ 31 := Nat.lt_of_le_of_lt hmax (by decide)
      obtain ⟨b, hb, hx, -⟩ := readFd_spec h hint hcompact
      obtain ⟨ok, hread⟩ := read_spec hb
      rw [hread]
      exact ensures_some ⟨b, rfl, hx.wellFormed, hx.readable h⟩

theorem Exchange.Sound.process (h : s.Sound) (site : Site) (sent : HttpConnection) (rest : Nat) :
    Ensures Exchange.Sound (s.process site sent rest) := by
  have hbehind := processRead_behind site s.world h.wellFormed h.outside
  unfold Exchange.process
  revert hbehind
  generalize processRead (handlers site) s.world s.conn = x
  intro hbehind
  cases x with
  | none =>
    -- without an outcome there is no state to account for
    intro t ht
    cases ht
  | some x =>
    obtain ⟨outcome, calls⟩ := x
    cases outcome with
    | undefined =>
      intro t ht
      cases ht
    | outOfFuel =>
      intro t ht
      cases ht
    | returned w c ret =>
      obtain ⟨hwf, hsplit, hout⟩ := hbehind _ rfl
      have hsame := answerWith_same c ret sent
      have hread : (c.answerWith ret sent).inputBuffer.readable = c.inputBuffer.readable := by
        rw [hsame.inputBuffer]
      refine ensures_some ⟨?_, hsame.outside hout, ?_⟩
      · show (c.answerWith ret sent).inputBuffer.WellFormed
        rw [hsame.inputBuffer]
        exact hwf
      · -- what was passed over and what is left are what was readable
        show s.received = s.handed ++ _ ++ (c.answerWith ret sent).inputBuffer.readable
        rw [hread, List.append_assoc, ← hsplit]
        exact h.accounted

theorem Exchange.Sound.read {site : Site} {sent : HttpConnection} {rest : Nat} (h : s.Sound) :
    Ensures Exchange.Sound (s.step (.read incoming site sent rest)) := by
  unfold Exchange.step
  refine ensures_ite (fun hev => ?_) fun _ t ht => by cases ht
  refine ensures_bind (read_stores h.wellFormed hev.2) fun ⟨c, ok⟩ ⟨b, hc, hwf, hread⟩ => ?_
  dsimp only at hc
  subst hc
  have hs : Exchange.Sound { s with
      sending := { s.sending with conn := { s.conn with inputBuffer := b } }
      received := s.received ++ incoming.data } := by
    refine ⟨hwf, ⟨h.outside.startLine, h.outside.url⟩, ?_⟩
    show s.received ++ incoming.data = s.handed ++ b.readable
    rw [hread, ← List.append_assoc]
    exact congrArg (· ++ incoming.data) h.accounted
  exact ensures_ite (fun _ => hs.process site sent rest) fun _ => ensures_some hs

end Read

section Write

variable {s t : Exchange} {c : HttpConnection} {l : WriteLabel}

theorem writeRound_same (r : Writev) : Ensures (fun x => SameRequest c x.1) (c.writeRound r) := by
  unfold writeRound writeCount
  refine ensures_ite (fun _ => ensures_ite (fun _ => ?_) fun _ x hx => ?_) fun _ => ?_
  · exact ensures_some ⟨rfl, rfl, rfl, rfl⟩
  · obtain ⟨d, hd, rfl⟩ := Option.map_eq_some_iff.mp hx
    cases unmap_eq_some hd
    exact ⟨rfl, rfl, rfl, rfl⟩
  · exact ensures_some ⟨rfl, rfl, rfl, rfl⟩

/-- A step of `write` is the reset, or it leaves the request alone. -/
theorem step_write_cases (ht : s.step (.write l) = some t) :
    (l = .call ∧ s.sending.phase = .idle ∧ s.conn.bytesToSend = 0 ∧
        t.conn = s.conn.enableReading.init ∧ t.received = s.received ∧
        t.handed = s.handed ++ s.readable.take s.answered) ∨
    (¬ (l = .call ∧ s.conn.bytesToSend = 0) ∧ SameRequest s.conn t.conn ∧
        t.received = s.received ∧ t.handed = s.handed) := by
  obtain ⟨sending, hsending, ht⟩ := Option.bind_eq_some_iff.mp ht
  have hcases := writeStep_cases hsending
  -- the only call of `write` that resets the connection is the one with nothing to send
  by_cases hreset : l = .call ∧ s.conn.bytesToSend = 0
  · rw [if_pos hreset] at ht
    cases ht
    obtain ⟨rfl, hzero⟩ := hreset
    rcases hcases with ⟨-, hph, -, rfl⟩ | ⟨-, -, hnz, -⟩ | ⟨hl, -⟩ | ⟨hl, -⟩ |
      ⟨_, _, _, _, hl, -⟩ | ⟨hl, -⟩
    · exact .inl ⟨rfl, hph, hzero, rfl, rfl, rfl⟩
    · exact absurd hzero hnz
    · cases hl
    · cases hl
    · cases hl
    · cases hl
  · rw [if_neg hreset] at ht
    cases ht
    refine .inr ⟨hreset, ?_, rfl, rfl⟩
    rcases hcases with ⟨hl, -, hz, -⟩ | ⟨-, -, -, rfl⟩ | ⟨-, -, rfl⟩ | ⟨-, -, rfl⟩ |
      ⟨n, bytes, c, phase, -, -, -, -, -, hround, rfl⟩ | ⟨-, -, rfl⟩
    · exact absurd ⟨hl, hz⟩ hreset
    · exact ⟨rfl, rfl, rfl, rfl⟩
    · exact ⟨rfl, rfl, rfl, rfl⟩
    · exact ⟨rfl, rfl, rfl, rfl⟩
    · exact writeRound_same _ _ hround
    · exact ⟨rfl, rfl, rfl, rfl⟩

end Write

/-! ## Runs -/

section Runs

variable {s t : Exchange} {e : Event} {c : HttpConnection} {w : World} {events : List Event}

theorem start_sound (h : c.inputBuffer.WellFormed) (hc : c.Outside) (w : World) :
    (Exchange.start c w).Sound := ⟨h, hc, rfl⟩

/-- `init()` leaves nothing readable. -/
theorem readable_of_reset (h : s.conn.inputBuffer.WellFormed)
    (ht : t.conn = s.conn.enableReading.init) :
    t.conn.inputBuffer.WellFormed ∧ t.conn.Outside ∧ t.readable = [] := by
  have hinit := retrieveAll_spec h
  rw [Exchange.readable, ht]
  exact ⟨hinit.1, init_outside _, hinit.2⟩

theorem step_sound (h : s.Sound) (hspared : s.Spared e) (ht : s.step e = some t) : t.Sound := by
  cases e with
  | read incoming site sent rest => exact h.read t ht
  | write l =>
    rcases step_write_cases ht with ⟨rfl, hph, hzero, hreset, hrec, hhand⟩ |
      ⟨-, hsame, hrec, hhand⟩
    · -- the reset drops what was readable, all of it the answered request's
      obtain ⟨hwf, hout, hnil⟩ := readable_of_reset h.wellFormed hreset
      refine ⟨hwf, hout, ?_⟩
      have hall : s.readable.take s.answered = s.readable :=
        List.take_of_length_le (hspared rfl hph hzero)
      rw [Exchange.Accounted, hrec, hhand, hnil, hall, List.append_nil]
      exact h.accounted
    · refine ⟨?_, hsame.outside h.outside, ?_⟩
      · rw [hsame.inputBuffer]
        exact h.wellFormed
      · have hread : t.readable = s.readable := congrArg Buffer.readable hsame.inputBuffer
        rw [Exchange.Accounted, hrec, hhand, hread]
        exact h.accounted

theorem step_loses (h : s.Sound) (hspared : ¬ s.Spared e) (ht : s.step e = some t) :
    ¬ t.Accounted := by
  cases e with
  | read incoming site sent rest => exact absurd trivial hspared
  | write l =>
    rcases step_write_cases ht with ⟨rfl, hph, hzero, hreset, hrec, hhand⟩ | ⟨hnot, -⟩
    · obtain ⟨-, -, hnil⟩ := readable_of_reset h.wellFormed hreset
      intro hacc
      rw [Exchange.Accounted, hrec, hhand, hnil, List.append_nil] at hacc
      -- what was readable is then no longer than what the answered request had left
      have hall : s.readable = s.readable.take s.answered :=
        List.append_cancel_left (h.accounted.symm.trans hacc)
      have hlen := congrArg List.length hall
      rw [List.length_take] at hlen
      exact hspared fun _ _ _ => by omega
    · exact absurd (fun hl _ hzero => absurd ⟨hl, hzero⟩ hnot) hspared

/-- **No byte is lost.** For every connection, its input buffer well formed and its pointers
outside of it, and every run of read events and write events: in all states of the run the bytes
received are those handed on, followed by those readable, if and only if every `write()` that
finds nothing to send finds no byte readable behind the request that was answered. -/
theorem accounted_iff (hwf : c.inputBuffer.WellFormed) (hout : c.Outside)
    (hrun : exec Exchange.step (.start c w) events = some s) :
    (∀ es, es <+: events → ∀ t, exec Exchange.step (.start c w) es = some t → t.Accounted) ↔
      Along Exchange.step Exchange.Spared (.start c w) events :=
  always_iff_along (I := fun _ t => t.Sound) (start_sound hwf hout w)
    (fun _ _ _ h => h.accounted)
    (fun _ _ _ _ _ h hspared ht => step_sound h hspared ht)
    (fun _ _ _ _ _ h hspared ht => step_loses h hspared ht) hrun

/-- A chunk, its handlers meeting nothing. -/
def chunkEvent (chunk : List UInt8) : Event := .read (.bytes chunk) sampleSite zeroed 0

/-- The beginning of a request line, then a writable event. -/
def begun : List Event := [chunkEvent (ascii "GET /"), .write .call]

theorem accounted_iff_begun :
    ∃ s, exec Exchange.step (.start sampleConnection.init sampleWorld) begun = some s ∧
      ((∀ es, es <+: begun → ∀ t,
          exec Exchange.step (.start sampleConnection.init sampleWorld) es = some t →
            t.Accounted) ↔
        Along Exchange.step Exchange.Spared (.start sampleConnection.init sampleWorld) begun) := by
  have hdone : (exec Exchange.step (.start sampleConnection.init sampleWorld) begun).isSome := by
    decide +kernel
  obtain ⟨s, hs⟩ := Option.isSome_iff_exists.mp hdone
  have hwf : sampleConnection.inputBuffer.WellFormed := new_wellFormed readBufferSize
  exact ⟨s, hs, accounted_iff (init_drained hwf).wellFormed (init_outside _) hs⟩

/-- A request line and its CR, then a writable event. -/
def cutBehindCr : List Event :=
  [chunkEvent (ascii "GET / HTTP/1.1" ++ [CR]), .write .call]

/-- The CR waits for its LF; `init()` drops it. -/
theorem cr_dropped :
    ∃ s t, exec Exchange.step (.start sampleConnection.init sampleWorld)
        [chunkEvent (ascii "GET / HTTP/1.1" ++ [CR])] = some s ∧
      s.readable = [CR] ∧ s.conn.channel.isWriting = true ∧
      exec Exchange.step (.start sampleConnection.init sampleWorld) cutBehindCr = some t ∧
      t.received = ascii "GET / HTTP/1.1" ++ [CR] ∧ t.handed = ascii "GET / HTTP/1.1" ∧
      t.readable = [] ∧ ¬ t.Accounted := by
  have hbefore : (exec Exchange.step (.start sampleConnection.init sampleWorld)
      [chunkEvent (ascii "GET / HTTP/1.1" ++ [CR])]).map
        (fun s => (s.readable, s.conn.channel.isWriting)) = some ([CR], true) := by decide +kernel
  have hafter : (exec Exchange.step (.start sampleConnection.init sampleWorld) cutBehindCr).map
      (fun t => (t.received, t.handed, t.readable))
        = some (ascii "GET / HTTP/1.1" ++ [CR], ascii "GET / HTTP/1.1", []) := by decide +kernel
  obtain ⟨s, hs, hbefore⟩ := Option.map_eq_some_iff.mp hbefore
  obtain ⟨t, ht, hafter⟩ := Option.map_eq_some_iff.mp hafter
  simp only [Prod.mk.injEq] at hbefore hafter
  obtain ⟨hcr, hwriting⟩ := hbefore
  obtain ⟨hrec, hhand, hread⟩ := hafter
  refine ⟨s, t, hs, hcr, hwriting, ht, hrec, hhand, hread, ?_⟩
  rw [Exchange.Accounted, hrec, hhand, hread]
  decide

end Runs

end HttpConnection

end HttpWebserver
