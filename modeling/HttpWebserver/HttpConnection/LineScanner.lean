import HttpWebserver.HttpConnection.ParseLine
import HttpWebserver.Lib.CString
import HttpWebserver.Lib.LineFraming
import HttpWebserver.Lib.Machine

/-!
# HttpConnection — lines, however the bytes arrive

After `init()` a connection receives a stream in chunks. Each of them is appended to the input
buffer, and `parseLine` is called until it does not return `LINE_OK`.

* `arrive_eq_read`: appending a chunk is what `read` does with it;
* `reference` is the scanner on the text itself: its status, and what it leaves of the text;
* `scanLine_reference`: on a buffer without a stale CR in front of the read index, `scanLine` is
  the reference scanner on the readable bytes, and leaves no such CR behind;
* `Traced`: the calls behind one chunk. There is a last one, it is the only one that is not
  `LINE_OK`, and each is the reference's on all that has been received;
* **`delimiting_follows_reference`** — in whatever chunks a stream arrives, behind each of them
  `parseLine` is called so, and returns and leaves what the reference does behind the lines
  delimited so far.

`parseLine` consumes what it has passed over, and resets the indices where nothing is left. A CR
is consumed as a NUL only, so its second branch, on an LF behind a CR, is never taken.
-/

namespace HttpWebserver

open CString LineFraming Machine Storage

namespace HttpConnection

open Buffer

/-! ## The reference

A framing of lines by CR LF, on the whole text. -/

/-- The status that `parseLine` returns for a verdict. -/
def statusOf : Verdict → LineStatus
  | .complete => .LINE_OK
  | .malformed => .LINE_BAD
  | .incomplete => .LINE_OPEN

/-- The scanner on a text that begins with a line. -/
def reference (text : List UInt8) : LineStatus × List UInt8 :=
  (statusOf (scan CR LF text).1, (scan CR LF text).2)

/-! ## The calls

Each call of `parseLine` is recorded with what had arrived by then, and must be the one that the
reference makes there. -/

/-- A call of `parseLine`: what had been received then, its result, and what it left readable. -/
structure LineCall where
  received : List UInt8
  status : LineStatus
  left : List UInt8
deriving DecidableEq, Repr

/-- `parseLine` until it does not return `LINE_OK`. -/
def parseLines (received : List UInt8) : Nat → HttpConnection →
    Option (HttpConnection × List LineCall)
  | 0, _ => none
  | fuel + 1, c => do
    let (c, status) ← c.parseLine
    let call : LineCall := ⟨received, status, c.inputBuffer.readable⟩
    if status = .LINE_OK then do
      let (c, calls) ← parseLines received fuel c
      some (c, call :: calls)
    else
      some (c, [call])

/-- A connection that receives a stream, with the calls of `parseLine` behind each chunk. -/
structure Reception where
  conn : HttpConnection
  received : List UInt8
  calls : List (List LineCall)

/-- A connection after `init()`. -/
def afterInit (c : HttpConnection) : Reception := ⟨c.init, [], []⟩

/-- A chunk is appended to what is readable, and its lines are delimited. -/
def arrive (s : Reception) (chunk : List UInt8) : Option Reception := do
  let inputBuffer ← s.conn.inputBuffer.append chunk
  let received := s.received ++ chunk
  let (c, calls) ← parseLines received (inputBuffer.readableBytes + 1)
    { s.conn with inputBuffer := inputBuffer }
  some ⟨c, received, s.calls ++ [calls]⟩

/-- The chunk is appended without compaction. -/
def Fits (s : Reception) (chunk : List UInt8) : Prop := ¬ s.conn.inputBuffer.Compacts chunk.length

/-- The number of lines that were delimited. -/
def lineCount (calls : List LineCall) : Nat := calls.countP (·.status = .LINE_OK)

/-- The calls behind a chunk, once `k` lines have been delimited. The last of them stopped, and
only the last. Each had all of what was received, returned what the reference does on the text
behind the lines delimited before it, and left as much of that text. -/
structure Traced (received : List UInt8) (k : Nat) (calls : List LineCall) : Prop where
  result : ∀ (i : Nat) (call : LineCall), calls[i]? = some call → call.received = received ∧
    ∃ text, behind CR LF (k + lineCount (calls.take i)) received = some text ∧
      (call.status, call.left) = reference text
  lines : ∀ call ∈ calls.dropLast, call.status = .LINE_OK
  last : ∃ call, calls.getLast? = some call ∧ call.status ≠ .LINE_OK

/-- Behind each chunk `parseLine` was called, on all that had arrived by then. -/
structure FollowsReference (chunks : List (List UInt8)) (s : Reception) : Prop where
  rounds : s.calls.length = chunks.length
  traced : ∀ (i : Nat) (calls : List LineCall), s.calls[i]? = some calls →
    Traced (chunks.take (i + 1)).flatten (lineCount (s.calls.take i).flatten) calls

/-- A chunk arrives as `read` brings it. -/
theorem arrive_eq_read {s : Reception} {chunk : List UInt8} (h : s.conn.inputBuffer.WellFormed)
    (hne : chunk ≠ []) (hint : chunk.length < 2 ^ 31) (hfits : Fits s chunk) :
    arrive s chunk = (s.conn.read (.bytes chunk)).bind fun r =>
      (parseLines (s.received ++ chunk) (r.1.inputBuffer.readableBytes + 1) r.1).bind fun t =>
        some ⟨t.1, s.received ++ chunk, s.calls ++ [t.2]⟩ := by
  have hpos : ¬ (chunk.length : Int) ≤ 0 := by
    have hlen := List.length_pos_of_ne_nil hne
    omega
  rw [arrive, read, readFd_eq_append h hint hfits, Option.bind_eq_bind, Option.map_eq_bind]
  cases s.conn.inputBuffer.append chunk with
  | none => rfl
  | some b =>
    simp only [Option.bind_eq_bind, Option.bind_some, Function.comp, if_neg hpos]

/-! ## One call

The branch on an LF looks at the byte in front of the readable ones, which an earlier call may
have consumed. Behind a delimited line this byte is a NUL. -/

/-- No CR stands between the start of the storage and the read index. -/
def NoStale (b : Buffer) : Prop :=
  ∀ p x, kCheapPrepend ≤ p → p < b.readerIndex → b.buffer[p]? = some x → x ≠ CR

section Scan

variable {b b' : Buffer} {s rest : List UInt8} {x : UInt8}

theorem lf_ne_cr : LF ≠ CR := by decide

theorem noStale_start (h : b.readerIndex = kCheapPrepend) : NoStale b := by
  intro p x hlo hhi
  omega

theorem NoStale.not_afterCr (h : NoStale b) : ¬ AfterCr b := by
  rintro ⟨hpos, hcr⟩
  exact h _ CR (by omega) (by omega) hcr rfl

/-- A byte that is consumed and is not a CR. -/
theorem NoStale.retrieve (h : NoStale b) (hread : b.readable = x :: rest) (hx : x ≠ CR) :
    NoStale (b.retrieve 1) := by
  unfold Buffer.retrieve
  split
  · intro p y hlo hhi hy
    have hhi : p < b.readerIndex + 1 := hhi
    rcases Nat.lt_succ_iff_lt_or_eq.mp hhi with hlt | rfl
    · exact h p y hlo hlt hy
    · -- the byte at the read index
      have hbyte : b.buffer[b.readerIndex]? = some x := peek_cons hread
      cases hbyte.symm.trans hy
      exact hx
  · exact noStale_start rfl

/-- The CR and the LF of a delimited line are NULs. -/
theorem NoStale.delimited (h : NoStale b) (hwf : b.WellFormed) : NoStale (delimited b 0) := by
  have hin := hwf.inside
  have hord := hwf.order
  unfold HttpConnection.delimited Buffer.retrieve
  split
  · intro p y hlo hhi hy
    have hhi : p < b.readerIndex + (0 + 1) + 1 := hhi
    have hy : (overwrite b.buffer (b.readerIndex + 0) [0, 0])[p]? = some y := hy
    rw [overwrite_getElem? (by omega)] at hy
    split at hy
    · next hlt => exact h p y hlo (by omega) hy
    · rw [if_pos (show p < b.readerIndex + 0 + [(0 : UInt8), 0].length by
        show p < b.readerIndex + 0 + 2
        omega)] at hy
      have hmem := List.mem_of_getElem? hy
      have hzero : y = 0 := by simpa using hmem
      rw [hzero]
      decide
  · exact noStale_start rfl

/-- **One call.** On a buffer without a stale CR the loop is the reference scanner. -/
theorem parseLineLoop_reference (h : b.WellFormed) (hstale : NoStale b) {fuel : Nat}
    (hfuel : b.readable.length < fuel) : ∃ b', parseLineLoop fuel b
      = some (b', (reference b.readable).1) ∧ b'.WellFormed ∧ NoStale b' ∧
        b'.readable = (reference b.readable).2 := by
  -- induction on the rounds, by the byte that `parseLine` and the reference look at
  induction fuel generalizing b with
  | zero => exact absurd hfuel (Nat.not_lt_zero _)
  | succ fuel ih =>
    unfold reference at ih ⊢
    cases hread : b.readable with
    | nil => exact ⟨b, parseLineLoop_nil h hread fuel, h, hstale, hread⟩
    | cons x rest =>
      by_cases hcr : x = CR
      · subst hcr
        rw [parseLineLoop_atCr h hread]
        cases rest with
        | nil =>
          rw [scan_cr_nil]
          exact ⟨b, parseCr_open h hread, h, hstale, hread⟩
        | cons y rest =>
          by_cases hlf : y = LF
          · subst hlf
            rw [scan_cr_lf]
            obtain ⟨hwf', hread', -⟩ := delimited_nil h hread
            exact ⟨_, parseCr_line h hread, hwf', hstale.delimited h, hread'⟩
          · rw [scan_cr_other hlf]
            exact ⟨b, parseCr_bad h hlf hread, h, hstale, hread⟩
      · by_cases hlf : x = LF
        · -- the byte in front of it is not a CR
          subst hlf
          rw [parseLineLoop_atLf h hread, scan_lf lf_ne_cr]
          exact ⟨b, parseLf_bad h hread hstale.not_afterCr, h, hstale, hread⟩
        · obtain ⟨hwf₁, hread₁⟩ := retrieve_spec h 1
          rw [hread, List.drop_one, List.tail_cons] at hread₁
          have hlen : (b.retrieve 1).readable.length < fuel := by
            rw [hread, List.length_cons] at hfuel
            rw [hread₁]
            omega
          rw [parseLineLoop_plain h hread ⟨hcr, hlf⟩, scan_plain hcr hlf, ← hread₁]
          exact ih hwf₁ (hstale.retrieve hread hcr) hlen

theorem scanLine_reference (h : b.WellFormed) (hstale : NoStale b) :
    ∃ b', scanLine b = some (b', (reference b.readable).1) ∧ b'.WellFormed ∧ NoStale b' ∧
      b'.readable = (reference b.readable).2 := by
  apply parseLineLoop_reference h hstale
  rw [h.readable_length]
  exact Nat.lt_succ_self _

end Scan

/-! ## The calls behind a chunk -/

section Calls

variable {c d : HttpConnection} {received text : List UInt8} {calls more : List LineCall} {k : Nat}

/-- The readable bytes stand for the text behind the first `k` lines, whatever is still to come. -/
structure Stands (c : HttpConnection) (received : List UInt8) (k : Nat) : Prop where
  wellFormed : c.inputBuffer.WellFormed
  noStale : NoStale c.inputBuffer
  text : ∃ text, behind CR LF k received = some text ∧
    ∀ more, scan CR LF (c.inputBuffer.readable ++ more) = scan CR LF (text ++ more)

theorem lineCount_cons (call : LineCall) (calls : List LineCall) : lineCount (call :: calls) =
    lineCount calls + if call.status = .LINE_OK then 1 else 0 := by
  rw [lineCount, List.countP_cons, lineCount]
  simp only [decide_eq_true_eq]

theorem lineCount_append (calls more : List LineCall) :
    lineCount (calls ++ more) = lineCount calls + lineCount more := List.countP_append

theorem statusOf_ok {v : Verdict} : statusOf v = .LINE_OK ↔ v = .complete := by
  cases v <;> decide

/-- A call that delimits a line, with the calls behind it. -/
theorem Traced.cons (h : Traced received (k + 1) calls) {call : LineCall}
    (hreceived : call.received = received) (hbehind : behind CR LF k received = some text)
    (hcall : (call.status, call.left) = reference text) (hok : call.status = .LINE_OK) :
    Traced received k (call :: calls) := by
  constructor
  · intro i other hi
    cases i with
    | zero =>
      cases hi
      exact ⟨hreceived, text, hbehind, hcall⟩
    | succ i =>
      obtain ⟨hsame, text', hbehind', hresult⟩ := h.result i other hi
      refine ⟨hsame, text', ?_, hresult⟩
      rw [List.take_succ_cons, lineCount_cons, if_pos hok,
        show k + (lineCount (calls.take i) + 1) = k + 1 + lineCount (calls.take i) by omega]
      exact hbehind'
  · obtain ⟨last, hlast, -⟩ := h.last
    have hne : calls ≠ [] := by
      rintro rfl
      cases hlast
    rw [List.dropLast_cons_of_ne_nil hne]
    intro other hother
    rcases List.mem_cons.mp hother with rfl | hmem
    · exact hok
    · exact h.lines other hmem
  · obtain ⟨last, hlast, hstop⟩ := h.last
    refine ⟨last, ?_, hstop⟩
    rw [List.getLast?_cons, hlast]
    rfl

/-- A call that stops. -/
theorem traced_singleton (hbehind : behind CR LF k received = some text) {call : LineCall}
    (hreceived : call.received = received) (hcall : (call.status, call.left) = reference text)
    (hstop : call.status ≠ .LINE_OK) : Traced received k [call] := by
  constructor
  · intro i other hi
    cases i with
    | zero =>
      cases hi
      exact ⟨hreceived, text, hbehind, hcall⟩
    | succ i => cases hi
  · nofun
  · exact ⟨call, rfl, hstop⟩

/-- **The calls behind a chunk.** They stop, and are those of the reference. -/
theorem parseLines_spec (h : Stands c received k) {fuel : Nat}
    (hfuel : c.inputBuffer.readable.length < fuel) : ∃ d calls,
      parseLines received fuel c = some (d, calls) ∧ Traced received k calls ∧
        Stands d received (k + lineCount calls) := by
  induction fuel generalizing c k with
  | zero => exact absurd hfuel (Nat.not_lt_zero _)
  | succ fuel ih =>
    obtain ⟨text, hbehind, hsame⟩ := h.text
    have hscan := hsame []
    rw [List.append_nil, List.append_nil] at hscan
    obtain ⟨b, hb, hwf, hstale, hleft⟩ := scanLine_reference h.wellFormed h.noStale
    have href : reference c.inputBuffer.readable = reference text := by
      rw [reference, reference, hscan]
    have hline : c.parseLine = some ({ c with inputBuffer := b }, (reference text).1) := by
      rw [parseLine, hb, href]
      rfl
    have hresult : ((reference text).1, b.readable) = reference text := by
      rw [hleft, href]
    rw [parseLines, hline, Option.bind_eq_bind, Option.bind_some]
    by_cases hok : (reference text).1 = .LINE_OK
    · -- a line more is delimited, and the text goes on behind it
      have hverdict : (scan CR LF text).1 = .complete := statusOf_ok.mp hok
      have hcomplete : scan CR LF text = (.complete, b.readable) := by
        rw [hleft, href, reference, ← hverdict]
      have hbytes := scan_length lf_ne_cr (hscan.trans hcomplete)
      have hnext : Stands { c with inputBuffer := b } received (k + 1) :=
        ⟨hwf, hstale, b.readable, behind_succ hbehind hcomplete, fun _ => rfl⟩
      obtain ⟨d, calls, hrun, htraced, hstands⟩ := ih hnext (by
        show b.readable.length < fuel
        omega)
      refine ⟨d, ⟨received, (reference text).1, b.readable⟩ :: calls, ?_,
        htraced.cons rfl hbehind hresult hok, ?_⟩
      · dsimp only
        rw [if_pos hok, hrun]
        rfl
      · rw [lineCount_cons, if_pos hok, ← Nat.add_assoc, Nat.add_right_comm]
        exact hstands
    · -- what is left of the open or malformed line stands for the whole of it
      have hverdict : (scan CR LF c.inputBuffer.readable).1 ≠ .complete := by
        intro hcomplete
        rw [hscan] at hcomplete
        exact hok (statusOf_ok.mpr hcomplete)
      refine ⟨{ c with inputBuffer := b }, [⟨received, (reference text).1, b.readable⟩], ?_,
        traced_singleton hbehind rfl hresult hok, hwf, hstale, text, ?_, fun more => ?_⟩
      · exact if_neg hok
      · rw [lineCount_cons, if_neg hok]
        exact hbehind
      · show scan CR LF (b.readable ++ more) = _
        rw [hleft]
        exact (scan_left lf_ne_cr hverdict more).trans (hsame more)

/-- A chunk is put behind what is readable. -/
theorem Stands.append (h : Stands c received k) {chunk : List UInt8} {b : Buffer}
    (hx : Extends c.inputBuffer chunk b) :
    Stands { c with inputBuffer := b } (received ++ chunk) k := by
  obtain ⟨text, hbehind, hsame⟩ := h.text
  refine ⟨hx.wellFormed, ?_, text ++ chunk, behind_append lf_ne_cr chunk hbehind, fun more => ?_⟩
  · intro p x hlo hhi hbyte
    have hhi : p < b.readerIndex := hhi
    rw [hx.readerIndex] at hhi
    have hord := h.wellFormed.order
    exact h.noStale p x hlo hhi ((hx.getElem? (by omega)).symm.trans hbyte)
  · show scan CR LF (b.readable ++ more) = _
    rw [hx.readable h.wellFormed, List.append_assoc, List.append_assoc]
    exact hsame (chunk ++ more)

end Calls

/-! ## A stream

A line that was scanned in part has lost its first bytes from the readable region, but what is
left stands for the whole of it: the next call stops where the reference does. -/

section Stream

variable {s t : Reception} {c : HttpConnection} {chunk : List UInt8} {chunks : List (List UInt8)}

/-- What holds behind any number of chunks. -/
structure Sound (chunks : List (List UInt8)) (s : Reception) : Prop where
  received : s.received = chunks.flatten
  stands : Stands s.conn s.received (lineCount s.calls.flatten)
  follows : FollowsReference chunks s

theorem afterInit_sound (h : c.inputBuffer.WellFormed) : Sound [] (afterInit c) := by
  obtain ⟨hwf, hread⟩ := retrieveAll_spec h
  refine ⟨rfl, ⟨hwf, noStale_start rfl, [], rfl, fun more => ?_⟩, ⟨rfl, nofun⟩⟩
  show scan CR LF (c.inputBuffer.retrieveAll.readable ++ more) = _
  rw [hread]

/-- The calls behind one chunk more. -/
theorem FollowsReference.concat (h : FollowsReference chunks s) {d : HttpConnection}
    {received : List UInt8} {calls : List LineCall}
    (hcalls : Traced (chunks ++ [chunk]).flatten (lineCount s.calls.flatten) calls) :
    FollowsReference (chunks ++ [chunk]) ⟨d, received, s.calls ++ [calls]⟩ := by
  have hrounds := h.rounds
  refine ⟨?_, fun i other hi => ?_⟩
  · show (s.calls ++ [calls]).length = _
    rw [List.length_append, List.length_append, hrounds]
    rfl
  · have hi : (s.calls ++ [calls])[i]? = some other := hi
    show Traced _ (lineCount ((s.calls ++ [calls]).take i).flatten) other
    rcases Nat.lt_or_ge i s.calls.length with hlt | hge
    · -- an earlier chunk
      rw [List.getElem?_append_left hlt] at hi
      rw [List.take_append_of_le_length (by omega), List.take_append_of_le_length (by omega)]
      exact h.traced i other hi
    · -- the last one, when all of the stream had arrived
      rw [List.getElem?_append_right hge] at hi
      obtain ⟨hin, hother⟩ := List.getElem?_eq_some_iff.mp hi
      have hin : i - s.calls.length < 1 := hin
      have hlast : i = s.calls.length := by omega
      subst hlast
      rw [List.getElem_singleton] at hother
      subst hother
      rw [List.take_left, List.take_of_length_le (by
        rw [List.length_append, hrounds]
        exact Nat.le_refl _)]
      exact hcalls

/-- A chunk that fits is received, and its calls are those of the reference. -/
theorem arrive_sound (h : Sound chunks s) (hfits : Fits s chunk) :
    ∃ t, arrive s chunk = some t ∧ Sound (chunks ++ [chunk]) t := by
  obtain ⟨b, hb, hx, -⟩ := append_spec h.stands.wellFormed hfits
  have hstands := h.stands.append hx
  obtain ⟨d, calls, hrun, htraced, hdone⟩ := parseLines_spec hstands
    (show b.readable.length < b.readableBytes + 1 by
      rw [hx.wellFormed.readable_length]
      omega)
  have hreceived : s.received ++ chunk = (chunks ++ [chunk]).flatten := by
    rw [h.received, List.flatten_append, List.flatten_singleton]
  refine ⟨⟨d, s.received ++ chunk, s.calls ++ [calls]⟩, ?_, hreceived, ?_, ?_⟩
  · rw [arrive, hb, Option.bind_eq_bind, Option.bind_some]
    dsimp only
    rw [hrun]
    rfl
  · rw [List.flatten_append, List.flatten_singleton, lineCount_append]
    exact hdone
  · rw [hreceived] at htraced
    exact h.follows.concat htraced

/-- **Lines in chunks.** For every connection after `init()` and every stream, in whatever chunks
it arrives: while each chunk is appended without compaction, `parseLine` is called behind each of
them until it does not return `LINE_OK`. Every call returns, and its status and what it leaves
readable are those of the reference on what has been received, behind the lines that were delimited
before. -/
theorem delimiting_follows_reference (h : c.inputBuffer.WellFormed)
    (hfits : Along arrive Fits (afterInit c) chunks) :
    ∃ s, exec arrive (afterInit c) chunks = some s ∧ s.received = chunks.flatten ∧
      FollowsReference chunks s := by
  obtain ⟨s, hs, hsound⟩ := exec_progress (afterInit_sound h)
    (fun _ _ _ hsound hchunk => arrive_sound hsound hchunk) hfits
  exact ⟨s, hs, hsound.received, hsound.follows⟩

/-- A line cut between its CR and its LF, with a malformed one behind it. -/
theorem delimiting_follows_reference_cut : ∃ s,
    exec arrive (afterInit sampleConnection) [ascii "GET /\r", ascii "\nHost\n"] = some s ∧
      s.received = ascii "GET /\r\nHost\n" ∧
        FollowsReference [ascii "GET /\r", ascii "\nHost\n"] s := by
  have hsecond : (arrive (afterInit sampleConnection) (ascii "GET /\r")).all
      (fun t => !decide (t.conn.inputBuffer.Compacts 6)) = true := by decide +kernel
  have hfits : Along arrive Fits (afterInit sampleConnection)
      [ascii "GET /\r", ascii "\nHost\n"] := by
    refine ⟨(by decide +kernel : ¬ sampleConnection.init.inputBuffer.Compacts 6), fun t ht => ?_⟩
    rw [ht, Option.all_some] at hsecond
    have hfits : ¬ t.conn.inputBuffer.Compacts 6 := by simpa using hsecond
    exact ⟨hfits, fun _ _ => trivial⟩
  exact delimiting_follows_reference (by decide +kernel) hfits

end Stream

end HttpConnection

end HttpWebserver
