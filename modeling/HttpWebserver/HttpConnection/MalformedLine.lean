import HttpWebserver.HttpConnection.DoRequest
import HttpWebserver.HttpConnection.LineDelivery
import HttpWebserver.HttpConnection.LineScanner

/-!
# HttpConnection — malformed lines

`parseLine` returns `LINE_BAD` for a CR or an LF that stands alone, and consumes neither of them.

* `Malformed`: such a byte is the first CR or LF of what is readable;
* `Rejects`: `processRead` returns `BAD_REQUEST`;
* `Hopeless`: whatever bytes are received, every call of `processRead` returns `NO_REQUEST`;
* **`malformed_waited_on`** — in the states that read lines, `processRead` never rejects a
  malformed line. It returns `NO_REQUEST` and leaves a hopeless connection.

`LINE_BAD` ends the loop of `processRead` as `LINE_OPEN` does, and behind the loop there is one
`return NO_REQUEST`. The line is still in front at the next call.
-/

namespace HttpWebserver.HttpConnection

open Buffer CString LineFraming Machine Storage

/-- The first CR or LF of what is readable is a CR with another byte than an LF behind it, or an
LF without a CR in front. -/
def Malformed (b : Buffer) : Prop :=
  (scan CR LF b.readable).1 = .malformed ∧ ¬ (b.readable.head? = some LF ∧ AfterCr b)

instance (b : Buffer) : Decidable (Malformed b) := by
  unfold Malformed
  infer_instance

/-- `processRead` returns `BAD_REQUEST`. -/
def Rejects {ω : Type} (H : Handlers ω) (w : ω) (c : HttpConnection) : Prop :=
  ∃ w' c' calls, processRead H w c = some (.returned w' c' .BAD_REQUEST, calls)

/-- Bytes are received, and `processRead` returns `NO_REQUEST`. -/
def await {ω : Type} (H : Handlers ω) (c : HttpConnection) (l : ω × List UInt8) :
    Option HttpConnection := do
  let (c, ok) ← c.read (.bytes l.2)
  if ok then
    match processRead H l.1 c with
    | some (.returned _ c .NO_REQUEST, _) => some c
    | _ => none
  else none

/-- However many bytes are received, in whatever chunks `readv` transfers them: the next call of
`processRead` returns `NO_REQUEST` as well, and calls no handler. -/
def Hopeless {ω : Type} (H : Handlers ω) (c : HttpConnection) : Prop :=
  ∀ ls d, (∀ l ∈ ls, l.2.length ≤ maxTransfer) → exec (await H) c ls = some d →
    ∀ w chunk c₁, chunk.length ≤ maxTransfer → d.read (.bytes chunk) = some (c₁, true) →
      ∃ c₂, processRead H w c₁ = some (.returned w c₂ .NO_REQUEST, [])

/-! ## The scan

It stops at the malformed byte with the bytes in front of it consumed, and the next call finds the
same byte again. -/

section Scan

variable {b b' : Buffer} {chunk : List UInt8}

theorem Malformed.readable_ne_nil (h : Malformed b) : b.readable ≠ [] := by
  intro hnil
  have hverdict := h.1
  rw [hnil] at hverdict
  cases hverdict

/-- The scan passes over what stands in front of the byte, and stops there. -/
theorem parseLineLoop_malformed (h : b.WellFormed) (hbad : Malformed b) {fuel : Nat}
    (hfuel : b.readable.length < fuel) : ∃ b', parseLineLoop fuel b = some (b', .LINE_BAD) ∧
      b'.WellFormed ∧ Malformed b' := by
  induction fuel generalizing b with
  | zero => exact absurd hfuel (Nat.not_lt_zero _)
  | succ fuel ih =>
    obtain ⟨x, rest, hread⟩ := List.exists_cons_of_ne_nil hbad.readable_ne_nil
    obtain ⟨hverdict, halone⟩ := id hbad
    rw [hread] at hverdict halone hfuel
    by_cases hcr : x = CR
    · subst hcr
      cases rest with
      | nil =>
        rw [scan_cr_nil] at hverdict
        cases hverdict
      | cons y rest =>
        have hlf : y ≠ LF := by
          rintro rfl
          rw [scan_cr_lf] at hverdict
          cases hverdict
        rw [parseLineLoop_atCr h hread]
        exact ⟨b, parseCr_bad h hlf hread, h, hbad⟩
    · by_cases hlf : x = LF
      · subst hlf
        rw [parseLineLoop_atLf h hread]
        exact ⟨b, parseLf_bad h hread fun hcr => halone ⟨rfl, hcr⟩, h, hbad⟩
      · rw [scan_plain hcr hlf] at hverdict
        have hne : rest ≠ [] := by
          rintro rfl
          cases hverdict
        have hlen : 1 < b.readable.length := by
          rw [hread, List.length_cons]
          have hpos := List.length_pos_iff.mpr hne
          omega
        have hnext : (b.skip 1).readable = rest := by
          rw [skip_readable, hread]
          rfl
        have hbyte : b.buffer[b.readerIndex]? = some x := peek_cons hread
        rw [parseLineLoop_plain h hread ⟨hcr, hlf⟩, retrieve_eq_skip h hlen]
        apply ih (skip_wellFormed h (by omega))
        · refine ⟨by rw [hnext]; exact hverdict, ?_⟩
          -- the byte in front is the one that was consumed
          rintro ⟨-, -, hstale⟩
          cases hbyte.symm.trans hstale
          exact hcr rfl
        · rw [hnext]
          rw [List.length_cons] at hfuel
          omega

theorem scanLine_malformed (h : b.WellFormed) (hbad : Malformed b) :
    ∃ b', scanLine b = some (b', .LINE_BAD) ∧ b'.WellFormed ∧ Malformed b' := by
  apply parseLineLoop_malformed h hbad
  rw [h.readable_length]
  exact Nat.lt_succ_self _

/-- No byte that is stored behind it changes that. -/
theorem Malformed.extends (hbad : Malformed b) (h : b.WellFormed) (hx : Extends b chunk b') :
    Malformed b' := by
  have hord := h.order
  obtain ⟨hverdict, halone⟩ := id hbad
  constructor
  · rw [hx.readable h]
    have happend := scan_append_malformed lf_ne_cr chunk
      (show scan CR LF b.readable = (.malformed, (scan CR LF b.readable).2) by rw [← hverdict])
    rw [happend]
  · rintro ⟨hhead, hpos, hcr⟩
    rw [hx.readable h, List.head?_append_of_ne_nil _ hbad.readable_ne_nil] at hhead
    rw [hx.readerIndex] at hpos hcr
    rw [hx.getElem? (by omega)] at hcr
    exact halone ⟨hhead, hpos, hcr⟩

end Scan

/-! ## The calls of `processRead`

`LINE_BAD` ends the loop as `LINE_OPEN` does, so `NO_REQUEST` is returned for both. -/

section Process

variable {ω : Type} {H : Handlers ω} {w : ω} {c d : HttpConnection} {chunk : List UInt8}

/-- A connection that reads lines, with a malformed one in front. -/
structure AtMalformed (c : HttpConnection) : Prop where
  wellFormed : c.inputBuffer.WellFormed
  state : c.checkState = .CHECK_STATE_REQUESTLINE ∨ c.checkState = .CHECK_STATE_HEADER
  malformed : Malformed c.inputBuffer

/-- A round of the loop that meets a malformed line is the last one. -/
theorem processReadLoop_malformed (h : AtMalformed c) (fuel : Nat) (calls : List Call) :
    ∃ c', processReadLoop getLine H (fuel + 1) w c .LINE_OK calls
      = some (.returned w c' .NO_REQUEST, calls) ∧ AtMalformed c' := by
  obtain ⟨b, hb, hwf, hbad⟩ := scanLine_malformed h.wellFormed h.malformed
  have hlines : ¬ (c.checkState = .CHECK_STATE_CONTENT ∧ LineStatus.LINE_OK = .LINE_OK) := by
    rintro ⟨hstate, -⟩
    rcases h.state with hline | hline
    · cases hline.symm.trans hstate
    · cases hline.symm.trans hstate
  have hnext : c.nextLine .LINE_OK = some ({ c with inputBuffer := b }, .LINE_BAD) :=
    nextLine_scan hlines hb
  refine ⟨{ c with inputBuffer := b }, ?_, hwf, h.state, hbad⟩
  exact processReadLoop_noLine hnext (by decide) fuel calls

theorem processRead_malformed (h : AtMalformed c) : ∃ c',
    processRead H w c = some (.returned w c' .NO_REQUEST, []) ∧ AtMalformed c' :=
  processReadLoop_malformed h _ []

/-- What `read` transfers goes behind the line. -/
theorem AtMalformed.read (h : AtMalformed c) (hmax : chunk.length ≤ maxTransfer) {ok : Bool}
    (hread : c.read (.bytes chunk) = some (d, ok)) : AtMalformed d := by
  by_cases hc : c.inputBuffer.Compacts chunk.length
  · rw [read_compact h.wellFormed hmax hc] at hread
    cases hread
  · have hint : chunk.length < 2 ^ 31 := Nat.lt_of_le_of_lt hmax (by decide)
    obtain ⟨b, hb, hx, -⟩ := readFd_spec h.wellFormed hint hc
    obtain ⟨ok', hd⟩ := read_spec hb
    cases hd.symm.trans hread
    exact ⟨hx.wellFormed, h.state, h.malformed.extends h.wellFormed hx⟩

/-- A step that receives bytes. -/
theorem AtMalformed.await (h : AtMalformed c) {l : ω × List UInt8}
    (hmax : l.2.length ≤ maxTransfer) (hstep : await H c l = some d) : AtMalformed d := by
  obtain ⟨⟨c₁, ok⟩, hread, hstep⟩ := Option.bind_eq_some_iff.mp hstep
  obtain ⟨c₂, hrun, hnext⟩ := processRead_malformed (H := H) (w := l.1) (h.read hmax hread)
  dsimp only at hstep
  split at hstep
  · rw [hrun] at hstep
    cases hstep
    exact hnext
  · cases hstep

theorem AtMalformed.hopeless (h : AtMalformed c) : Hopeless H c := by
  intro ls d hmax hrun w chunk c₁ hchunk hread
  have hd : AtMalformed d := by
    induction ls generalizing c with
    | nil =>
      cases hrun
      exact h
    | cons l ls ih =>
      obtain ⟨c₂, hstep, hrun⟩ := Option.bind_eq_some_iff.mp hrun
      obtain ⟨hl, hls⟩ := List.forall_mem_cons.mp hmax
      exact ih (h.await hl hstep) hls hrun
  obtain ⟨c₂, hc₂, -⟩ := processRead_malformed (H := H) (w := w) (hd.read hchunk hread)
  exact ⟨c₂, hc₂⟩

/-- **A malformed line is waited on.** Whatever the handlers do, for every connection in
`CHECK_STATE_REQUESTLINE` or `CHECK_STATE_HEADER` whose next line is malformed: `processRead` does
not return `BAD_REQUEST`. It returns `NO_REQUEST` and calls no handler, and no bytes received later
make it return anything else. -/
theorem malformed_waited_on (H : Handlers ω) (w : ω) (h : c.inputBuffer.WellFormed)
    (hstate : c.checkState = .CHECK_STATE_REQUESTLINE ∨ c.checkState = .CHECK_STATE_HEADER)
    (hbad : Malformed c.inputBuffer) :
    ¬ Rejects H w c ∧
      ∃ c', processRead H w c = some (.returned w c' .NO_REQUEST, []) ∧ Hopeless H c' := by
  obtain ⟨c', hrun, hc'⟩ := processRead_malformed (H := H) (w := w) ⟨h, hstate, hbad⟩
  refine ⟨?_, c', hrun, hc'.hopeless⟩
  rintro ⟨w', d, calls, hreject⟩
  cases hrun.symm.trans hreject

/-- A connection in its first state that has received a text. -/
def holding (text : String) : HttpConnection :=
  { zeroed with
    inputBuffer := ⟨List.replicate kCheapPrepend 0 ++ ascii text, kCheapPrepend,
      kCheapPrepend + (ascii text).length⟩ }

/-- A CR with another byte behind it. -/
theorem malformed_waited_on_cr :
    ¬ Rejects (handlers sampleSite) sampleWorld (holding "GET /\rX") ∧
      ∃ c', processRead (handlers sampleSite) sampleWorld (holding "GET /\rX")
        = some (.returned sampleWorld c' .NO_REQUEST, []) ∧ Hopeless (handlers sampleSite) c' :=
  malformed_waited_on (handlers sampleSite) sampleWorld (by decide +kernel) (.inl rfl)
    (by decide +kernel)

/-- A line that ends with an LF alone is answered with `NO_REQUEST`. -/
theorem bare_lf_not_rejected : Malformed (holding "GET / HTTP/1.1\n").inputBuffer ∧
    ¬ Rejects (handlers sampleSite) sampleWorld (holding "GET / HTTP/1.1\n") := by
  have hbad : Malformed (holding "GET / HTTP/1.1\n").inputBuffer := by decide +kernel
  refine ⟨hbad, ?_⟩
  rintro ⟨w', d, calls, hreject⟩
  obtain ⟨c', hrun, -⟩ := processRead_malformed (H := handlers sampleSite) (w := sampleWorld)
    ⟨by decide +kernel, .inl rfl, hbad⟩
  cases hrun.symm.trans hreject

end Process

end HttpWebserver.HttpConnection
