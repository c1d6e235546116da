import HttpWebserver.HttpConnection.DoRequest

/-!
# HttpConnection — the request loop ends

Whatever is readable and whatever the line handlers return, the loop of `processRead` ends, and so
does the loop of `parseLine` in its condition.

* `parseLineLoop_ends`: the inner loop takes at most a round for each readable byte, and consumes
  two of them for a line, or the LF alone behind a CR that was passed over before;
* `Edited`, `LineHandlers`: what a line handler may do to the input buffer, and that the handlers
  of the connection do no more (`handlers_lines`);
* `roundBound`: the lines that can still be delimited, and the look at a body. Every round lowers
  it (`roundBound_lt`);
* **`processRead_ends`** — after half as many rounds as there are readable bytes, and two.

The CR of a delimited line is a NUL, so only the first line can end with an LF alone. A body is
looked at without delimiting a line once: behind it `lineStatus` is `LINE_OPEN`.
-/

namespace HttpWebserver

namespace HttpConnection

open Buffer PartialRules Storage

/-! ## The loop of `parseLine`

Each round consumes a byte. A delimited line takes two of them, or one where its CR was passed
over before, and leaves a NUL in front of the rest. -/

section Scan

variable {b b' : Buffer} {x : UInt8} {status : LineStatus}

/-- A byte that is consumed and is not a CR. -/
theorem retrieve_not_afterCr (hbyte : b.buffer[b.readerIndex]? = some x) (hx : x ≠ CR) :
    ¬ AfterCr (b.retrieve 1) := by
  rintro ⟨hpos, hcr⟩
  unfold Buffer.retrieve at hpos hcr
  split at hcr
  · have hcr : b.buffer[b.readerIndex + 1 - 1]? = some CR := hcr
    rw [Nat.add_sub_cancel, hbyte] at hcr
    cases hcr
    exact hx rfl
  · next hall =>
    -- the indices are reset
    rw [if_neg hall] at hpos
    have hpos : kCheapPrepend + 1 < kCheapPrepend := hpos
    omega

/-- `parseLine` leaves a NUL in front of what it has not consumed. -/
theorem eraseByte_not_afterCr (b : Buffer) : Ensures (fun b' => ¬ AfterCr b') (eraseByte b) := by
  unfold eraseByte
  refine ensures_bind_eq fun buffer hwrite => ensures_some ?_
  rw [writeAt] at hwrite
  split at hwrite
  · next hfit =>
    cases hwrite
    have hfit : b.readerIndex + 1 ≤ b.buffer.length := hfit
    refine retrieve_not_afterCr (x := 0) ?_ (by decide)
    show (overwrite b.buffer b.readerIndex [0])[b.readerIndex]? = some 0
    have hlt : b.readerIndex < b.readerIndex + [(0 : UInt8)].length := Nat.lt_succ_self _
    rw [overwrite_getElem? (by omega), if_neg (Nat.lt_irrefl _), if_pos hlt, Nat.sub_self]
    rfl
  · cases hwrite

theorem parseCr_not_afterCr (b : Buffer) :
    Ensures (fun r => r.2 = .LINE_OK → ¬ AfterCr r.1) (parseCr b) := by
  unfold parseCr
  refine ensures_ite (fun _ => ensures_some LineStatus.noConfusion) fun _ => ?_
  refine ensures_bind_eq fun next _ => ?_
  refine ensures_ite (fun _ => ?_) fun _ => ensures_some LineStatus.noConfusion
  refine ensures_bind_eq fun b₁ _ => ensures_bind (eraseByte_not_afterCr b₁) fun b₂ h => ?_
  exact ensures_some fun _ => h

theorem parseLf_not_afterCr (b : Buffer) :
    Ensures (fun r => r.2 = .LINE_OK → ¬ AfterCr r.1) (parseLf b) := by
  unfold parseLf
  have hline : ∀ afterCr : Bool,
      Ensures (fun r : Buffer × LineStatus => r.2 = .LINE_OK → ¬ AfterCr r.1) (if afterCr then
        (writeAt b.buffer (b.peek - 1) [0]).bind fun buffer =>
          (eraseByte { b with buffer := buffer }).bind fun b => some (b, .LINE_OK)
      else some (b, .LINE_BAD)) := by
    intro afterCr
    refine ensures_ite (fun _ => ?_) fun _ => ensures_some LineStatus.noConfusion
    refine ensures_bind_eq fun buffer _ => ?_
    exact ensures_bind (eraseByte_not_afterCr _) fun b₂ h => ensures_some fun _ => h
  exact ensures_ite (fun _ => ensures_bind_eq fun afterCr _ => hline afterCr)
    fun _ => ensures_bind_eq fun afterCr _ => hline afterCr

/-- No CR is in front of the bytes behind a delimited line. -/
theorem parseLineLoop_not_afterCr (fuel : Nat) (b : Buffer) :
    Ensures (fun r => r.2 = .LINE_OK → ¬ AfterCr r.1) (parseLineLoop fuel b) := by
  induction fuel generalizing b with
  | zero => exact fun r hr => by cases hr
  | succ fuel ih =>
    unfold parseLineLoop
    refine ensures_ite (fun _ => ensures_some LineStatus.noConfusion) fun _ => ?_
    refine ensures_bind_eq fun temp _ => ?_
    exact ensures_ite (fun _ => parseCr_not_afterCr b) fun _ =>
      ensures_ite (fun _ => parseLf_not_afterCr b) fun _ => ih _

/-- What a delimited line takes of the readable bytes. -/
def Takes (b b' : Buffer) : Prop :=
  b'.readable.length + 2 ≤ b.readable.length ∨
    AfterCr b ∧ b'.readable.length + 1 ≤ b.readable.length

/-- **The inner loop.** It ends within a round for each readable byte and one more, and its result
does not depend on the fuel. -/
theorem parseLineLoop_ends (h : b.WellFormed) : ∃ b' status,
    (∀ fuel, b.readable.length < fuel → parseLineLoop fuel b = some (b', status)) ∧
      b'.WellFormed ∧ (status = .LINE_OK → Takes b b') := by
  generalize hlist : b.readable = l
  -- induction on the readable bytes: a byte that ends no line is consumed
  induction l generalizing b with
  | nil =>
    refine ⟨b, .LINE_OPEN, fun fuel hfuel => ?_, h, LineStatus.noConfusion⟩
    obtain ⟨fuel, rfl⟩ := Nat.exists_eq_succ_of_ne_zero (Nat.ne_of_gt hfuel)
    exact parseLineLoop_nil h hlist fuel
  | cons x rest ih =>
    have hsucc : ∀ fuel, (x :: rest).length < fuel → ∃ k, fuel = k + 1 ∧ rest.length < k := by
      intro fuel hfuel
      rw [List.length_cons] at hfuel
      exact ⟨fuel - 1, by omega, by omega⟩
    by_cases hcr : x = CR
    · subst hcr
      cases rest with
      | nil =>
        refine ⟨b, .LINE_OPEN, fun fuel hfuel => ?_, h, LineStatus.noConfusion⟩
        obtain ⟨k, rfl, -⟩ := hsucc fuel hfuel
        rw [parseLineLoop_atCr h hlist, parseCr_open h hlist]
      | cons y rest =>
        by_cases hlf : y = LF
        · subst hlf
          obtain ⟨hwf', hread', -⟩ := delimited_nil h hlist
          refine ⟨delimited b 0, .LINE_OK, fun fuel hfuel => ?_, hwf', fun _ => .inl ?_⟩
          · obtain ⟨k, rfl, -⟩ := hsucc fuel hfuel
            rw [parseLineLoop_atCr h hlist, parseCr_line h hlist]
          · rw [hread', hlist]
            exact Nat.le_refl _
        · refine ⟨b, .LINE_BAD, fun fuel hfuel => ?_, h, LineStatus.noConfusion⟩
          obtain ⟨k, rfl, -⟩ := hsucc fuel hfuel
          rw [parseLineLoop_atCr h hlist, parseCr_bad h hlf hlist]
    · by_cases hlf : x = LF
      · subst hlf
        by_cases hafter : AfterCr b
        · obtain ⟨b', hb', hwf', hread'⟩ := parseLf_line h hlist hafter
          refine ⟨b', .LINE_OK, fun fuel hfuel => ?_, hwf', fun _ => .inr ⟨hafter, ?_⟩⟩
          · obtain ⟨k, rfl, -⟩ := hsucc fuel hfuel
            rw [parseLineLoop_atLf h hlist, hb']
          · rw [hread', hlist]
            exact Nat.le_refl _
        · refine ⟨b, .LINE_BAD, fun fuel hfuel => ?_, h, LineStatus.noConfusion⟩
          obtain ⟨k, rfl, -⟩ := hsucc fuel hfuel
          rw [parseLineLoop_atLf h hlist, parseLf_bad h hlist hafter]
      · obtain ⟨hwf₁, hread₁⟩ := retrieve_spec h 1
        rw [hlist, List.drop_one, List.tail_cons] at hread₁
        obtain ⟨b', status, hrun, hwf', htakes⟩ := ih hwf₁ hread₁
        refine ⟨b', status, fun fuel hfuel => ?_, hwf', fun hok => .inl ?_⟩
        · obtain ⟨k, rfl, hk⟩ := hsucc fuel hfuel
          rw [parseLineLoop_plain h hlist ⟨hcr, hlf⟩]
          exact hrun k hk
        · -- behind this byte a line ends with its CR LF
          have hbyte : b.buffer[b.readerIndex]? = some x := peek_cons hlist
          rcases htakes hok with htwo | ⟨hafter, -⟩
          · rw [hread₁] at htwo
            rw [hlist, List.length_cons]
            omega
          · exact absurd hafter (retrieve_not_afterCr hbyte hcr)

/-- The lines that can still be delimited: a CR LF is two bytes, and the LF behind a CR that was
passed over is one. -/
def lineRounds (b : Buffer) : Nat := (b.readable.length + if AfterCr b then 1 else 0) / 2

theorem lineRounds_lt (htakes : Takes b b') (hcr : ¬ AfterCr b') :
    lineRounds b' < lineRounds b := by
  unfold lineRounds
  rw [if_neg hcr]
  rcases htakes with htwo | ⟨hafter, hone⟩
  · split <;> omega
  · rw [if_pos hafter]
    omega

/-- `parseLine` returns, and a line it delimits is one less. -/
theorem scanLine_ends (h : b.WellFormed) : ∃ b' status, scanLine b = some (b', status) ∧
    b'.WellFormed ∧ (status = .LINE_OK → lineRounds b' < lineRounds b) := by
  obtain ⟨b', status, hrun, hwf', htakes⟩ := parseLineLoop_ends h
  have hscan : scanLine b = some (b', status) := hrun _ (by
    rw [h.readable_length]
    exact Nat.lt_succ_self _)
  have hcr := parseLineLoop_not_afterCr _ b _ hscan
  exact ⟨b', status, hscan, hwf', fun hok => lineRounds_lt (htakes hok) (hcr hok)⟩

end Scan

/-! ## What a line handler may do -/

/-- Bytes of the storage are overwritten, with no CR: the indices stay. -/
structure Edited (b b' : Buffer) : Prop where
  readerIndex : b'.readerIndex = b.readerIndex
  writerIndex : b'.writerIndex = b.writerIndex
  length : b'.buffer.length = b.buffer.length
  cr : ∀ i : Nat, b'.buffer[i]? = some CR → b.buffer[i]? = some CR

/-- The line handlers edit the input buffer at most, whatever they return, and `parseContent` does
not leave its state. -/
structure LineHandlers {ω : Type} (H : Handlers ω) : Prop where
  parseRequestLine : ∀ c text,
    Ensures (fun r => Edited c.inputBuffer r.1.inputBuffer) (H.parseRequestLine c text)
  parseHeaders : ∀ c text,
    Ensures (fun r => Edited c.inputBuffer r.1.inputBuffer) (H.parseHeaders c text)
  parseContent : ∀ c text,
    Ensures (fun r => Edited c.inputBuffer r.1.inputBuffer ∧ r.1.checkState = c.checkState)
      (H.parseContent c text)

namespace Edited

variable {b b' b'' : Buffer}

theorem refl (b : Buffer) : Edited b b := ⟨rfl, rfl, rfl, fun _ h => h⟩

theorem trans (h : Edited b b') (h' : Edited b' b'') : Edited b b'' where
  readerIndex := h'.readerIndex.trans h.readerIndex
  writerIndex := h'.writerIndex.trans h.writerIndex
  length := h'.length.trans h.length
  cr i hi := h.cr i (h'.cr i hi)

theorem wellFormed (h : Edited b b') (hwf : b.WellFormed) : b'.WellFormed := by
  obtain ⟨hprepend, horder, hinside⟩ := hwf
  refine ⟨?_, ?_, ?_⟩
  · rw [h.readerIndex]
    exact hprepend
  · rw [h.readerIndex, h.writerIndex]
    exact horder
  · rw [h.writerIndex, h.length]
    exact hinside

theorem lineRounds_le (h : Edited b b') (hwf : b.WellFormed) : lineRounds b' ≤ lineRounds b := by
  have hlen : b'.readable.length = b.readable.length := by
    rw [(h.wellFormed hwf).readable_length_eq, hwf.readable_length_eq, h.readerIndex,
      h.writerIndex]
  have hcr : AfterCr b' → AfterCr b := by
    rintro ⟨hpos, hcr⟩
    rw [h.readerIndex] at hpos hcr
    exact ⟨hpos, h.cr _ hcr⟩
  unfold lineRounds
  rw [hlen]
  by_cases hafter : AfterCr b'
  · rw [if_pos hafter, if_pos (hcr hafter)]
  · rw [if_neg hafter]
    omega

end Edited

/-! ## The handlers of the connection

Along their texts: all that they write is NULs and the name of a page. -/

section Code

variable {c d : HttpConnection} {p : Ptr} {data : List UInt8}

/-- Bytes that end no line are written somewhere. -/
theorem writeAt_edited {mem : List UInt8} {pos : Nat} (hdata : Bare data) :
    Ensures (fun mem' => mem'.length = mem.length ∧
      ∀ i : Nat, mem'[i]? = some CR → mem[i]? = some CR) (writeAt mem pos data) := by
  unfold writeAt
  refine ensures_ite (fun hfit => ensures_some ⟨overwrite_length hfit, fun i hi => ?_⟩)
    fun _ r hr => by cases hr
  rw [overwrite_getElem? (by omega)] at hi
  split at hi
  · exact hi
  · split at hi
    · exact absurd rfl (hdata CR (List.mem_of_getElem? hi)).1
    · exact hi

/-- The storage of a pointer is replaced. -/
theorem setStorage_edited {mem mem' : List UInt8} (hmem : c.storage p = some mem)
    (hlen : mem'.length = mem.length) (hcr : ∀ i : Nat, mem'[i]? = some CR → mem[i]? = some CR) :
    Edited c.inputBuffer (c.setStorage p mem').inputBuffer := by
  cases p with
  | null => exact .refl _
  | input off =>
    cases hmem
    exact ⟨rfl, rfl, hlen, hcr⟩
  | output off => exact .refl _

theorem putNul_edited (c : HttpConnection) (p : Ptr) (n : Nat) :
    Ensures (fun d => Edited c.inputBuffer d.inputBuffer) (c.putNul p n) := by
  unfold putNul
  refine ensures_bind_eq fun mem hmem => ?_
  refine ensures_bind (writeAt_edited (by decide)) fun mem' ⟨hlen, hcr⟩ => ?_
  exact ensures_some (setStorage_edited hmem hlen hcr)

theorem writing_strcat_edited (c : HttpConnection) (p : Ptr) (hdata : Bare data) :
    Ensures (fun d => Edited c.inputBuffer d.inputBuffer)
      (c.writing p (CString.strcat · · data)) := by
  have hbytes : Bare (data ++ [0]) := by
    intro x hx
    rcases List.mem_append.mp hx with hx | hx
    · exact hdata x hx
    · rw [List.mem_singleton.mp hx]
      decide
  unfold writing
  refine ensures_bind_eq fun mem hmem => ensures_bind_eq fun mem' hwrite => ensures_some ?_
  obtain ⟨len, -, hcopy⟩ := Option.bind_eq_some_iff.mp hwrite
  obtain ⟨hlen, hcr⟩ := writeAt_edited hbytes mem' hcopy
  exact setStorage_edited hmem hlen hcr

theorem stripScheme_edited (d : HttpConnection) (scheme : List UInt8) :
    Ensures (fun e => Edited d.inputBuffer e.inputBuffer) (d.stripScheme scheme) := by
  unfold stripScheme
  refine ensures_bind_eq fun starts _ => ensures_ite (fun _ => ?_) fun _ => ensures_some (.refl _)
  exact ensures_bind_eq fun url _ => ensures_some (.refl _)

/-- The page name is appended to the url, in its storage. -/
theorem parseUrl_edited (d : HttpConnection) :
    Ensures (fun r => Edited d.inputBuffer r.1.inputBuffer) d.parseUrl := by
  unfold parseUrl
  refine ensures_bind (stripScheme_edited d _) fun c₁ h₁ => ?_
  refine ensures_bind (stripScheme_edited c₁ _) fun c₂ h₂ => ?_
  have h := h₁.trans h₂
  refine ensures_ite (fun _ => ensures_some h) fun _ => ensures_bind_eq fun first _ => ?_
  refine ensures_ite (fun _ => ensures_some h) fun _ => ensures_bind_eq fun len _ => ?_
  refine ensures_bind (P := fun e => Edited c₂.inputBuffer e.inputBuffer) ?_
    fun c₃ h₃ => ensures_some (h.trans h₃)
  exact ensures_ite (fun _ => writing_strcat_edited c₂ _ (by decide))
    fun _ => ensures_some (.refl _)

theorem parseVersion_edited (d : HttpConnection) :
    Ensures (fun r => Edited d.inputBuffer r.1.inputBuffer) d.parseVersion := by
  unfold parseVersion
  refine ensures_bind_eq fun url _ => ensures_bind_eq fun version _ => ?_
  refine ensures_ite (fun _ => ensures_some (.refl _)) fun _ => ?_
  refine ensures_bind (putNul_edited _ version 0) fun c₁ h₁ => ?_
  refine ensures_bind_eq fun version' _ => ensures_bind_eq fun same _ => ?_
  refine ensures_ite (fun _ => ?_) fun _ => ensures_some h₁
  exact ensures_mono (parseUrl_edited _) fun r hr => h₁.trans hr

theorem parseRequestLine_edited (c : HttpConnection) (text : Ptr) :
    Ensures (fun r => Edited c.inputBuffer r.1.inputBuffer) (c.parseRequestLine text) := by
  unfold parseRequestLine
  refine ensures_bind_eq fun url _ => ensures_ite (fun _ => ensures_some (.refl _)) fun _ => ?_
  refine ensures_bind (putNul_edited _ url 0) fun c₁ h₁ => ensures_bind_eq fun method _ => ?_
  cases method with
  | none => exact ensures_some h₁
  | some method => exact ensures_mono (parseVersion_edited _) fun r hr => h₁.trans hr

theorem parseContent_edited (c : HttpConnection) (text : Ptr) :
    Ensures (fun r => Edited c.inputBuffer r.1.inputBuffer ∧ r.1.checkState = c.checkState)
      (c.parseContent text) := by
  have hstate : Ensures (fun r => r.1.checkState = c.checkState) (c.parseContent text) := by
    refine ensures_mono (parseContent_spec c text) fun r hr => ?_
    rcases hr with rfl | ⟨mem, rfl⟩
    · rfl
    · exact setStorage_checkState c text mem
  have hedited : Ensures (fun r => Edited c.inputBuffer r.1.inputBuffer) (c.parseContent text) := by
    unfold parseContent
    refine ensures_ite (fun _ => ?_) fun _ => ensures_some (.refl _)
    exact ensures_bind (putNul_edited c text _) fun d h => ensures_some h
  exact fun r hr => ⟨hedited r hr, hstate r hr⟩

/-- **The handlers of the connection.** They write NULs and a page name. -/
theorem handlers_lines (site : Site) : LineHandlers (handlers site) where
  parseRequestLine := parseRequestLine_edited
  parseHeaders c text := ensures_mono (parseHeaders_spec c text) fun r hr => by
    obtain ⟨-, state, linger, length, host, hr, -⟩ := hr
    rw [hr]
    exact .refl _
  parseContent := parseContent_edited

end Code

/-! ## The loop of `processRead`

A round delimits a line or looks at a body, and a body is not looked at twice without a line in
between. -/

def ReadOutcome.Ended {ω : Type} : ReadOutcome ω → Prop
  | .returned _ _ _ => True
  | .undefined => True
  | .outOfFuel => False

/-- The rounds that are left: those that delimit a line, and a look at a body. -/
def roundBound (c : HttpConnection) (status : LineStatus) : Nat :=
  lineRounds c.inputBuffer +
    if c.checkState = .CHECK_STATE_CONTENT ∧ status ≠ .LINE_OK then 0 else 1

/-- What a handler passes on to the next round. -/
def Round.Goes {ω : Type} (c : HttpConnection) : Round ω → Prop
  | .again d status => Edited c.inputBuffer d.inputBuffer ∧
      (c.checkState = .CHECK_STATE_CONTENT →
        d.checkState = .CHECK_STATE_CONTENT ∧ status = .LINE_OPEN)
  | .stop _ _ _ => True

section Loop

variable {ω : Type} {H : Handlers ω} {w : ω} {c d : HttpConnection} {b : Buffer}
  {status status' : LineStatus}

theorem dispatch_goes (hH : LineHandlers H) (w : ω) (c : HttpConnection) (text : Ptr) :
    Ensures (Round.Goes c) (dispatch H w c text) := by
  unfold dispatch
  cases hstate : c.checkState with
  | CHECK_STATE_REQUESTLINE =>
    refine ensures_bind (hH.parseRequestLine c text) fun ⟨d, ret⟩ hd => ?_
    refine ensures_ite (fun _ => ensures_some trivial) fun _ => ensures_some ⟨hd, fun h => ?_⟩
    rw [hstate] at h
    cases h
  | CHECK_STATE_HEADER =>
    refine ensures_bind (hH.parseHeaders c text) fun ⟨d, ret⟩ hd => ?_
    refine ensures_ite (fun _ => ensures_some trivial) fun _ => ?_
    refine ensures_ite (fun _ => ?_) fun _ => ensures_some ⟨hd, fun h => ?_⟩
    · exact ensures_bind_eq fun ⟨w', e, ret'⟩ _ => ensures_some trivial
    · rw [hstate] at h
      cases h
  | CHECK_STATE_CONTENT =>
    refine ensures_bind (hH.parseContent c text) fun ⟨d, ret⟩ ⟨hd, hsame⟩ => ?_
    refine ensures_ite (fun _ => ?_) fun _ => ensures_some ⟨hd, fun _ => ⟨?_, rfl⟩⟩
    · exact ensures_bind_eq fun ⟨w', e, ret'⟩ _ => ensures_some trivial
    · exact hsame.trans hstate

/-- The loop condition is evaluated. It holds without a line at a body only. -/
theorem nextLine_ends (h : c.inputBuffer.WellFormed) (status : LineStatus) : ∃ b status',
    c.nextLine status = some ({ c with inputBuffer := b }, status') ∧ b.WellFormed ∧
      (status' = .LINE_OK → lineRounds b < lineRounds c.inputBuffer ∨
        (c.checkState = .CHECK_STATE_CONTENT ∧ status = .LINE_OK) ∧ b = c.inputBuffer) := by
  by_cases hbody : c.checkState = .CHECK_STATE_CONTENT ∧ status = .LINE_OK
  · exact ⟨c.inputBuffer, .LINE_OK, if_pos hbody, h, fun _ => .inr ⟨hbody, rfl⟩⟩
  · obtain ⟨b, status', hscan, hwf, hless⟩ := scanLine_ends h
    exact ⟨b, status', nextLine_scan hbody hscan, hwf, fun hok => .inl (hless hok)⟩

theorem roundBound_pos (h : lineRounds b < lineRounds c.inputBuffer ∨
    (c.checkState = .CHECK_STATE_CONTENT ∧ status = .LINE_OK) ∧ b = c.inputBuffer) :
    0 < roundBound c status := by
  unfold roundBound
  rcases h with hless | ⟨⟨_, hok⟩, _⟩
  · omega
  · rw [if_neg fun hopen => hopen.2 hok]
    exact Nat.succ_pos _

/-- A round lowers the bound. -/
theorem roundBound_lt (h : lineRounds b < lineRounds c.inputBuffer ∨
      (c.checkState = .CHECK_STATE_CONTENT ∧ status = .LINE_OK) ∧ b = c.inputBuffer)
    (hle : lineRounds d.inputBuffer ≤ lineRounds b)
    (hbody : c.checkState = .CHECK_STATE_CONTENT →
      d.checkState = .CHECK_STATE_CONTENT ∧ status' = .LINE_OPEN) :
    roundBound d status' < roundBound c status := by
  unfold roundBound
  by_cases hcontent : c.checkState = .CHECK_STATE_CONTENT
  · -- the next round at this body delimits a line
    obtain ⟨hstate, hopen⟩ := hbody hcontent
    rw [if_pos ⟨hstate, by rw [hopen]; decide⟩]
    rcases h with hless | ⟨⟨_, hok⟩, rfl⟩
    · omega
    · rw [if_neg fun hnot => hnot.2 hok]
      omega
  · -- a line was delimited
    have hless := h.resolve_right fun hat => hcontent hat.1.1
    rw [if_neg fun hat : c.checkState = _ ∧ _ => hcontent hat.1]
    split <;> omega

/-- **The outer loop.** With more fuel than the bound it ends, within as many rounds. -/
theorem processReadLoop_ends (hH : LineHandlers H) (lineOf : HttpConnection → Ptr) (w : ω)
    (h : c.inputBuffer.WellFormed) {k : Nat} (hk : roundBound c status ≤ k) :
    ∃ outcome more, outcome.Ended ∧ more.length ≤ k ∧ ∀ n calls,
      processReadLoop lineOf H (n + k + 1) w c status calls = some (outcome, calls ++ more) := by
  induction k generalizing w c status with
  | zero =>
    obtain ⟨b, status', hnext, -, hok⟩ := nextLine_ends h status
    have hstop : status' ≠ .LINE_OK := by
      intro hline
      have hpos := roundBound_pos (hok hline)
      omega
    refine ⟨.returned w { c with inputBuffer := b } .NO_REQUEST, [], trivial, Nat.le_refl _, ?_⟩
    intro n calls
    rw [processReadLoop_noLine hnext hstop, List.append_nil]
  | succ k ih =>
    obtain ⟨b, status', hnext, hwf, hok⟩ := nextLine_ends h status
    by_cases hline : status' = .LINE_OK
    · subst hline
      have hgoes := dispatch_goes hH w
        { c with inputBuffer := b, startLine := .output c.outputBuffer.peek } (lineOf c)
      have hstep : ∀ n calls, processReadLoop lineOf H (n + 1) w c status calls = _ :=
        processReadLoop_line hnext rfl
      -- the call of the handler, and what it returns
      generalize Call.mk _ _ _ = call at hstep
      revert hgoes hstep
      generalize dispatch H w _ (lineOf c) = round
      intro hgoes hstep
      cases round with
      | none => exact ⟨.undefined, [call], trivial, Nat.succ_le_succ (Nat.zero_le k),
          fun n calls => hstep _ calls⟩
      | some round =>
        have hgoes := hgoes round rfl
        cases round with
        | stop w' e ret => exact ⟨.returned w' e ret, [call], trivial,
            Nat.succ_le_succ (Nat.zero_le k), fun n calls => hstep _ calls⟩
        | again e status'' =>
          obtain ⟨hedited, hbody⟩ := hgoes
          have hless : roundBound e status'' < roundBound c status :=
            roundBound_lt (hok rfl) (hedited.lineRounds_le hwf) hbody
          obtain ⟨outcome, more, hended, hlen, hrun⟩ :=
            ih w (hedited.wellFormed hwf) (show roundBound e status'' ≤ k by omega)
          refine ⟨outcome, call :: more, hended, Nat.succ_le_succ hlen, fun n calls => ?_⟩
          rw [List.append_cons calls call more, ← hrun n]
          exact hstep _ calls
    · refine ⟨.returned w { c with inputBuffer := b } .NO_REQUEST, [], trivial, Nat.zero_le _, ?_⟩
      intro n calls
      rw [processReadLoop_noLine hnext hline, List.append_nil]

/-- How a call of `processRead` ends. Each iteration of the loop calls one handler, so `calls` has
an entry for each of them, and more fuel changes nothing. -/
structure EndsWith (H : Handlers ω) (w : ω) (c : HttpConnection) (outcome : ReadOutcome ω)
    (calls : List Call) : Prop where
  run : processRead H w c = some (outcome, calls)
  ended : outcome.Ended
  iterations : calls.length ≤ c.inputBuffer.readableBytes / 2 + 2
  anyFuel : ∀ fuel, c.inputBuffer.readableBytes / 2 + 3 ≤ fuel →
    processReadLoop getLine H fuel w c .LINE_OK [] = some (outcome, calls)

theorem roundBound_le (h : c.inputBuffer.WellFormed) (status : LineStatus) :
    roundBound c status ≤ (c.inputBuffer.readableBytes + 1) / 2 + 1 := by
  unfold roundBound lineRounds
  rw [h.readable_length]
  split <;> split <;> omega

theorem processRead_endsWith (hH : LineHandlers H) (w : ω) (h : c.inputBuffer.WellFormed) :
    ∃ outcome calls, EndsWith H w c outcome calls := by
  obtain ⟨outcome, more, hended, hlen, hrun⟩ :=
    processReadLoop_ends hH getLine w h (roundBound_le h .LINE_OK)
  have hfuel : ∀ fuel, (c.inputBuffer.readableBytes + 1) / 2 + 2 ≤ fuel →
      processReadLoop getLine H fuel w c .LINE_OK [] = some (outcome, more) := by
    intro fuel hle
    obtain ⟨n, rfl⟩ := Nat.exists_eq_add_of_le' hle
    exact hrun n []
  refine ⟨outcome, more, hfuel _ ?_, hended, Nat.le_trans hlen ?_, fun fuel hle => hfuel fuel ?_⟩
  · omega
  · omega
  · omega

/-- **The request loop always ends.** For every content of the input buffer, every `checkState_`
and all line handlers that only edit the input buffer, as those of the connection do: `parseLine`
ends on every buffer, whatever its fuel above a unit for each readable byte, and `processRead`
ends after at most half as many iterations as there are readable bytes, and two. -/
theorem processRead_ends (h : c.inputBuffer.WellFormed) :
    (∀ b : Buffer, b.WellFormed →
      ∃ r, ∀ fuel, b.readableBytes < fuel → parseLineLoop fuel b = some r) ∧
    (∀ site, LineHandlers (handlers site)) ∧
    ∀ {ω : Type} (H : Handlers ω) (w : ω), LineHandlers H →
      ∃ outcome calls, EndsWith H w c outcome calls := by
  refine ⟨fun b hb => ?_, handlers_lines, fun H w hH => processRead_endsWith hH w h⟩
  obtain ⟨b', status, hrun, -, -⟩ := parseLineLoop_ends hb
  rw [hb.readable_length] at hrun
  exact ⟨(b', status), hrun⟩

/-- In a body, with an LF behind a CR that was passed over. -/
def bodyAtLf : HttpConnection :=
  { sampleConnection with
    checkState := .CHECK_STATE_CONTENT
    ContentLength := 5
    inputBuffer := ⟨List.replicate 9 0 ++ [CR, LF], 10, 11⟩ }

/-- The bound is reached: the body is looked at, and once more behind the line of one byte. -/
theorem processRead_ends_sample : ∃ outcome calls,
    EndsWith (handlers sampleSite) sampleWorld bodyAtLf outcome calls ∧ calls.length = 2 := by
  obtain ⟨-, hcode, hends⟩ := processRead_ends (c := bodyAtLf) (by decide)
  obtain ⟨outcome, calls, hcalls⟩ := hends (handlers sampleSite) sampleWorld (hcode sampleSite)
  have htwo : (processRead (handlers sampleSite) sampleWorld bodyAtLf).map (·.2.length) = some 2 :=
    by decide +kernel
  rw [hcalls.run] at htwo
  exact ⟨outcome, calls, hcalls, Option.some.inj htwo⟩

end Loop

end HttpConnection

end HttpWebserver
