import HttpWebserver.HttpConnection.Alike
import HttpWebserver.HttpConnection.RequestLine

/-!
# HttpConnection — what an input buffer keeps of the requests before

`init()` moves the indices of the input buffer back to its front and leaves the bytes. Here two
buffers stand side by side whose storages have one size and the same bytes outside of a stretch
behind what has been written since (`SameInput`): what `read` and `parseLine` do to one they do to
the other, and the stretch gets shorter with every byte that arrives.

The handlers read behind what has arrived. Connections on two such buffers therefore part once a
request line is accepted, unless the stretch is gone by then. `shortestLine` bytes have arrived at
least when a request line is accepted (`rejected_before`): as far as that the buffers may differ.
-/

namespace HttpWebserver

open Storage MachineInt PartialRules CString

/-! ## Two input buffers

`init()` resets the indices of the input buffer and leaves the bytes in its storage. Behind what
has been written since then, such a buffer is compared with a new one. -/

/-- Two buffers with the same indices, whose storages differ between `mark` and `stop` at most;
nothing has been written behind `mark`. -/
structure SameInput (mark stop : Nat) (b b' : Buffer) : Prop where
  wellFormed : b.WellFormed
  readerIndex : b'.readerIndex = b.readerIndex
  writerIndex : b'.writerIndex = b.writerIndex
  written : b.writerIndex ≤ mark
  same : SameOutside mark stop b.buffer b'.buffer

namespace SameInput

variable {mark stop n : Nat} {b b' : Buffer}

theorem wellFormed' (h : SameInput mark stop b b') : b'.WellFormed := by
  obtain ⟨hpre, hord, hin⟩ := h.wellFormed
  rw [← h.readerIndex] at hpre hord
  rw [← h.writerIndex] at hord hin
  rw [← h.same.length] at hin
  exact ⟨hpre, hord, hin⟩

theorem readableBytes (h : SameInput mark stop b b') : b'.readableBytes = b.readableBytes := by
  rw [Buffer.readableBytes, Buffer.readableBytes, h.readerIndex, h.writerIndex]

theorem writableBytes (h : SameInput mark stop b b') : b'.writableBytes = b.writableBytes := by
  rw [Buffer.writableBytes, Buffer.writableBytes, h.writerIndex, h.same.length]

theorem peek (h : SameInput mark stop b b') : b'.peek = b.peek := h.readerIndex

/-- A byte that has been written. -/
theorem getElem? (h : SameInput mark stop b b') {i : Nat} (hi : i < b.writerIndex) :
    b'.buffer[i]? = b.buffer[i]? := h.same.getElem? (.inl (Nat.lt_of_lt_of_le hi h.written))

/-- Once the stretch is gone, the buffers are the same. -/
theorem eq_of_le (h : SameInput mark stop b b') (hle : stop ≤ mark ∨ b.buffer.length ≤ mark) :
    b' = b := by
  have hbuffer := h.same.eq_of_le hle
  obtain ⟨buffer, readerIndex, writerIndex⟩ := b'
  exact (Buffer.mk.injEq ..).mpr ⟨hbuffer, h.readerIndex, h.writerIndex⟩

theorem retrieveAll (h : SameInput mark stop b b') :
    SameInput mark stop b.retrieveAll b'.retrieveAll := by
  have hpre := h.wellFormed.prepend
  have hord := h.wellFormed.order
  have hmark := h.written
  refine ⟨(Buffer.retrieveAll_spec h.wellFormed).1, rfl, rfl, ?_, h.same⟩
  show kCheapPrepend ≤ mark
  omega

theorem retrieve (h : SameInput mark stop b b') (n : Nat) :
    SameInput mark stop (b.retrieve n) (b'.retrieve n) := by
  have hwf := (Buffer.retrieve_spec h.wellFormed n).1
  unfold Buffer.retrieve at hwf ⊢
  rw [h.readableBytes]
  split
  · next hlt =>
    rw [if_pos hlt] at hwf
    exact ⟨hwf, congrArg (· + n) h.readerIndex, h.writerIndex, h.written, h.same⟩
  · exact h.retrieveAll

/-- The same bytes written to both in front of the writer index. -/
theorem store (h : SameInput mark stop b b') (pos : Nat) (data : List UInt8)
    (hpos : pos + data.length ≤ b.writerIndex) :
    SameInput mark stop (b.store pos data) (b'.store pos data) := by
  have hin := h.wellFormed.inside
  have hmark := h.written
  have hwrite := h.same.write pos data (by omega) (by omega)
  rw [Nat.max_eq_left (by omega)] at hwrite
  exact ⟨Buffer.store_wellFormed h.wellFormed (by omega), h.readerIndex, h.writerIndex, hmark,
    hwrite⟩

end SameInput

/-! ## Reading -/

section Read

variable {mark stop : Nat} {b b' : Buffer}

/-- What two buffers have become: the same, or still apart. -/
def Follow (stop : Nat) (b b' : Buffer) : Prop := b' = b ∨ ∃ mark, SameInput mark stop b b'

/-- The bytes that arrive at both. -/
theorem readFdCount_follow (h : SameInput mark stop b b') (taken spare : List UInt8) (n : Int)
    (htaken : taken.length = min b.writableBytes (taken ++ spare).length)
    (hn : n ≤ (taken ++ spare).length) :
    Option.Rel (fun r s => Follow stop r.1 s.1 ∧ r.2 = s.2)
      (Buffer.readFdCount { b with buffer := overwrite b.buffer b.writerIndex taken }
        b.writableBytes spare n)
      (Buffer.readFdCount { b' with buffer := overwrite b'.buffer b'.writerIndex taken }
        b'.writableBytes spare n) := by
  have hin := h.wellFormed.inside
  have hord := h.wellFormed.order
  have hpre := h.wellFormed.prepend
  have hmark := h.written
  have hw := h.wellFormed.writableBytes_eq
  rw [List.length_append] at htaken hn
  have hfit : b.writerIndex + taken.length ≤ b.buffer.length := by omega
  have hlen := overwrite_length hfit
  have hwrite := h.same.write b.writerIndex taken hmark hfit
  rw [h.writableBytes, h.writerIndex]
  -- the bytes are in both storages, whatever becomes of the writer index
  have hinput : ∀ n, n ≤ taken.length → SameInput (max mark (b.writerIndex + taken.length)) stop
      { b with buffer := overwrite b.buffer b.writerIndex taken, writerIndex := b.writerIndex + n }
      { b' with
        buffer := overwrite b'.buffer b.writerIndex taken
        writerIndex := b.writerIndex + n } := by
    intro n hle
    refine ⟨⟨hpre, ?_, ?_⟩, h.readerIndex, rfl, ?_, hwrite⟩
    · show b.readerIndex ≤ b.writerIndex + n
      omega
    · show b.writerIndex + n ≤ (overwrite b.buffer b.writerIndex taken).length
      omega
    · show b.writerIndex + n ≤ max mark _
      omega
  unfold Buffer.readFdCount
  refine rel_ite Iff.rfl (fun _ => ?_) fun hneg => rel_ite Iff.rfl (fun hle => ?_) fun hgt => ?_
  · exact rel_some ⟨.inr ⟨_, hinput 0 (Nat.zero_le _)⟩, rfl⟩
  · exact rel_some ⟨.inr ⟨_, hinput n.toNat (by omega)⟩, rfl⟩
  · -- the storage is full, so all of it has been written
    have hfull : overwrite b'.buffer b.writerIndex taken = overwrite b.buffer b.writerIndex taken :=
      hwrite.eq_of_le (.inr (by omega))
    dsimp only
    rw [hfull, h.readerIndex]
    exact rel_bind_same fun _ _ => rel_some ⟨.inl rfl, rfl⟩

theorem readFd_follow (h : SameInput mark stop b b') (r : Readv) :
    Option.Rel (fun r s => Follow stop r.1 s.1 ∧ r.2 = s.2) (b.readFd r) (b'.readFd r) := by
  cases r with
  | error => exact rel_some ⟨.inr ⟨mark, h⟩, rfl⟩
  | bytes incoming =>
    have hcount := toInt32_natCast_le incoming.length
    have hcut := List.take_append_drop b.writableBytes incoming
    rw [Buffer.readFd_bytes h.wellFormed, Buffer.readFd_bytes h.wellFormed', h.writableBytes]
    have hfollow := readFdCount_follow h (incoming.take b.writableBytes)
      (incoming.drop b.writableBytes) (toInt32 incoming.length)
      (by rw [hcut, List.length_take]) (by rw [hcut]; exact hcount)
    rw [h.writableBytes] at hfollow
    exact hfollow

/-- A read does the same to both. -/
theorem Follow.readFd (h : Follow stop b b') (r : Readv) :
    Option.Rel (fun r s => Follow stop r.1 s.1 ∧ r.2 = s.2) (b.readFd r) (b'.readFd r) := by
  rcases h with rfl | ⟨mark, h⟩
  · exact rel_refl fun _ => ⟨.inl rfl, rfl⟩
  · exact readFd_follow h r

end Read

/-! ## Scanning

The scan looks at written bytes only. So both scans go the same way, and what they leave is again
the same up to what was never written. -/

namespace HttpConnection

open Buffer

section Scan

variable {mark stop : Nat} {b b' : Buffer}

/-- What the scan leaves, and its result. -/
def SameScan (mark stop : Nat) (r s : Buffer × LineStatus) : Prop :=
  SameInput mark stop r.1 s.1 ∧ r.2 = s.2

/-- One byte that is replaced by a NUL and consumed. -/
theorem eraseByte_same (h : SameInput mark stop b b') (hlt : b.readerIndex < b.writerIndex) :
    ∃ d d', eraseByte b = some d ∧ eraseByte b' = some d' ∧ SameInput mark stop d d' ∧
      (b.readerIndex + 1 < b.writerIndex → d.readerIndex < d.writerIndex) := by
  have hin := h.wellFormed.inside
  have hfit : b.peek + [(0 : UInt8)].length ≤ b.buffer.length := by
    show b.readerIndex + 1 ≤ b.buffer.length
    omega
  have hstore := (h.store b.peek [0] hlt).retrieve 1
  refine ⟨_, _, ?_, ?_, hstore, fun hmore => ?_⟩
  · rw [eraseByte, writeAt_eq_some hfit]
    rfl
  · rw [eraseByte, h.peek, writeAt_eq_some (by rw [h.same.length]; exact hfit)]
    rfl
  · have hwf := (h.store b.peek [0] hlt).wellFormed
    have hcount : 1 < (b.store b.peek [0]).readable.length := by
      rw [hwf.readable_length_eq]
      show 1 < b.writerIndex - b.readerIndex
      omega
    rw [retrieve_eq_skip hwf hcount]
    exact hmore

theorem parseCr_same (h : SameInput mark stop b b') (hlt : b.readerIndex < b.writerIndex) :
    Option.Rel (SameScan mark stop) (parseCr b) (parseCr b') := by
  have hcount := h.wellFormed.readableBytes_eq
  unfold parseCr
  refine rel_ite (by rw [h.readableBytes]) (fun _ => rel_some ⟨h, rfl⟩) fun hmany => ?_
  have hlt' : b.readerIndex + 1 < b.writerIndex := by omega
  rw [h.peek, h.getElem? (i := b.peek + 1) hlt']
  refine rel_bind_same fun next _ => rel_ite Iff.rfl (fun _ => ?_) fun _ => rel_some ⟨h, rfl⟩
  -- the LF is still readable when the CR has been erased
  obtain ⟨d, d', hd, hd', hsame, hmore⟩ := eraseByte_same h hlt
  obtain ⟨e, e', he, he', hsame', -⟩ := eraseByte_same hsame (hmore hlt')
  simp only [hd, hd', he, he', Option.bind_eq_bind, Option.bind_some]
  exact rel_some ⟨hsame', rfl⟩

theorem afterCr_same (h : SameInput mark stop b b') (hlt : b.readerIndex < b.writerIndex) :
    AfterCr b' ↔ AfterCr b := by
  unfold AfterCr
  rw [h.readerIndex, h.getElem? (Nat.lt_of_le_of_lt (Nat.sub_le _ _) hlt)]

theorem parseLf_same (h : SameInput mark stop b b') (hlt : b.readerIndex < b.writerIndex) :
    Option.Rel (SameScan mark stop) (parseLf b) (parseLf b') := by
  have hlt' : b'.readerIndex < b'.writerIndex := by rw [h.readerIndex, h.writerIndex]; exact hlt
  rw [parseLf_eq h.wellFormed hlt, parseLf_eq h.wellFormed' hlt', h.readerIndex]
  refine rel_ite (afterCr_same h hlt).symm (fun hcr => ?_) fun _ => rel_some ⟨h, rfl⟩
  have hpos : kCheapPrepend + 1 < b.readerIndex := hcr.1
  have hstore := h.store (b.readerIndex - 1) [0]
    (by rw [List.length_singleton]; omega)
  obtain ⟨d, d', hd, hd', hsame, -⟩ := eraseByte_same hstore hlt
  rw [hd, hd']
  exact rel_some ⟨hsame, rfl⟩

theorem parseLineLoop_same (fuel : Nat) (h : SameInput mark stop b b') :
    Option.Rel (SameScan mark stop) (parseLineLoop fuel b) (parseLineLoop fuel b') := by
  -- induction on the rounds: every byte that is looked at has been written
  induction fuel generalizing b b' with
  | zero => exact .none
  | succ fuel ih =>
    have hcount := h.wellFormed.readableBytes_eq
    unfold parseLineLoop
    refine rel_ite (by rw [h.readableBytes]) (fun _ => rel_some ⟨h, rfl⟩) fun hne => ?_
    have hlt : b.readerIndex < b.writerIndex := by omega
    rw [h.peek, h.getElem? (i := b.peek) hlt]
    refine rel_bind_same fun temp _ => ?_
    refine rel_ite Iff.rfl (fun _ => parseCr_same h hlt) fun _ => ?_
    exact rel_ite Iff.rfl (fun _ => parseLf_same h hlt) fun _ => ih (h.retrieve 1)

/-- A scan does the same to both. -/
theorem scanLine_same (h : SameInput mark stop b b') :
    Option.Rel (SameScan mark stop) (scanLine b) (scanLine b') := by
  unfold scanLine
  rw [h.readableBytes]
  exact parseLineLoop_same _ h

theorem scanLine_follow (h : Follow stop b b') :
    Option.Rel (fun r s => Follow stop r.1 s.1 ∧ r.2 = s.2) (scanLine b) (scanLine b') := by
  rcases h with rfl | ⟨mark, h⟩
  · exact rel_refl fun _ => ⟨.inl rfl, rfl⟩
  · refine rel_mono (scanLine_same h) fun _ _ ⟨hsame, hstatus⟩ => ⟨.inr ⟨mark, hsame⟩, hstatus⟩

end Scan

/-! ## Where the line ends

The NUL that `parseLine` puts behind a line is in front of the last byte it consumes, unless the
line is empty. -/

section Terminator

variable {b b' : Buffer} {fuel : Nat}

theorem eraseByte_nul (h : eraseByte b = some b') : b'.buffer[b.readerIndex]? = some 0 := by
  obtain ⟨mem, hmem, h⟩ := Option.bind_eq_some_iff.mp h
  cases h
  have hfit := (writeAt_length hmem).2
  rw [writeAt_eq_some hfit] at hmem
  cases hmem
  have hbuffer : (Buffer.retrieve { b with buffer := overwrite b.buffer b.peek [0] } 1).buffer
      = overwrite b.buffer b.peek [0] := by
    unfold Buffer.retrieve
    split <;> rfl
  show (Buffer.retrieve { b with buffer := overwrite b.buffer b.peek [0] } 1).buffer[b.peek]? = _
  rw [List.length_singleton] at hfit
  rw [hbuffer, overwrite_getElem? (by omega), if_neg (Nat.lt_irrefl _), if_pos (by simp),
    Nat.sub_self]
  rfl

/-- The string at the first readable byte of a line, `n` bytes long at most. -/
def EndsAt (b b' : Buffer) (n : Nat) : Prop :=
  b'.buffer[b.readerIndex + n]? = some 0 ∧
    (b.readerIndex + n + 2 ≤ b.writerIndex ∨
      n = 0 ∧ b.readerIndex < b.writerIndex ∧ AfterCr b)

theorem parseLineLoop_nul (h : b.WellFormed)
    (hscan : parseLineLoop fuel b = some (b', .LINE_OK)) : ∃ n, EndsAt b b' n := by
  induction fuel generalizing b with
  | zero => cases hscan
  | succ fuel ih =>
    have hcount := h.readable_length_eq
    cases hread : b.readable with
    | nil =>
      rw [parseLineLoop_nil h hread] at hscan
      cases hscan
    | cons x rest =>
      rw [hread, List.length_cons] at hcount
      by_cases hcr : x = CR
      · subst hcr
        rw [parseLineLoop_atCr h hread] at hscan
        cases rest with
        -- a CR at the end of the bytes waits for the next chunk
        | nil =>
          rw [parseCr_open h hread] at hscan
          cases hscan
        | cons y rest =>
          by_cases hlf : y = LF
          · subst hlf
            rw [parseCr_line h hread] at hscan
            cases hscan
            -- CR LF in front: the line is empty and its end is overwritten
            obtain ⟨-, -, hbuffer⟩ := delimited_nil h hread
            rw [List.length_cons] at hcount
            have hin := h.inside
            refine ⟨0, ?_, .inl (by omega)⟩
            rw [hbuffer, Nat.add_zero, overwrite_getElem? (by omega), if_neg (Nat.lt_irrefl _),
              if_pos (by simp), Nat.sub_self]
            rfl
          · rw [parseCr_bad h hlf hread] at hscan
            cases hscan
      · by_cases hlf : x = LF
        · subst hlf
          rw [parseLineLoop_atLf h hread] at hscan
          by_cases hafter : AfterCr b
          · -- the line is empty
            have hlt := lt_of_readable h hread
            rw [parseLf_eq h hlt, if_pos hafter] at hscan
            obtain ⟨d, hd, hscan⟩ := Option.map_eq_some_iff.mp hscan
            cases hscan
            have hnul := eraseByte_nul hd
            exact ⟨0, hnul, .inr ⟨rfl, hlt, hafter⟩⟩
          · -- a lone LF is malformed
            rw [parseLf_bad h hread hafter] at hscan
            cases hscan
        · -- the line goes on behind a byte that is no CR
          rw [parseLineLoop_plain h hread ⟨hcr, hlf⟩] at hscan
          obtain ⟨hwf, hread'⟩ := retrieve_spec h 1
          cases rest with
          | nil =>
            cases fuel with
            | zero => cases hscan
            | succ fuel =>
              rw [parseLineLoop_nil hwf (by rw [hread', hread]; rfl)] at hscan
              cases hscan
          | cons y rest =>
            rw [List.length_cons] at hcount
            rw [retrieve_eq_skip h (by rw [hread]; simp)] at hscan hwf
            obtain ⟨n, hnul, hn⟩ := ih hwf hscan
            have hbehind : (b.skip 1).readerIndex + n + 2 ≤ (b.skip 1).writerIndex := by
              refine hn.resolve_right fun ⟨_, _, _, hbyte⟩ => hcr ?_
              exact Option.some.inj ((peek_cons hread).symm.trans hbyte)
            have hplace : (b.skip 1).readerIndex + n = b.readerIndex + (n + 1) := by
              show b.readerIndex + 1 + n = _
              omega
            rw [hplace] at hnul hbehind
            exact ⟨n + 1, hnul, .inl hbehind⟩

/-- The text of a line. -/
theorem scanLine_text (h : b.WellFormed) (hscan : scanLine b = some (b', .LINE_OK)) :
    ∃ text, cString b'.buffer b.readerIndex = some text ∧
      b.readerIndex + text.length < b.writerIndex ∧
      (text = [] ∨ b.readerIndex + text.length + 2 ≤ b.writerIndex) := by
  obtain ⟨n, hnul, hn⟩ := parseLineLoop_nul h hscan
  obtain ⟨text, htext, hle⟩ := exists_cString hnul
  rcases hn with hbehind | ⟨rfl, hlt, -⟩
  · exact ⟨text, htext, by omega, .inr (by omega)⟩
  · cases List.eq_nil_of_length_eq_zero (Nat.le_zero.mp hle)
    exact ⟨[], htext, hlt, .inl rfl⟩

end Terminator

/-! ## Less than a request line -/

/-- The length of `GET / HTTP/1.1` with its CR and LF. -/
def shortestLine : Nat := 16

section Rejected

variable {mark stop : Nat} {b b' d d' : Buffer}

/-- A line that ends in front of the place where the shortest request line would end is turned
down, on both buffers with the same method and url. -/
theorem rejected_before (h : SameInput mark stop b b')
    (hshort : b.writerIndex < kCheapPrepend + shortestLine)
    (hscan : scanLine b = some (d, .LINE_OK)) (hsame : SameInput mark stop d d')
    (c c' : HttpConnection) (hc : c.inputBuffer = d) (hc' : c'.inputBuffer = d')
    (hmethod : c'.method = c.method) :
    ∃ e e', c.parseRequestLine (.input b.peek) = some (e, .BAD_REQUEST) ∧
      c'.parseRequestLine (.input b.peek) = some (e', .BAD_REQUEST) ∧ e'.method = e.method ∧
      e'.deref e'.url = e.deref e.url := by
  obtain ⟨text, htext, hlt, hend⟩ := scanLine_text h.wellFormed hscan
  have hpre := h.wellFormed.prepend
  have hmark := h.written
  have hline : ¬ ∃ l : RequestLine, l.text = text := by
    rintro ⟨l, rfl⟩
    have hlen := l.text_length
    rcases hend with hnil | hend
    · rw [hnil] at hlen
      exact absurd hlen (by decide)
    · unfold shortestLine at hshort
      omega
  -- both storages have the same bytes up to the NUL
  have htext' : cString d'.buffer b.readerIndex = some text :=
    cString_of_take htext (Nat.lt_of_lt_of_le hlt hmark) hsame.same.before
  obtain ⟨method, url, hrejected⟩ := rejected_by_text (p := .input b.peek) hline c.method
  obtain ⟨e, hrun, hm, hu⟩ := hrejected c d.buffer ⟨by rw [← hc]; rfl, htext⟩ rfl
  obtain ⟨e', hrun', hm', hu'⟩ := hrejected c' d'.buffer ⟨by rw [← hc']; rfl, htext'⟩ hmethod
  exact ⟨e, e', hrun, hrun', hm'.trans hm.symm, hu'.trans hu.symm⟩

end Rejected

end HttpConnection

end HttpWebserver
