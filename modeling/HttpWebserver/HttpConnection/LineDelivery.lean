import HttpWebserver.HttpConnection.ParseLine

/-!
# HttpConnection — a line that arrives in pieces

The reading side of a connection: every chunk the socket delivers is stored by `read`, and
`parseLine` is called behind it. `Reading` remembers where each byte was stored.

* **`line_kept_iff`** — once the whole of `L`, CR, LF has arrived, `parseLine` has returned
  `LINE_OK` and the line still stands in one piece in front of its NUL exactly when all of it
  came in one chunk, or the cut fell between CR and LF (with a writable byte left, or `L`
  empty).

Any other cut loses the line. `parseLine` consumes the bytes it scans, and the `retrieve(1)`
of the last readable byte resets both indices: the next chunk is stored at `kCheapPrepend`,
over the beginning of the same line (`readThenParse_piece`). A cut behind the CR keeps the CR
readable and with it the indices (`readThenParse_cr`).
-/

namespace HttpWebserver.HttpConnection

open Buffer Machine MachineInt Storage

/-- The most bytes a single `readv` transfers. -/
def maxTransfer : Nat := 0x7ffff000

/-- A line being received: the connection, the result of the last `parseLine`, and the places
in the storage where `readFd` put the bytes that have arrived, in order. -/
structure Reading where
  conn : HttpConnection
  status : LineStatus
  positions : List Nat

/-- A connection whose line has not begun. -/
def awaitLine (c : HttpConnection) : Reading := ⟨c, .LINE_OPEN, []⟩

/-- Nothing is readable and both indices are at the start, as `init()` leaves the input buffer,
and `parseLine` on a line that ends where its chunk does. -/
structure Drained (c : HttpConnection) : Prop where
  wellFormed : c.inputBuffer.WellFormed
  reader : c.inputBuffer.readerIndex = kCheapPrepend
  writer : c.inputBuffer.writerIndex = kCheapPrepend

/-- A chunk arrives: `read()`, then `parseLine()`. -/
def readThenParse (r : Reading) (chunk : List UInt8) : Option Reading := do
  let (c, _) ← r.conn.read (.bytes chunk)
  let (c, status) ← c.parseLine
  some { conn := c
         status := status
         -- the bytes go where the writer index was, the spare ones of `readFd` behind them
         positions := r.positions ++ List.range' r.conn.inputBuffer.writerIndex chunk.length }

/-- The line `L` is delimited and whole: no byte was stored over another one, and it stands in
front of the NUL that took the place of its CR. -/
structure Kept (L : List UInt8) (r : Reading) : Prop where
  ok : r.status = .LINE_OK
  apart : r.positions.Nodup
  stored : ∃ p, r.positions[L.length]? = some p ∧ L.length ≤ p ∧
    r.conn.inputBuffer.buffer[p]? = some 0 ∧
    slice r.conn.inputBuffer.buffer (p - L.length) p = L

/-! ## One chunk

`read` stores a chunk at the writer index. Whether the scan has consumed what came before decides
where that is. -/

section Chunk

variable {r t : Reading} {chunk : List UInt8}

theorem read_spec {c : HttpConnection} {b : Buffer} {rv : Readv} {n : Int}
    (hb : c.inputBuffer.readFd rv = some (b, n)) :
    ∃ ok, c.read rv = some ({ c with inputBuffer := b }, ok) := by
  unfold HttpConnection.read
  rw [hb, Option.bind_eq_bind, Option.bind_some]
  by_cases hn : n ≤ 0
  · exact ⟨false, if_pos hn⟩
  · exact ⟨true, if_neg hn⟩

/-- A chunk that does not make the buffer compact is stored behind what is readable. -/
theorem read_chunk {c : HttpConnection} (h : c.inputBuffer.WellFormed) (hne : chunk ≠ [])
    (hmax : chunk.length ≤ maxTransfer) (hnc : ¬ c.inputBuffer.Compacts chunk.length) :
    ∃ b, Extends c.inputBuffer chunk b ∧
      c.read (.bytes chunk) = some ({ c with inputBuffer := b }, true) := by
  have hint : chunk.length < 2 ^ 31 := Nat.lt_of_le_of_lt hmax (by decide)
  have hcount : ¬ (chunk.length : Int) ≤ 0 := by
    have hpos := List.length_pos_iff.mpr hne
    omega
  obtain ⟨b, hb, hx, -⟩ := readFd_spec h hint hnc
  refine ⟨b, hx, ?_⟩
  rw [HttpConnection.read, hb, Option.bind_eq_bind, Option.bind_some]
  exact if_neg hcount

/-- A read that compacts leaves the storage. -/
theorem read_compact {c : HttpConnection} (h : c.inputBuffer.WellFormed)
    (hmax : chunk.length ≤ maxTransfer) (hc : c.inputBuffer.Compacts chunk.length) :
    c.read (.bytes chunk) = none := by
  have hint : chunk.length < 2 ^ 31 := Nat.lt_of_le_of_lt hmax (by decide)
  rw [HttpConnection.read, readFd_compact h hint hc]
  rfl

/-- A chunk that does not make the buffer compact is stored and then scanned. -/
theorem readThenParse_eq (h : r.conn.inputBuffer.WellFormed) (hmax : chunk.length ≤ maxTransfer)
    (hnc : ¬ r.conn.inputBuffer.Compacts chunk.length) :
    ∃ b, Extends r.conn.inputBuffer chunk b ∧
      b.buffer.length = max r.conn.inputBuffer.buffer.length
        (r.conn.inputBuffer.writerIndex + chunk.length) ∧
      readThenParse r chunk = (scanLine b).map fun s =>
        ⟨{ r.conn with inputBuffer := s.1 }, s.2,
          r.positions ++ List.range' r.conn.inputBuffer.writerIndex chunk.length⟩ := by
  have hint : chunk.length < 2 ^ 31 := Nat.lt_of_le_of_lt hmax (by decide)
  obtain ⟨b, hb, hx, hsize⟩ := readFd_spec h hint hnc
  refine ⟨b, hx, hsize, ?_⟩
  obtain ⟨ok, hread⟩ := read_spec hb
  unfold readThenParse
  rw [hread, Option.bind_eq_bind, Option.bind_some]
  simp only [parseLine_replace]
  cases scanLine b <;> rfl

theorem readThenParse_compact (h : r.conn.inputBuffer.WellFormed)
    (hmax : chunk.length ≤ maxTransfer) (hc : r.conn.inputBuffer.Compacts chunk.length) :
    readThenParse r chunk = none := by
  rw [readThenParse, read_compact h hmax hc]
  rfl

/-- Every chunk adds the places of its bytes, from the writer index on. -/
theorem readThenParse_positions (hstep : readThenParse r chunk = some t) :
    t.positions
      = r.positions ++ List.range' r.conn.inputBuffer.writerIndex chunk.length := by
  unfold readThenParse at hstep
  obtain ⟨⟨c, ok⟩, -, hstep⟩ := Option.bind_eq_some_iff.mp hstep
  obtain ⟨⟨c', status⟩, -, hstep⟩ := Option.bind_eq_some_iff.mp hstep
  cases hstep
  rfl

/-- Once bytes are stored over others of the line, that stays so. -/
theorem exec_not_nodup {chunks : List (List UInt8)} (hrun : exec readThenParse r chunks = some t)
    (h : ¬ r.positions.Nodup) : ¬ t.positions.Nodup := by
  refine exec_invariant (I := fun u => ¬ u.positions.Nodup) ?_ h hrun
  intro u chunk v hu hstep hv
  rw [readThenParse_positions hstep] at hv
  exact hu (List.nodup_append.mp hv).1

end Chunk

/-! ## The first chunk of a line

The scan of a line that is not complete consumes all of it, and `retrieve` resets both indices
then: the next chunk is stored over this one. -/

section First

variable {c : HttpConnection} {piece L rest : List UInt8}

theorem Drained.readable (h : Drained c) : c.inputBuffer.readable = [] := by
  rw [Buffer.readable, h.reader, h.writer, slice_self]

/-- A buffer of which nothing is consumed never compacts. -/
theorem not_compacts_of_reader {b : Buffer} (h : b.readerIndex = kCheapPrepend) (len : Nat) :
    ¬ b.Compacts len := by
  rintro ⟨hlt, hge⟩
  have hp : b.prependableBytes = kCheapPrepend := h
  omega

theorem Drained.not_compacts (h : Drained c) (len : Nat) : ¬ c.inputBuffer.Compacts len :=
  not_compacts_of_reader h.reader len

theorem init_drained (h : c.inputBuffer.WellFormed) : Drained c.init :=
  ⟨(retrieveAll_spec h).1, rfl, rfl⟩

/-- The first chunk, stored at the start of the storage and scanned. -/
theorem readThenParse_first (h : Drained c) {chunk : List UInt8}
    (hmax : chunk.length ≤ maxTransfer) :
    ∃ b, b.WellFormed ∧ b.readable = chunk ∧ b.readerIndex = kCheapPrepend ∧
      b.buffer.length = max c.inputBuffer.buffer.length (kCheapPrepend + chunk.length) ∧
      readThenParse (awaitLine c) chunk = (scanLine b).map fun s =>
        ⟨{ c with inputBuffer := s.1 }, s.2, List.range' kCheapPrepend chunk.length⟩ := by
  obtain ⟨b, hx, hsize, hstep⟩ := readThenParse_eq (r := awaitLine c) h.wellFormed hmax
    (h.not_compacts chunk.length)
  rw [show (awaitLine c).conn.inputBuffer.writerIndex = kCheapPrepend from h.writer] at hsize hstep
  have hread : b.readable = c.inputBuffer.readable ++ chunk := hx.readable h.wellFormed
  rw [h.readable, List.nil_append] at hread
  exact ⟨b, hx.wellFormed, hread, hx.readerIndex.trans h.reader, hsize, hstep⟩

/-- A first chunk that ends inside the line: its bytes are consumed and the next chunk is
stored over them. -/
theorem readThenParse_piece (h : Drained c) (hpiece : Bare piece)
    (hne : piece ≠ []) (hmax : piece.length ≤ maxTransfer) :
    ∃ r, readThenParse (awaitLine c) piece = some r ∧
      r.conn.inputBuffer.writerIndex = kCheapPrepend ∧ kCheapPrepend ∈ r.positions := by
  obtain ⟨b, hwf, hread, -, -, hstep⟩ := readThenParse_first h hmax
  rw [scanLine_open hpiece hne hwf hread] at hstep
  refine ⟨_, hstep, rfl, ?_⟩
  rw [List.mem_range'_1]
  have hpos := List.length_pos_iff.mpr hne
  omega

/-- The bytes in front of a CR that is being erased stay. -/
theorem kept_of_erased {mem : List UInt8} {p : Nat} (hp : p + 2 ≤ mem.length)
    (hL : slice mem (p - L.length) p = L) :
    (overwrite mem p [0, 0])[p]? = some 0 ∧
      slice (overwrite mem p [0, 0]) (p - L.length) p = L := by
  constructor
  · rw [overwrite_getElem? (by omega), if_neg (Nat.lt_irrefl p), if_pos (by simp), Nat.sub_self]
    rfl
  · rw [slice_overwrite_before (by omega) (Nat.le_refl p), hL]

/-- The first readable bytes, as they stand in the storage. -/
theorem slice_of_readable {b : Buffer} (h : b.WellFormed) (hread : b.readable = L ++ rest) :
    slice b.buffer b.readerIndex (b.readerIndex + L.length) = L := by
  have hcount := h.readable_length_eq
  rw [hread, List.length_append] at hcount
  have hord := h.order
  have htake := congrArg (List.take L.length) hread
  rw [readable, slice_take (by omega), List.take_left] at htake
  exact htake

/-- The whole line in one chunk. -/
theorem readThenParse_whole (h : Drained c) (hL : Bare L)
    (hmax : (L ++ [CR, LF]).length ≤ maxTransfer) :
    ∃ r, readThenParse (awaitLine c) (L ++ [CR, LF]) = some r ∧ Kept L r := by
  obtain ⟨b, hwf, hread, hr, hsize, hstep⟩ := readThenParse_first h hmax
  obtain ⟨-, -, hbuf⟩ := delimited_spec hwf hread
  rw [scanLine_line hL hwf hread] at hstep
  have hplace : slice b.buffer (kCheapPrepend + L.length - L.length) (kCheapPrepend + L.length)
      = L := by
    rw [Nat.add_sub_cancel, ← hr]
    exact slice_of_readable hwf hread
  have hroom : kCheapPrepend + L.length + 2 ≤ b.buffer.length := by
    rw [List.length_append, show [CR, LF].length = 2 from rfl] at hsize
    omega
  obtain ⟨hnul, hkept⟩ := kept_of_erased hroom hplace
  rw [← hr, ← hbuf] at hnul hkept
  refine ⟨_, hstep, rfl, List.nodup_range', b.readerIndex + L.length, ?_, by omega, hnul, hkept⟩
  rw [List.getElem?_range' (by rw [List.length_append]; simp), Nat.one_mul, hr]

/-- The line and its CR: the CR stays readable. -/
theorem readThenParse_cr (h : Drained c) (hL : Bare L)
    (hmax : (L ++ [CR]).length ≤ maxTransfer) :
    ∃ b : Buffer, b.WellFormed ∧ b.readable = L ++ [CR] ∧ b.readerIndex = kCheapPrepend ∧
      b.buffer.length = max c.inputBuffer.buffer.length (kCheapPrepend + (L.length + 1)) ∧
      readThenParse (awaitLine c) (L ++ [CR])
        = some ⟨{ c with inputBuffer := b.skip L.length }, .LINE_OPEN,
            List.range' kCheapPrepend (L.length + 1)⟩ := by
  obtain ⟨b, hwf, hread, hr, hsize, hstep⟩ := readThenParse_first h hmax
  rw [scanLine_cr hL hwf hread] at hstep
  rw [List.length_append] at hsize hstep
  exact ⟨b, hwf, hread, hr, hsize, hstep⟩

end First

/-! ## The LF behind the line

Only a CR at the end of a chunk stays readable, so a cut behind it is the only one that a line
survives, if the buffer need not compact for the LF. -/

section Second

variable {c : HttpConnection} {b : Buffer} {L : List UInt8} {positions : List Nat}

/-- With the CR left readable at the end of the storage, the LF makes the buffer compact. -/
theorem compacts_lf (hwf : b.WellFormed) (hread : b.readable = L ++ [CR])
    (hr : b.readerIndex = kCheapPrepend) :
    (b.skip L.length).Compacts [LF].length
      ↔ L ≠ [] ∧ b.buffer.length = kCheapPrepend + (L.length + 1) := by
  have hcount := hwf.readable_length_eq
  rw [hread, List.length_append, List.length_singleton] at hcount
  have hin := hwf.inside
  have hord := hwf.order
  have hw : (b.skip L.length).writableBytes = b.buffer.length - b.writerIndex := sizeSub_of_le hin
  have hp : (b.skip L.length).prependableBytes = b.readerIndex + L.length := rfl
  have hpos : L ≠ [] ↔ 0 < L.length := List.length_pos_iff.symm
  rw [hpos, List.length_singleton]
  unfold Compacts
  omega

/-- The LF alone, where the buffer does not compact. -/
theorem readThenParse_lf (hwf : b.WellFormed) (hread : b.readable = L ++ [CR])
    (hr : b.readerIndex = kCheapPrepend) (hnc : ¬ (b.skip L.length).Compacts [LF].length) :
    ∃ r, readThenParse ⟨{ c with inputBuffer := b.skip L.length }, .LINE_OPEN,
        List.range' kCheapPrepend (L.length + 1)⟩ [LF] = some r ∧ Kept L r := by
  have hcount := hwf.readable_length_eq
  rw [hread, List.length_append, List.length_singleton] at hcount
  have hlen : L.length ≤ b.readable.length := by rw [hread, List.length_append]; omega
  have hwf₁ : (b.skip L.length).WellFormed := skip_wellFormed hwf hlen
  have hread₁ : (b.skip L.length).readable = [CR] := by
    rw [skip_readable, hread, List.drop_left]
  have hw₁ : (b.skip L.length).writerIndex = kCheapPrepend + (L.length + 1) := by
    show b.writerIndex = _
    have hord := hwf.order
    omega
  obtain ⟨b₂, hx, hsize, hstep⟩ := readThenParse_eq
    (r := ⟨{ c with inputBuffer := b.skip L.length }, .LINE_OPEN,
      List.range' kCheapPrepend (L.length + 1)⟩) hwf₁ (by decide) hnc
  have hread₂ : b₂.readable = [] ++ CR :: LF :: [] := by rw [hx.readable hwf₁, hread₁]; rfl
  obtain ⟨-, -, hbuf⟩ := delimited_spec hx.wellFormed hread₂
  rw [scanLine_line (by simp [Bare]) hx.wellFormed hread₂, Option.map_some] at hstep
  -- the line is behind the reader index, in the part of the storage that the read leaves alone
  have hr₂ : b₂.readerIndex = kCheapPrepend + L.length := by rw [hx.readerIndex, ← hr]; rfl
  have hplace : slice b₂.buffer (b₂.readerIndex - L.length) b₂.readerIndex = L := by
    rw [hr₂, Nat.add_sub_cancel,
      hx.frame _ _ (show kCheapPrepend + L.length ≤ b.writerIndex by omega), ← hr]
    exact slice_of_readable hwf hread
  have hroom : b₂.readerIndex + 2 ≤ b₂.buffer.length := by
    have hgrown : b₂.buffer.length = max b.buffer.length (kCheapPrepend + (L.length + 1) + 1) := by
      rw [← hw₁]
      exact hsize
    omega
  obtain ⟨hnul, hkept⟩ := kept_of_erased hroom hplace
  rw [List.length_nil, Nat.add_zero] at hbuf
  rw [← hbuf] at hnul hkept
  rw [hw₁] at hstep
  have hall : List.range' kCheapPrepend (L.length + 1)
      ++ List.range' (kCheapPrepend + (L.length + 1)) [LF].length
      = List.range' kCheapPrepend (L.length + 2) := by
    rw [List.range'_append_1]
    rfl
  refine ⟨_, hstep, rfl, ?_, b₂.readerIndex, ?_, by omega, hnul, hkept⟩
  · rw [hall]
    exact List.nodup_range'
  · rw [hall, List.getElem?_range' (by omega), Nat.one_mul, hr₂]

end Second

/-! ## The whole delivery -/

/-- A cut inside the line: bytes of the line are stored over its beginning. -/
theorem not_kept_of_piece {c : HttpConnection} (h : Drained c)
    {piece L : List UInt8} {rest : List (List UInt8)} {r : Reading} (hpiece : Bare piece)
    (hne : piece ≠ []) (hmax : piece.length ≤ maxTransfer) (hrest : rest ≠ [])
    (hrestne : ∀ chunk ∈ rest, chunk ≠ [])
    (hrun : exec readThenParse (awaitLine c) (piece :: rest) = some r) : ¬ Kept L r := by
  intro hkept
  obtain ⟨r₁, hstep, hw, hmem⟩ := readThenParse_piece h hpiece hne hmax
  obtain ⟨second, more, rfl⟩ := List.exists_cons_of_ne_nil hrest
  rw [exec_cons, hstep, Option.bind_some] at hrun
  obtain ⟨r₂, hstep₂, hrun⟩ := Option.bind_eq_some_iff.mp hrun
  -- the second chunk begins where the first one did
  refine exec_not_nodup hrun ?_ hkept.apart
  rw [readThenParse_positions hstep₂, hw]
  intro hnodup
  have hpos : 0 < second.length :=
    List.length_pos_iff.mpr (hrestne second List.mem_cons_self)
  refine (List.nodup_append.mp hnodup).2.2 kCheapPrepend hmem kCheapPrepend ?_ rfl
  rw [List.mem_range'_1]
  omega

theorem eq_nil_of_flatten {chunks : List (List UInt8)} (hne : ∀ chunk ∈ chunks, chunk ≠ [])
    (h : chunks.flatten = []) : chunks = [] := by
  cases chunks with
  | nil => rfl
  | cons chunk rest =>
    exact absurd (List.flatten_eq_nil_iff.mp h chunk List.mem_cons_self)
      (hne chunk List.mem_cons_self)

/-- How a delivery of a line begins: inside the line, behind its CR, or with all of it. -/
theorem delivery_cases {L : List UInt8} {chunks : List (List UInt8)}
    (hne : ∀ chunk ∈ chunks, chunk ≠ []) (hchunks : chunks.flatten = L ++ [CR, LF]) :
    (∃ piece rest, chunks = piece :: rest ∧ piece <+: L ∧ rest ≠ []) ∨
      chunks = [L ++ [CR], [LF]] ∨ chunks = [L ++ [CR, LF]] := by
  cases chunks with
  | nil => simp at hchunks
  | cons piece rest =>
    rw [List.flatten_cons] at hchunks
    have hnerest : ∀ chunk ∈ rest, chunk ≠ [] := fun x hx => hne x (List.mem_cons_of_mem _ hx)
    rcases List.append_eq_append_iff.mp hchunks with ⟨tail, hL, hrest⟩ | ⟨ending, hpiece, hrest⟩
    · -- the cut is inside the line or right behind it
      refine .inl ⟨piece, rest, rfl, ⟨tail, hL.symm⟩, ?_⟩
      rintro rfl
      simp at hrest
    · cases ending with
      | nil =>
        refine .inl ⟨piece, rest, rfl, ⟨[], ?_⟩, ?_⟩
        · rw [hpiece, List.append_nil, List.append_nil]
        · rintro rfl
          simp at hrest
      | cons x ending =>
        simp only [List.cons_append, List.cons.injEq] at hrest
        obtain ⟨rfl, hrest⟩ := hrest
        cases ending with
        | nil =>
          -- the rest of the delivery is the LF alone
          right; left
          rw [List.nil_append] at hrest
          cases rest with
          | nil => cases hrest
          | cons second more =>
            rw [List.flatten_cons] at hrest
            rcases List.append_eq_cons_iff.mp hrest.symm with ⟨hnil, -⟩ | ⟨tail, hsecond, htail⟩
            · exact absurd hnil (hnerest second List.mem_cons_self)
            · obtain ⟨rfl, hmore⟩ := List.append_eq_nil_iff.mp htail.symm
              rw [hpiece, hsecond, eq_nil_of_flatten
                (fun x hx => hnerest x (List.mem_cons_of_mem _ hx)) hmore]
        | cons y ending =>
          simp only [List.cons_append, List.cons.injEq] at hrest
          obtain ⟨rfl, hrest⟩ := hrest
          right; right
          obtain ⟨rfl, hnone⟩ := List.append_eq_nil_iff.mp hrest.symm
          rw [hpiece, eq_nil_of_flatten hnerest hnone]

/-- **When a line that arrives in pieces is kept.** The chunks of a line, its CR and
its LF arrive, each followed by a call of `parseLine`. The line is delimited and whole exactly
when it came in one chunk, or in two of which the second is the LF alone, with a writable byte
left for it unless the line is empty. -/
theorem line_kept_iff (c : HttpConnection) (h : Drained c) (L : List UInt8)
    (hL : Bare L) (chunks : List (List UInt8)) (hne : ∀ chunk ∈ chunks, chunk ≠ [])
    (hmax : ∀ chunk ∈ chunks, chunk.length ≤ maxTransfer)
    (hchunks : chunks.flatten = L ++ [CR, LF]) :
    (∃ r, exec readThenParse (awaitLine c) chunks = some r ∧ Kept L r) ↔
      chunks = [L ++ [CR, LF]] ∨
        chunks = [L ++ [CR], [LF]] ∧
          (L = [] ∨ L.length + 1 < c.inputBuffer.buffer.length - kCheapPrepend) := by
  have hsplit : [L ++ [CR], [LF]] ≠ [L ++ [CR, LF]] := by simp
  -- one read of a delimited line is cut inside the line, between CR and LF, or not at all
  rcases delivery_cases hne hchunks with ⟨piece, rest, rfl, hpre, hrest⟩ | rfl | rfl
  · -- a cut inside the line
    have hbare : Bare piece := fun x hx => hL x (hpre.subset hx)
    have hlen := hpre.length_le
    refine iff_of_false ?_ ?_
    · rintro ⟨r, hrun, hkept⟩
      exact not_kept_of_piece h hbare (hne piece List.mem_cons_self)
        (hmax piece List.mem_cons_self) hrest (fun x hx => hne x (List.mem_cons_of_mem _ hx))
        hrun hkept
    · rintro (hone | ⟨htwo, -⟩)
      · exact hrest (List.cons.inj hone).2
      · rw [(List.cons.inj htwo).1, List.length_append, List.length_singleton] at hlen
        omega
  · -- a cut behind the CR
    obtain ⟨b, hwf, hread, hr, hsize, hstep⟩ :=
      readThenParse_cr h hL (hmax _ List.mem_cons_self)
    -- the LF arrives behind a CR, and is stored where the buffer need not compact for it
    have hc := compacts_lf hwf hread hr
    have hroom : (L = [] ∨ L.length + 1 < c.inputBuffer.buffer.length - kCheapPrepend) ↔
        ¬ (b.skip L.length).Compacts [LF].length := by
      rw [hc, not_and_or, not_not, hsize]
      exact or_congr_right (by omega)
    rw [hroom]
    simp only [exec_cons, hstep, Option.bind_some, exec_nil, hsplit, false_or, true_and]
    constructor
    · rintro ⟨r, hrun, -⟩ hcomp
      have hlen : (b.skip L.length).WellFormed :=
        skip_wellFormed hwf (by rw [hread, List.length_append]; omega)
      rw [readThenParse_compact hlen (by decide) hcomp] at hrun
      cases hrun
    · intro hnc
      obtain ⟨r, hlf, hkept⟩ := readThenParse_lf (c := c) hwf hread hr hnc
      exact ⟨r, by rw [hlf, Option.bind_some], hkept⟩
  · -- all of it at once
    obtain ⟨r, hstep, hkept⟩ := readThenParse_whole h hL (hmax _ List.mem_cons_self)
    exact iff_of_true ⟨r, by rw [exec_cons, hstep, Option.bind_some, exec_nil], hkept⟩ (.inl rfl)

theorem sampleConnection_drained : Drained sampleConnection.init :=
  init_drained (new_wellFormed readBufferSize)

theorem sampleConnection_size :
    sampleConnection.init.inputBuffer.buffer.length = kCheapPrepend + readBufferSize :=
  List.length_replicate

/-- The line `ab`, cut behind its CR. -/
theorem line_kept_iff_sample :
    ∃ r, exec readThenParse (awaitLine sampleConnection.init) [[97, 98, 13], [10]] = some r ∧
      Kept [97, 98] r :=
  (line_kept_iff sampleConnection.init sampleConnection_drained [97, 98] (by decide)
    [[97, 98, 13], [10]] (by decide) (by decide) rfl).mpr
    (.inr ⟨rfl, .inr (by rw [sampleConnection_size]; decide)⟩)

/-- The line `ab` in two chunks, `ab` and its CR LF: `parseLine` returns `LINE_OK`, but the CR
was stored over `a` and the LF over `b`. -/
theorem line_lost_between_chunks :
    ∃ r, exec readThenParse (awaitLine sampleConnection.init) [[97, 98], [13, 10]] = some r ∧
      r.status = .LINE_OK ∧ ¬ Kept [97, 98] r := by
  have hrun : (exec readThenParse (awaitLine sampleConnection.init) [[97, 98], [13, 10]]).map
      (fun r => (r.status, r.positions)) = some (.LINE_OK, [8, 9, 8, 9]) := by decide +kernel
  obtain ⟨r, hr, hout⟩ := Option.map_eq_some_iff.mp hrun
  obtain ⟨hstatus, hpositions⟩ := Prod.mk.inj hout
  refine ⟨r, hr, hstatus, fun hkept => ?_⟩
  have hapart := hkept.apart
  rw [hpositions] at hapart
  exact absurd hapart (by decide)

end HttpWebserver.HttpConnection
