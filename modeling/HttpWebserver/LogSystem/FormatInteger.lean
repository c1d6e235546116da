import HttpWebserver.LogSystem.LogStream
import HttpWebserver.Lib.CString
import HttpWebserver.Lib.Decimal

/-!
# LogSystem — integers in a `LogStream`

The model of `convert`, `formatInteger` and the integer operators of `LogSystem/LogStream.cc`, on
the storage of the buffer: each byte that is written is a checked write into `data_`, and `none` is
a write (or a read of the digit table) outside.

* `RawBuffer`: `FixedBuffer` with the whole of `data_`; `RawBuffer.view` is the buffer that is
  read (`append_view`);
* `convert` takes the digits off by truncated division, so those of a negative value are negative
  and index the digit table from its middle;
* `convert_spec`: what `convert` leaves in the storage;
* **`integer_streamed`** — a value of any integer type is appended as its decimal numeral where 32
  bytes are available, and otherwise not at all.
-/

namespace HttpWebserver.LogSystem

open CString Decimal Storage

/-! ## The buffer with its storage

`convert` writes into the storage behind `cur_`, also where `cur_` does not move over it
afterwards. So the buffer is modelled with its storage, and `view` forgets it. -/

/-- `FixedBuffer<SIZE>`: `data_`, and `cur_` as a position in it. -/
@[ext]
structure RawBuffer (size : Nat) where
  data : List UInt8
  cur : Nat
  length_eq : data.length = size
  inside : cur ≤ size

namespace RawBuffer

variable {size : Nat}

/-- The constructor, which leaves in `data_` what was there. -/
def new (data : List UInt8) (h : data.length = size) : RawBuffer size :=
  ⟨data, 0, h, Nat.zero_le size⟩

def avail (b : RawBuffer size) : Nat := size - b.cur

/-- The buffer with other contents; `none` where `cur_` has left it. -/
def store (b : RawBuffer size) (data : List UInt8) (cur : Nat) : Option (RawBuffer size) :=
  if h : data.length = b.data.length ∧ cur ≤ size then
    some ⟨data, cur, h.1.trans b.length_eq, h.2⟩
  else none

def append (b : RawBuffer size) (buf : List UInt8) : Option (RawBuffer size) :=
  if buf.length < b.avail then
    (writeAt b.data b.cur buf).bind fun data => b.store data (b.cur + buf.length)
  else some b

/-- The bytes before `cur_`. -/
def view (b : RawBuffer size) : FixedBuffer size :=
  ⟨b.data.take b.cur, (List.length_take_le _ _).trans b.inside⟩

end RawBuffer

/-! ## Digits

The code of the source, with the table that has each digit on both sides of its middle, since the
remainder of a negative value is not positive. -/

def digits : List UInt8 := ascii "9876543210123456789"

/-- `zero[lsd]`, where `zero` is `digits + 9`. -/
def zero (lsd : Int) : Option UInt8 := if 0 ≤ 9 + lsd then digits[(9 + lsd).toNat]? else none

/-- The loop of `convert` from `i` and `p` on. -/
def convertDigits (mem : List UInt8) (p : Nat) (i : Int) : Option (List UInt8 × Nat) :=
  (zero (i.tmod 10)).bind fun c =>
    (writeAt mem p [c]).bind fun mem =>
      if h : i.tdiv 10 = 0 then some (mem, p + 1) else convertDigits mem (p + 1) (i.tdiv 10)
termination_by i.natAbs
decreasing_by
  rw [Int.natAbs_tdiv]
  have hne : i ≠ 0 := fun hz => h (by rw [hz, Int.zero_tdiv])
  exact Nat.div_lt_self (Int.natAbs_pos.mpr hne) (by decide)

/-- The sign of `convert`, behind the digits. -/
def convertSign (mem : List UInt8) (p : Nat) (value : Int) : Option (List UInt8 × Nat) :=
  if value < 0 then (writeAt mem p [minus]).map fun mem => (mem, p + 1) else some (mem, p)

/-- `std::reverse` on `[first, last)`. -/
def reverseRange (mem : List UInt8) (first last : Nat) : Option (List UInt8) :=
  (readRange mem first last).bind fun s => writeAt mem first s.reverse

/-- `convert(buf, value)`, where `buf` is a position in the storage. -/
def convert (mem : List UInt8) (buf : Nat) (value : Int) : Option (List UInt8 × Nat) := do
  let (mem, p) ← convertDigits mem buf value
  let (mem, p) ← convertSign mem p value
  let mem ← writeAt mem p [0]
  let mem ← reverseRange mem buf p
  some (mem, p - buf)

def kMaxNumericSize : Nat := 32

namespace RawBuffer

variable {size : Nat}

def formatInteger (b : RawBuffer size) (v : Int) : Option (RawBuffer size) :=
  if kMaxNumericSize ≤ b.avail then do
    let (data, len) ← convert b.data b.cur v
    b.store data (b.cur + len)
  else some b

end RawBuffer

/-- The types that have an operator. -/
inductive IntType where
  | short
  | unsignedShort
  | int
  | unsignedInt
  | long
  | unsignedLong
  | longLong
  | unsignedLongLong
deriving DecidableEq, Repr

namespace IntType

def bits : IntType → Nat
  | short | unsignedShort => 16
  | int | unsignedInt => 32
  | long | unsignedLong | longLong | unsignedLongLong => 64

def isSigned : IntType → Bool
  | short | int | long | longLong => true
  | unsignedShort | unsignedInt | unsignedLong | unsignedLongLong => false

/-- `v` is a value of the type. -/
def Holds (t : IntType) (v : Int) : Prop :=
  if t.isSigned then -2 ^ (t.bits - 1) ≤ v ∧ v < 2 ^ (t.bits - 1) else 0 ≤ v ∧ v < 2 ^ t.bits

instance (t : IntType) (v : Int) : Decidable (t.Holds v) :=
  inferInstanceAs (Decidable (if t.isSigned then -2 ^ (t.bits - 1) ≤ v ∧ v < 2 ^ (t.bits - 1)
    else 0 ≤ v ∧ v < 2 ^ t.bits))

/-- `static_cast` to the type. -/
def cast (t : IntType) (v : Int) : Int :=
  if t.isSigned then Int.bmod v (2 ^ t.bits) else v % 2 ^ t.bits

/-- The type that the operator passes to `formatInteger`. -/
def formatted : IntType → IntType
  | short => int
  | unsignedShort => unsignedInt
  | t => t

end IntType

/-- `operator<<` for a value of the type `t`. -/
def RawBuffer.streamInteger {size : Nat} (b : RawBuffer size) (t : IntType) (v : Int) :
    Option (RawBuffer size) :=
  b.formatInteger (t.formatted.cast v)

/-! ## What `convert` writes

The digits come last digit first, then the sign, then a NUL behind them; `std::reverse` turns
digits and sign around. -/

section Convert

variable (mem : List UInt8) (p : Nat)

/-- The table is the same on both sides of its middle. -/
theorem zero_eq (i : Int) : zero (i.tmod 10) = some (digitChar (i.natAbs % 10)) := by
  have htable : ∀ k : Nat, k < 10 →
      zero k = some (digitChar k) ∧ zero (-k) = some (digitChar k) := by
    decide
  have habs : (i.tmod 10).natAbs = i.natAbs % 10 := Int.natAbs_tmod i 10
  have hlt : i.natAbs % 10 < 10 := Nat.mod_lt _ (by decide)
  rcases Int.natAbs_eq (i.tmod 10) with hr | hr
  · rw [hr, habs]
    exact (htable _ hlt).1
  · rw [hr, habs]
    exact (htable _ hlt).2

/-- **The loop writes the digits, last digit first.** -/
theorem convertDigits_spec (i : Int)
    (hroom : p + (littleDigits i.natAbs).length ≤ mem.length) :
    convertDigits mem p i = some (overwrite mem p ((littleDigits i.natAbs).map digitChar),
      p + (littleDigits i.natAbs).length) := by
  induction hn : i.natAbs using Nat.strong_induction_on generalizing mem p i with
  | _ n ih =>
    subst hn
    have habs : (i.tdiv 10).natAbs = i.natAbs / 10 := Int.natAbs_tdiv i 10
    have hdigits := littleDigits_eq i.natAbs
    rw [hdigits, List.length_cons] at hroom
    have hfits : p + [digitChar (i.natAbs % 10)].length ≤ mem.length := by
      rw [List.length_singleton]
      omega
    rw [convertDigits, zero_eq, Option.bind_some, writeAt_eq_some hfits, Option.bind_some, hdigits,
      List.map_cons, List.length_cons]
    by_cases hlast : i.tdiv 10 = 0
    · have hz : i.natAbs / 10 = 0 := by rw [← habs, hlast, Int.natAbs_zero]
      rw [dif_pos hlast, if_pos hz]
      rfl
    · have hnz : i.natAbs / 10 ≠ 0 := by rwa [← habs, Int.natAbs_ne_zero]
      rw [if_neg hnz] at hroom
      rw [dif_neg hlast, if_neg hnz]
      -- the digits of the quotient follow
      have hless : i.natAbs / 10 < i.natAbs := Nat.div_lt_self (by omega) (by decide)
      have hlen := overwrite_length hfits
      have hroom' : p + 1 + (littleDigits (i.natAbs / 10)).length
          ≤ (overwrite mem p [digitChar (i.natAbs % 10)]).length := by
        rw [hlen]
        omega
      have hrest := ih _ hless _ _ (i.tdiv 10) (by rwa [habs]) habs
      have hside : overwrite (overwrite mem p [digitChar (i.natAbs % 10)]) (p + 1)
            ((littleDigits (i.natAbs / 10)).map digitChar)
          = overwrite mem p ([digitChar (i.natAbs % 10)]
              ++ (littleDigits (i.natAbs / 10)).map digitChar) :=
        overwrite_overwrite_adjacent (by simp; omega)
      rw [hrest, hside, Nat.add_assoc, Nat.add_comm 1]
      rfl

/-- `std::reverse` on what was written last. -/
theorem reverseRange_overwrite (s rest : List UInt8)
    (h : p + (s ++ rest).length ≤ mem.length) :
    reverseRange (overwrite mem p (s ++ rest)) p (p + s.length)
      = some (overwrite mem p (s.reverse ++ rest)) := by
  have hlen : (overwrite mem p (s ++ rest)).length = mem.length := overwrite_length h
  have hread : slice (overwrite mem p (s ++ rest)) p (p + s.length) = s := by
    have hall : slice (overwrite mem p (s ++ rest)) p (p + (s ++ rest).length) = s ++ rest :=
      slice_overwrite_self (by omega)
    have hfirst : (slice (overwrite mem p (s ++ rest)) p (p + (s ++ rest).length)).take s.length
        = slice (overwrite mem p (s ++ rest)) p (p + s.length) :=
      slice_take (by rw [List.length_append]; omega)
    rw [← hfirst, hall, List.take_left]
  have hin : p + s.reverse.length ≤ (overwrite mem p (s ++ rest)).length := by
    rw [hlen, List.length_reverse]
    rw [List.length_append] at h
    omega
  rw [List.length_reverse] at hin
  rw [reverseRange, readRange_eq_some (by omega) hin, Option.bind_some, hread,
    writeAt_eq_some (by rw [List.length_reverse]; exact hin),
    overwrite_overwrite_head (List.length_reverse) h]

def signChars (v : Int) : List UInt8 := if v < 0 then [minus] else []

theorem convertSign_spec (v : Int) (hroom : p + (signChars v).length ≤ mem.length) :
    convertSign mem p v = some (overwrite mem p (signChars v), p + (signChars v).length) := by
  rw [convertSign]
  rw [signChars] at hroom ⊢
  split
  · next hneg =>
    rw [if_pos hneg] at hroom
    rw [writeAt_eq_some hroom]
    rfl
  · rw [overwrite_nil]
    rfl

theorem reverse_signed (v : Int) :
    ((littleDigits v.natAbs).map digitChar ++ signChars v).reverse = numeral v := by
  rw [List.reverse_append, numeral, signChars, natNumeral, List.map_reverse]
  split <;> rfl

/-- **What `convert` writes**: the numeral and the NUL, all inside the storage. -/
theorem convert_spec (v : Int) (hroom : p + (numeral v).length + 1 ≤ mem.length) :
    convert mem p v = some (overwrite mem p (numeral v ++ [0]), (numeral v).length) := by
  have hnumeral := reverse_signed v
  have hdigits := convertDigits_spec mem p v
  have hlen : (littleDigits v.natAbs).length = ((littleDigits v.natAbs).map digitChar).length :=
    (List.length_map _).symm
  rw [hlen] at hdigits
  generalize (littleDigits v.natAbs).map digitChar = ds at hnumeral hdigits
  have hall : (ds ++ signChars v).length = (numeral v).length := by
    rw [← hnumeral, List.length_reverse]
  rw [List.length_append] at hall
  -- digits, sign and NUL stand side by side
  have hsign := convertSign_spec (overwrite mem p ds) (p + ds.length) v
    (by rw [overwrite_length (by omega)]; omega)
  rw [overwrite_overwrite_adjacent (by rw [List.length_append]; omega), Nat.add_assoc,
    hall] at hsign
  have hnul : writeAt (overwrite mem p (ds ++ signChars v)) (p + (numeral v).length) [0]
      = some (overwrite mem p (ds ++ signChars v ++ [0])) := by
    have hfits : p + (ds ++ signChars v).length + 1 ≤ mem.length := by
      rw [List.length_append]
      omega
    rw [← hall, ← List.length_append, writeAt_eq_some, overwrite_overwrite_adjacent]
    · simp only [List.length_append, List.length_singleton] at hfits ⊢
      omega
    · rw [overwrite_length (by omega)]
      exact hfits
  have hreverse := reverseRange_overwrite mem p (ds ++ signChars v) [0] (by simp; omega)
  rw [List.length_append, hall, hnumeral] at hreverse
  simp only [convert, Option.bind_eq_bind, hdigits (by omega), Option.bind_some, hsign, hnul,
    hreverse, Nat.add_sub_cancel_left]

end Convert

/-! ## Streaming an integer

All values fit the 32 bytes that `formatInteger` asks for, so it writes the whole numeral or
nothing. -/

namespace IntType

variable {t : IntType} {v : Int}

theorem cast_of_holds (h : t.Holds v) : t.cast v = v := by
  rw [Holds] at h
  rw [cast]
  split at h
  · next hsigned =>
    have hbits : (2 : Int) ^ t.bits = 2 * 2 ^ (t.bits - 1) := by cases t <;> rfl
    rw [if_pos hsigned]
    refine Int.bmod_eq_of_le_mul_two ?_ ?_
    · push_cast
      omega
    · push_cast
      omega
  · next hunsigned =>
    rw [if_neg hunsigned]
    exact Int.emod_eq_of_lt h.1 h.2

/-- The operators of the short types pass on the same value. -/
theorem Holds.formatted (h : t.Holds v) : t.formatted.Holds v := by
  cases t with
  | short => simp [Holds, IntType.formatted, isSigned, bits] at h ⊢; omega
  | unsignedShort => simp [Holds, IntType.formatted, isSigned, bits] at h ⊢; omega
  | int | unsignedInt | long | unsignedLong | longLong | unsignedLongLong => exact h

/-- All values fit 20 characters. -/
theorem Holds.numeral_length_le (h : t.Holds v) : (numeral v).length ≤ 20 := by
  have hrange : -2 ^ 63 ≤ v ∧ v < 2 ^ 64 := by
    rw [Holds] at h
    cases t <;> simp [isSigned, bits] at h <;> omega
  exact Decimal.numeral_length_le (by decide) (by omega) (by omega)

end IntType

namespace FixedBuffer

/-- `formatInteger`, where the numeral is all that is read of the storage. -/
def formatInteger {size : Nat} (b : FixedBuffer size) (v : Int) : FixedBuffer size :=
  if kMaxNumericSize ≤ b.avail then b.append (numeral v) else b

end FixedBuffer

namespace RawBuffer

variable {size : Nat} (b : RawBuffer size)

theorem view_length : b.view.length = b.cur := by
  show (b.data.take b.cur).length = b.cur
  rw [List.length_take, b.length_eq, Nat.min_eq_left b.inside]

theorem view_avail : b.view.avail = b.avail := by
  rw [FixedBuffer.avail, view_length, avail]

/-- What is written behind `cur_`, with `cur_` moved over a part of it. -/
theorem store_overwrite (s rest : List UInt8) (h : b.cur + (s ++ rest).length ≤ size) :
    ∃ b', b.store (overwrite b.data b.cur (s ++ rest)) (b.cur + s.length) = some b' ∧
      b'.data = overwrite b.data b.cur (s ++ rest) ∧ b'.view.data = b.view.data ++ s := by
  have hfits : b.cur + (s ++ rest).length ≤ b.data.length := by
    rw [b.length_eq]
    exact h
  have hlen : (overwrite b.data b.cur (s ++ rest)).length = b.data.length :=
    overwrite_length hfits
  rw [List.length_append] at h
  refine ⟨⟨_, _, hlen.trans b.length_eq, by omega⟩, dif_pos ⟨hlen, by omega⟩, rfl, ?_⟩
  show (overwrite b.data b.cur (s ++ rest)).take (b.cur + s.length) = b.data.take b.cur ++ s
  have hfront : (b.data.take b.cur ++ s).length = b.cur + s.length := by
    have hview : (b.data.take b.cur).length = b.cur := b.view_length
    rw [List.length_append, hview]
  rw [overwrite, ← List.append_assoc, List.append_assoc]
  exact List.take_left' hfront

/-- `append` on the storage is `append` on what is read of it. -/
theorem append_view (buf : List UInt8) :
    ∃ b', b.append buf = some b' ∧ b'.view = b.view.append buf := by
  rw [append]
  by_cases hfits : buf.length < b.avail
  · rw [if_pos hfits]
    have hin : b.cur + (buf ++ []).length ≤ size := by
      rw [avail] at hfits
      rw [List.append_nil]
      omega
    obtain ⟨b', hstore, -, hview⟩ := b.store_overwrite buf [] hin
    rw [List.append_nil] at hin hstore
    rw [writeAt_eq_some (by rw [b.length_eq]; exact hin), Option.bind_some]
    refine ⟨b', hstore, FixedBuffer.eq_of_data ?_⟩
    rw [hview, FixedBuffer.append_data (by rw [view_avail]; exact hfits)]
  · have hview : ¬ buf.length < b.view.avail := by rwa [view_avail]
    rw [if_neg hfits, FixedBuffer.append, dif_neg hview]
    exact ⟨b, rfl, rfl⟩

/-- `formatInteger` where there is room: the numeral and its NUL are written, the numeral stays. -/
theorem formatInteger_spec {v : Int} (hlen : (numeral v).length < kMaxNumericSize)
    (hroom : kMaxNumericSize ≤ b.avail) :
    ∃ b', b.formatInteger v = some b' ∧
      b'.data = overwrite b.data b.cur (numeral v ++ [0]) ∧
      b'.view.data = b.view.data ++ numeral v := by
  have hin : b.cur + (numeral v ++ [0]).length ≤ size := by
    rw [avail] at hroom
    rw [List.length_append, List.length_singleton]
    omega
  obtain ⟨b', hstore, hdata, hview⟩ := b.store_overwrite (numeral v) [0] hin
  refine ⟨b', ?_, hdata, hview⟩
  rw [List.length_append, List.length_singleton] at hin
  have hconvert := convert_spec b.data b.cur v (by rw [b.length_eq]; exact hin)
  rw [formatInteger, if_pos hroom, hconvert]
  exact hstore

/-- Where there is no room, nothing is written. -/
theorem formatInteger_full (v : Int) (hroom : b.avail < kMaxNumericSize) :
    b.formatInteger v = some b := by
  rw [formatInteger, if_neg (not_le.mpr hroom)]

theorem formatInteger_view {v : Int} (hlen : (numeral v).length < kMaxNumericSize) :
    ∃ b', b.formatInteger v = some b' ∧ b'.view = b.view.formatInteger v := by
  rw [FixedBuffer.formatInteger, view_avail]
  rcases Nat.lt_or_ge b.avail kMaxNumericSize with hfull | hroom
  · rw [if_neg (not_le.mpr hfull)]
    exact ⟨b, b.formatInteger_full v hfull, rfl⟩
  · obtain ⟨b', hformat, -, hview⟩ := b.formatInteger_spec hlen hroom
    refine ⟨b', hformat, FixedBuffer.eq_of_data ?_⟩
    rw [if_pos hroom, hview, FixedBuffer.append_data (by rw [view_avail]; omega)]

/-- **An integer is streamed as its decimal numeral.** For every integer type, every value of it and
every state of the buffer: where 32 bytes are available, the canonical numeral is appended, and all
that is written, the NUL included, is behind `cur_` and inside the buffer; otherwise the buffer
stays as it is. -/
theorem integer_streamed (t : IntType) {v : Int} (hv : t.Holds v) :
    (kMaxNumericSize ≤ b.avail → ∃ b' s, b.streamInteger t v = some b' ∧ Canonical v s ∧
        b'.view.data = b.view.data ++ s ∧ b.cur + s.length + 1 ≤ size ∧
        SameOutside b.cur (b.cur + s.length + 1) b.data b'.data) ∧
      (b.avail < kMaxNumericSize → b.streamInteger t v = some b) := by
  rw [streamInteger, IntType.cast_of_holds hv.formatted]
  refine ⟨fun hroom => ?_, b.formatInteger_full v⟩
  have hlen := hv.numeral_length_le
  have hshort : (numeral v).length < kMaxNumericSize := Nat.lt_of_le_of_lt hlen (by decide)
  have hsize : b.cur + (numeral v).length + 1 ≤ size := by
    rw [avail] at hroom
    omega
  obtain ⟨b', hformat, hdata, hview⟩ := b.formatInteger_spec hshort hroom
  refine ⟨b', numeral v, hformat, numeral_canonical v, hview, hsize, ?_⟩
  rw [hdata]
  refine SameOutside.overwrite (Nat.le_refl _) ?_ ?_
  · rw [List.length_append, List.length_singleton, Nat.add_assoc]
  · rw [List.length_append, List.length_singleton, b.length_eq]
    exact hsize

/-- The least `long` in a buffer of 40 bytes. -/
theorem integer_streamed_least :
    ∃ b' s, (new (List.replicate 40 0) rfl : RawBuffer 40).streamInteger .long (-2 ^ 63) = some b' ∧
      Canonical (-2 ^ 63) s ∧ b'.view.data = s := by
  obtain ⟨hstreamed, -⟩ := integer_streamed (new (List.replicate 40 0) rfl : RawBuffer 40) .long
    (show IntType.long.Holds (-2 ^ 63) by decide)
  obtain ⟨b', s, hrun, hcanonical, hview, -⟩ := hstreamed (by decide)
  exact ⟨b', s, hrun, hcanonical, hview⟩

end RawBuffer

end HttpWebserver.LogSystem
