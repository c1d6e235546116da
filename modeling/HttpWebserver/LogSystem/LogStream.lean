import Mathlib.Data.List.Basic

/-!
# LogSystem — `FixedBuffer`

The buffer template of `LogSystem/LogStream.h`. Only the bytes before `cur_` are ever read, so
a buffer is these bytes, with the bound that keeps `cur_` inside `data_`.
-/

namespace HttpWebserver.LogSystem

def kSmallBuffer : Nat := 4000

def kLargeBuffer : Nat := 4000 * 1000

/-- `data_` up to `cur_`. -/
structure FixedBuffer (size : Nat) where
  data : List UInt8
  fits : data.length ≤ size

namespace FixedBuffer

variable {size : Nat}

def new : FixedBuffer size := ⟨[], Nat.zero_le size⟩

def length (b : FixedBuffer size) : Nat := b.data.length

def avail (b : FixedBuffer size) : Nat := size - b.length

/-- `append` drops what does not fit. -/
def append (b : FixedBuffer size) (buf : List UInt8) : FixedBuffer size :=
  if h : buf.length < b.avail then
    ⟨b.data ++ buf, by
      rw [avail, length] at h
      rw [List.length_append]
      omega⟩
  else b

/-- `cur_ = data_`. -/
def reset (_ : FixedBuffer size) : FixedBuffer size := new

/-- `memset(data_, 0, sizeof data_)`, which leaves `cur_`. -/
def bzero (b : FixedBuffer size) : FixedBuffer size :=
  ⟨List.replicate b.length 0, by rw [List.length_replicate]; exact b.fits⟩

@[simp] theorem new_data : (new : FixedBuffer size).data = [] := rfl

@[simp] theorem reset_data (b : FixedBuffer size) : b.reset.data = [] := rfl

@[simp] theorem bzero_new : (new : FixedBuffer size).bzero = new := rfl

/-- A buffer is its bytes. -/
theorem eq_of_data {b b' : FixedBuffer size} (h : b.data = b'.data) : b = b' := by
  cases b
  cases b'
  cases h
  rfl

theorem append_data {b : FixedBuffer size} {buf : List UInt8} (h : buf.length < b.avail) :
    (b.append buf).data = b.data ++ buf := by rw [append, dif_pos h]

theorem avail_of_data_nil {b : FixedBuffer size} (h : b.data = []) : b.avail = size := by
  rw [avail, length, h]
  rfl

end FixedBuffer

end HttpWebserver.LogSystem
