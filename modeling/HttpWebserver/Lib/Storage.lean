import Mathlib.Data.List.Basic

/-!
# Contiguous storage

A block of storage is a list of cells addressed by position. This module has the checked
range accesses a program makes on such a block and the lemmas that say what an access
reads after a write:

* `slice mem lo hi`: the cells of `[lo, hi)`;
* `readRange`: the same, `none` when the range is not inside the block;
* `overwrite` and its checked form `writeAt`: cells `[pos, pos + data.length)` replaced;
* `resize`: cells appended (or dropped) at the end.

The range lemmas are proved pointwise, from `slice_getElem?` and `overwrite_getElem?`.
-/

namespace Storage

variable {α : Type*}

/-- The cells at positions `lo, …, hi - 1`. -/
def slice (mem : List α) (lo hi : Nat) : List α := (mem.take hi).drop lo

/-- The cells of `[lo, hi)`, where that is a range inside the block. -/
def readRange (mem : List α) (lo hi : Nat) : Option (List α) :=
  if lo ≤ hi ∧ hi ≤ mem.length then some (slice mem lo hi) else none

/-- The block with `data` in place of the cells from `pos` on. -/
def overwrite (mem : List α) (pos : Nat) (data : List α) : List α :=
  mem.take pos ++ data ++ mem.drop (pos + data.length)

/-- A write of `data` at `pos`; `none` when it would leave the block. -/
def writeAt (mem : List α) (pos : Nat) (data : List α) : Option (List α) :=
  if pos + data.length ≤ mem.length then some (overwrite mem pos data) else none

/-- The block with `n` cells: the first ones kept, new ones equal to `fill`. -/
def resize (mem : List α) (n : Nat) (fill : α) : List α :=
  mem.take n ++ List.replicate (n - mem.length) fill

/-! ## Slices -/

theorem slice_getElem? (mem : List α) (lo hi i : Nat) :
    (slice mem lo hi)[i]? = if lo + i < hi then mem[lo + i]? else none := by
  rw [slice, List.getElem?_drop, List.getElem?_take]

theorem slice_length {mem : List α} {lo hi : Nat} (h : hi ≤ mem.length) :
    (slice mem lo hi).length = hi - lo := by
  rw [slice, List.length_drop, List.length_take, Nat.min_eq_left h]

@[simp] theorem slice_self (mem : List α) (lo : Nat) : slice mem lo lo = [] := by
  rw [slice, List.drop_eq_nil_iff, List.length_take]
  omega

/-- Adjacent slices concatenate. -/
theorem slice_append_slice {mem : List α} {lo mid hi : Nat} (hlo : lo ≤ mid) (hhi : mid ≤ hi)
    (hlen : hi ≤ mem.length) : slice mem lo mid ++ slice mem mid hi = slice mem lo hi := by
  apply List.ext_getElem?
  intro i
  have hl : (slice mem lo mid).length = mid - lo := slice_length (by omega)
  by_cases hi' : i < mid - lo
  · rw [List.getElem?_append_left (by omega), slice_getElem?, slice_getElem?,
      if_pos (by omega), if_pos (by omega)]
  · rw [List.getElem?_append_right (by omega), hl, slice_getElem?, slice_getElem?]
    rw [show mid + (i - (mid - lo)) = lo + i from by omega]

/-- A slice and what follows it. -/
theorem slice_append_drop (mem : List α) {lo hi : Nat} (h : lo ≤ hi) :
    slice mem lo hi ++ mem.drop hi = mem.drop lo := by
  have hdrop : mem.drop hi = (mem.drop lo).drop (hi - lo) := by
    rw [List.drop_drop, Nat.add_sub_cancel' h]
  rw [slice, List.drop_take, hdrop, List.take_append_drop]

theorem slice_drop (mem : List α) (lo hi n : Nat) :
    (slice mem lo hi).drop n = slice mem (lo + n) hi := by
  rw [slice, slice, List.drop_drop]

theorem slice_take {mem : List α} {lo hi n : Nat} (h : lo + n ≤ hi) :
    (slice mem lo hi).take n = slice mem lo (lo + n) := by
  apply List.ext_getElem?
  intro i
  rw [List.getElem?_take, slice_getElem?, slice_getElem?]
  by_cases hi' : i < n
  · rw [if_pos hi', if_pos (by omega), if_pos (by omega)]
  · rw [if_neg hi', if_neg (by omega)]

theorem readRange_eq_some {mem : List α} {lo hi : Nat} (hle : lo ≤ hi)
    (hlen : hi ≤ mem.length) : readRange mem lo hi = some (slice mem lo hi) :=
  if_pos ⟨hle, hlen⟩

/-! ## Writes

A write is given by what it leaves in each cell; the lemmas on slices follow from that. -/

theorem overwrite_length {mem : List α} {pos : Nat} {data : List α}
    (h : pos + data.length ≤ mem.length) : (overwrite mem pos data).length = mem.length := by
  simp only [overwrite, List.length_append, List.length_take, List.length_drop]
  omega

theorem overwrite_getElem? {mem : List α} {pos : Nat} {data : List α}
    (h : pos ≤ mem.length) (i : Nat) :
    (overwrite mem pos data)[i]?
      = if i < pos then mem[i]? else if i < pos + data.length then data[i - pos]? else mem[i]? := by
  have hl : (mem.take pos).length = pos := by rw [List.length_take, Nat.min_eq_left h]
  rw [overwrite, List.append_assoc]
  by_cases hi : i < pos
  · rw [if_pos hi, List.getElem?_append_left (by omega), List.getElem?_take, if_pos hi]
  · rw [if_neg hi, List.getElem?_append_right (by omega), hl]
    by_cases hd : i < pos + data.length
    · rw [if_pos hd, List.getElem?_append_left (by omega)]
    · rw [if_neg hd, List.getElem?_append_right (by omega), List.getElem?_drop,
        show pos + data.length + (i - pos - data.length) = i from by omega]

theorem writeAt_eq_some {mem : List α} {pos : Nat} {data : List α}
    (h : pos + data.length ≤ mem.length) : writeAt mem pos data = some (overwrite mem pos data) :=
  if_pos h

theorem writeAt_eq_none {mem : List α} {pos : Nat} {data : List α}
    (h : mem.length < pos + data.length) : writeAt mem pos data = none :=
  if_neg (by omega)

/-- A write that is possible fits, and keeps the size. -/
theorem writeAt_length {mem mem' : List α} {pos : Nat} {data : List α}
    (h : writeAt mem pos data = some mem') :
    mem'.length = mem.length ∧ pos + data.length ≤ mem.length := by
  rcases Nat.lt_or_ge mem.length (pos + data.length) with hlt | hge
  · rw [writeAt_eq_none hlt] at h
    cases h
  · rw [writeAt_eq_some hge] at h
    cases h
    exact ⟨overwrite_length hge, hge⟩

/-- Nothing behind the write changes. -/
theorem drop_overwrite {mem : List α} {pos n : Nat} {data : List α}
    (h : pos + data.length ≤ mem.length) (hn : pos + data.length ≤ n) :
    (overwrite mem pos data).drop n = mem.drop n := by
  apply List.ext_getElem?
  intro i
  rw [List.getElem?_drop, List.getElem?_drop, overwrite_getElem? (by omega),
    if_neg (by omega), if_neg (by omega)]

/-- Nothing in front of the write changes. -/
theorem take_overwrite {mem : List α} {pos n : Nat} {data : List α}
    (h : pos ≤ mem.length) (hn : n ≤ pos) : (overwrite mem pos data).take n = mem.take n := by
  apply List.ext_getElem?
  intro i
  rw [List.getElem?_take, List.getElem?_take, overwrite_getElem? h]
  by_cases hi : i < n
  · rw [if_pos hi, if_pos hi, if_pos (by omega)]
  · rw [if_neg hi, if_neg hi]

/-- A write over the beginning of what follows `pos`. -/
theorem drop_overwrite_self {mem : List α} {pos : Nat} {data : List α} (h : pos ≤ mem.length) :
    (overwrite mem pos data).drop pos = data ++ mem.drop (pos + data.length) := by
  have hlen : (mem.take pos).length = pos := List.length_take_of_le h
  rw [overwrite, List.append_assoc]
  exact List.drop_left' hlen

/-- What was written is read back. -/
theorem slice_overwrite_self {mem : List α} {pos : Nat} {data : List α}
    (h : pos ≤ mem.length) :
    slice (overwrite mem pos data) pos (pos + data.length) = data := by
  apply List.ext_getElem?
  intro i
  rw [slice_getElem?, overwrite_getElem? h]
  by_cases hi : i < data.length
  · rw [if_pos (by omega), if_neg (by omega), if_pos (by omega), Nat.add_sub_cancel_left]
  · rw [if_neg (by omega), List.getElem?_eq_none (by omega)]

/-- A slice before the write is unchanged. -/
theorem slice_overwrite_before {mem : List α} {pos lo hi : Nat} {data : List α}
    (hpos : pos ≤ mem.length) (h : hi ≤ pos) :
    slice (overwrite mem pos data) lo hi = slice mem lo hi := by
  apply List.ext_getElem?
  intro i
  rw [slice_getElem?, slice_getElem?, overwrite_getElem? hpos]
  by_cases hi' : lo + i < hi
  · rw [if_pos hi', if_pos hi', if_pos (by omega)]
  · rw [if_neg hi', if_neg hi']

/-- A slice after the write is unchanged. -/
theorem slice_overwrite_after {mem : List α} {pos lo hi : Nat} {data : List α}
    (hpos : pos ≤ mem.length) (h : pos + data.length ≤ lo) :
    slice (overwrite mem pos data) lo hi = slice mem lo hi := by
  apply List.ext_getElem?
  intro i
  rw [slice_getElem?, slice_getElem?, overwrite_getElem? hpos]
  by_cases hi' : lo + i < hi
  · rw [if_pos hi', if_pos hi', if_neg (by omega), if_neg (by omega)]
  · rw [if_neg hi', if_neg hi']

/-- A write at the end of a slice extends it. -/
theorem slice_overwrite_extend {mem : List α} {lo pos : Nat} {data : List α}
    (hlo : lo ≤ pos) (h : pos + data.length ≤ mem.length) :
    slice (overwrite mem pos data) lo (pos + data.length) = slice mem lo pos ++ data := by
  have hlen : (overwrite mem pos data).length = mem.length := overwrite_length h
  rw [← slice_append_slice hlo (Nat.le_add_right pos data.length) (by omega),
    slice_overwrite_before (by omega) (Nat.le_refl pos), slice_overwrite_self (by omega)]

/-- Two writes side by side are one. -/
theorem overwrite_overwrite_adjacent {mem : List α} {pos : Nat} {xs ys : List α}
    (h : pos + (xs ++ ys).length ≤ mem.length) :
    overwrite (overwrite mem pos xs) (pos + xs.length) ys = overwrite mem pos (xs ++ ys) := by
  rw [List.length_append] at h
  have hlen : (overwrite mem pos xs).length = mem.length := overwrite_length (by omega)
  apply List.ext_getElem?
  intro i
  rw [overwrite_getElem? (by omega), overwrite_getElem? (by omega), overwrite_getElem? (by omega),
    List.length_append]
  by_cases hx : i < pos + xs.length
  · rw [if_pos hx]
    by_cases hp : i < pos
    · rw [if_pos hp, if_pos hp]
    · rw [if_neg hp, if_neg hp, if_pos hx, if_pos (by omega),
        List.getElem?_append_left (by omega)]
  · have hp : ¬ i < pos := by omega
    simp only [if_neg hx, if_neg hp]
    by_cases hy : i < pos + xs.length + ys.length
    · rw [if_pos hy, if_pos (by omega), List.getElem?_append_right (by omega),
        show i - pos - xs.length = i - (pos + xs.length) from by omega]
    · rw [if_neg hy, if_neg (by omega)]

/-- A second write over the beginning of the first. -/
theorem overwrite_overwrite_head {mem : List α} {pos : Nat} {xs xs' ys : List α}
    (hxs : xs'.length = xs.length) (h : pos + (xs ++ ys).length ≤ mem.length) :
    overwrite (overwrite mem pos (xs ++ ys)) pos xs' = overwrite mem pos (xs' ++ ys) := by
  have hpos : pos ≤ mem.length := by omega
  have hbefore : (overwrite mem pos (xs ++ ys)).take pos = mem.take pos :=
    take_overwrite hpos (Nat.le_refl pos)
  have hbehind : (overwrite mem pos (xs ++ ys)).drop (pos + xs'.length)
      = ys ++ mem.drop (pos + (xs ++ ys).length) := by
    rw [← List.drop_drop, drop_overwrite_self hpos, hxs, List.append_assoc, List.drop_left]
  rw [overwrite, hbefore, hbehind, overwrite, List.length_append, List.length_append, hxs]
  simp only [List.append_assoc]

@[simp] theorem overwrite_nil (mem : List α) (pos : Nat) : overwrite mem pos [] = mem := by
  simp [overwrite]

/-! ## What a program has left as it was

The part of a block in which two blocks may differ. Writes of the same data to both move its
bounds. -/

/-- The blocks differ inside `[lo, hi)` at most. -/
structure SameOutside (lo hi : Nat) (mem mem' : List α) : Prop where
  length : mem'.length = mem.length
  before : mem'.take lo = mem.take lo
  behind : mem'.drop hi = mem.drop hi

namespace SameOutside

variable {lo hi : Nat} {mem mem' mem'' : List α}

theorem refl (lo hi : Nat) (mem : List α) : SameOutside lo hi mem mem := ⟨rfl, rfl, rfl⟩

theorem trans (h : SameOutside lo hi mem mem') (h' : SameOutside lo hi mem' mem'') :
    SameOutside lo hi mem mem'' :=
  ⟨h'.length.trans h.length, h'.before.trans h.before, h'.behind.trans h.behind⟩

theorem mono (h : SameOutside lo hi mem mem') {m n : Nat} (hm : m ≤ lo) (hn : hi ≤ n) :
    SameOutside m n mem mem' := by
  refine ⟨h.length, ?_, ?_⟩
  · rw [← Nat.min_eq_left hm, ← List.take_take, ← List.take_take, h.before]
  · obtain ⟨k, rfl⟩ := Nat.exists_eq_add_of_le hn
    rw [← List.drop_drop, ← List.drop_drop, h.behind]

/-- A cell outside the part that may differ. -/
theorem getElem? (h : SameOutside lo hi mem mem') {i : Nat} (hi' : i < lo ∨ hi ≤ i) :
    mem'[i]? = mem[i]? := by
  rcases hi' with hlt | hge
  · rw [← List.getElem?_take_of_lt hlt, h.before, List.getElem?_take_of_lt hlt]
  · rw [← Nat.add_sub_cancel' hge, ← List.getElem?_drop, h.behind, List.getElem?_drop]

theorem of_getElem? (hlen : mem'.length = mem.length)
    (h : ∀ i, i < lo ∨ hi ≤ i → mem'[i]? = mem[i]?) : SameOutside lo hi mem mem' := by
  refine ⟨hlen, List.ext_getElem? fun i => ?_, List.ext_getElem? fun i => ?_⟩
  · rw [List.getElem?_take, List.getElem?_take]
    split
    · next hi' => exact h i (.inl hi')
    · rfl
  · rw [List.getElem?_drop, List.getElem?_drop]
    exact h _ (.inr (Nat.le_add_right hi i))

/-- Where nothing is left that may differ, the blocks are the same. -/
theorem eq_of_le (h : SameOutside lo hi mem mem') (hle : hi ≤ lo ∨ mem.length ≤ lo) :
    mem' = mem := by
  refine List.ext_getElem? fun i => ?_
  by_cases hi' : i < lo ∨ hi ≤ i
  · exact h.getElem? hi'
  · -- the cell is behind the end of both
    have hlen := h.length
    rw [List.getElem?_eq_none (by omega), List.getElem?_eq_none (by omega)]

/-- A write to both that does not begin behind the part they share makes that part longer. -/
theorem write (h : SameOutside lo hi mem mem') (pos : Nat) (data : List α) (hpos : pos ≤ lo)
    (hfit : pos + data.length ≤ mem.length) :
    SameOutside (max lo (pos + data.length)) hi (overwrite mem pos data)
      (overwrite mem' pos data) := by
  have hlen := h.length
  refine of_getElem? ?_ fun i hi' => ?_
  · rw [overwrite_length (by omega), overwrite_length hfit, hlen]
  rw [overwrite_getElem? (by omega), overwrite_getElem? (by omega)]
  by_cases hdata : i < pos + data.length
  · -- in front of the write, or in it
    rw [if_pos hdata, if_pos hdata]
    split
    · exact h.getElem? (.inl (by omega))
    · rfl
  · rw [if_neg hdata, if_neg hdata, h.getElem? (by omega)]

theorem overwrite {pos : Nat} {data : List α} (hlo : lo ≤ pos) (hhi : pos + data.length ≤ hi)
    (h : pos + data.length ≤ mem.length) : SameOutside lo hi mem (overwrite mem pos data) :=
  ⟨overwrite_length h, take_overwrite (by omega) hlo, drop_overwrite h hhi⟩

/-- The part that may differ is in place of the old one. -/
theorem exists_middle {pre mid post : List α}
    (h : SameOutside pre.length (pre.length + mid.length) (pre ++ (mid ++ post)) mem') :
    ∃ mid', mid'.length = mid.length ∧ mem' = pre ++ (mid' ++ post) := by
  have hbefore := h.before
  have hbehind := h.behind
  have hlen := h.length
  rw [List.take_left] at hbefore
  rw [← List.append_assoc, ← List.length_append, List.drop_left] at hbehind
  refine ⟨(mem'.drop pre.length).take mid.length, ?_, ?_⟩
  · rw [List.length_take, List.length_drop, hlen, List.length_append, List.length_append]
    omega
  · calc mem' = mem'.take pre.length ++ mem'.drop pre.length := (List.take_append_drop _ _).symm
      _ = pre ++ ((mem'.drop pre.length).take mid.length ++
            (mem'.drop pre.length).drop mid.length) := by rw [hbefore, List.take_append_drop]
      _ = _ := by rw [List.drop_drop, ← List.length_append, hbehind]

end SameOutside

/-! ## Growth -/

theorem resize_length (mem : List α) (n : Nat) (fill : α) : (resize mem n fill).length = n := by
  simp only [resize, List.length_append, List.length_take, List.length_replicate]
  omega

/-- Growing the block keeps its slices. -/
theorem slice_resize {mem : List α} {n lo hi : Nat} {fill : α} (hn : hi ≤ n)
    (hlen : hi ≤ mem.length) : slice (resize mem n fill) lo hi = slice mem lo hi := by
  apply List.ext_getElem?
  intro i
  rw [slice_getElem?, slice_getElem?]
  by_cases hi' : lo + i < hi
  · have hlt : lo + i < (mem.take n).length := by rw [List.length_take]; omega
    rw [if_pos hi', if_pos hi', resize, List.getElem?_append_left hlt, List.getElem?_take,
      if_pos (by omega)]
  · rw [if_neg hi', if_neg hi']

end Storage
