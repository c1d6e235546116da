import HttpWebserver.Lib.Storage
import Mathlib.Algebra.Ring.Int.Defs

/-!
# C strings in a block of storage

The functions of `<string.h>` and `<stdlib.h>` that a program calls on strings it keeps in a
block of storage, a list of bytes. A string begins at a position and ends at the first NUL
from there on.

* A function that would read or write outside the block returns `none`: the string has no end
  there, or its copy has no room.
* Where the C function returns a null pointer, the result is `some none`.
* Letters are compared in the C locale.

`find` is the scan the searching functions share.
-/

namespace CString

open Storage

/-- The bytes of a literal. -/
def ascii (s : String) : List UInt8 := s.toList.map fun c => UInt8.ofNat c.toNat

/-- The position of the first byte from `pos` on at which a scan stops. -/
def find (stop : UInt8 → Bool) (mem : List UInt8) (pos : Nat) : Option Nat :=
  ((mem.drop pos).findIdx? stop).map (pos + ·)

/-- The bytes of the string at `pos`. -/
def cString (mem : List UInt8) (pos : Nat) : Option (List UInt8) :=
  (find (· == 0) mem pos).map fun stop => slice mem pos stop

def strlen (mem : List UInt8) (pos : Nat) : Option Nat := (cString mem pos).map List.length

def strpbrk (mem : List UInt8) (pos : Nat) (accept : List UInt8) : Option (Option Nat) := do
  let stop ← find (fun x => x == 0 || accept.contains x) mem pos
  let x ← mem[stop]?
  some (if x = 0 then none else some stop)

def strspn (mem : List UInt8) (pos : Nat) (accept : List UInt8) : Option Nat :=
  (find (fun x => !accept.contains x) mem pos).map fun stop => stop - pos

def strchr (mem : List UInt8) (pos : Nat) (ch : UInt8) : Option (Option Nat) :=
  strpbrk mem pos [ch]

/-- The last position of a byte in a string that begins at `pos`. -/
def lastPosition (ch : UInt8) : List UInt8 → Nat → Option Nat
  | [], _ => none
  | x :: xs, pos =>
    match lastPosition ch xs (pos + 1) with
    | some p => some p
    | none => if x = ch then some pos else none

def strrchr (mem : List UInt8) (pos : Nat) (ch : UInt8) : Option (Option Nat) :=
  (cString mem pos).map fun s => lastPosition ch s pos

def toLower (x : UInt8) : UInt8 := if 65 ≤ x ∧ x ≤ 90 then x + 32 else x

/-- `strcasecmp(s, t) == 0` for a literal `t`, the storage from `s` on given. -/
def sameNoCase : List UInt8 → List UInt8 → Option Bool
  | [], _ => none
  | x :: _, [] => some (x == 0)
  | x :: xs, y :: ys => if toLower x = toLower y then sameNoCase xs ys else some false

/-- The strings are equal, letters of either case. -/
def SameNoCase (s t : List UInt8) : Prop := s.map toLower = t.map toLower

instance (s t : List UInt8) : Decidable (SameNoCase s t) := inferInstanceAs (Decidable (_ = _))

def strcasecmp (mem : List UInt8) (pos : Nat) (t : List UInt8) : Option Bool :=
  sameNoCase (mem.drop pos) t

/-- `strncasecmp(s, t, strlen(t)) == 0` for a literal `t`. -/
def startsNoCase : List UInt8 → List UInt8 → Option Bool
  | _, [] => some true
  | [], _ :: _ => none
  | x :: xs, y :: ys => if toLower x = toLower y then startsNoCase xs ys else some false

def strncasecmp (mem : List UInt8) (pos : Nat) (t : List UInt8) : Option Bool :=
  startsNoCase (mem.drop pos) t

def strcpy (mem : List UInt8) (pos : Nat) (t : List UInt8) : Option (List UInt8) :=
  writeAt mem pos (t ++ [0])

def strcat (mem : List UInt8) (pos : Nat) (t : List UInt8) : Option (List UInt8) := do
  let len ← strlen mem pos
  strcpy mem (pos + len) t

def isDigit (x : UInt8) : Bool := 48 ≤ x && x ≤ 57

def isSpace (x : UInt8) : Bool := x == 32 || 9 ≤ x && x ≤ 13

/-- The digits at the beginning, in front of a byte that is none. -/
def digits : List UInt8 → Nat → Option Nat
  | [], _ => none
  | x :: xs, value => if isDigit x then digits xs (value * 10 + (x.toNat - 48)) else some value

/-- A value brought into the range of a `long`, as `strtol` does. -/
def clampLong (x : Int) : Int := max (-2 ^ 63) (min x (2 ^ 63 - 1))

def atol (mem : List UInt8) (pos : Nat) : Option Int := do
  let start ← find (fun x => !isSpace x) mem pos
  let x ← mem[start]?
  let first := if x = 43 ∨ x = 45 then start + 1 else start
  let value ← digits (mem.drop first) 0
  some (clampLong (if x = 45 then -value else value))

example : atol (ascii " -42x" ++ [0]) 0 = some (-42) := by decide

/-! ## Lemmas

The functions of `string.h` are scans of a block that may end without a NUL, where they are
undefined. The lemmas compute them on a text that is given as the parts they cut it into. -/

/-- The string at the beginning of a block with a NUL. -/
theorem cString_of_mem {mem : List UInt8} (h : 0 ∈ mem) :
    cString mem 0 = some (mem.takeWhile (· ≠ 0)) := by
  have hfind : mem.findIdx? (· == 0) = some (mem.findIdx (· == 0)) :=
    List.findIdx?_eq_some_of_exists ⟨0, h, rfl⟩
  have hstop : mem.takeWhile (· ≠ 0) = mem.take (mem.findIdx (· == 0)) := by
    rw [List.takeWhile_eq_take_findIdx_not]
    congr 2
    funext x
    simp [Bool.beq_eq_decide_eq]
  rw [cString, find, List.drop_zero, hfind, Option.map_some, Option.map_some, hstop, slice,
    List.drop_zero, Nat.zero_add]

/-- Without a NUL the string has no end. -/
theorem cString_of_notMem {mem : List UInt8} (h : 0 ∉ mem) : cString mem 0 = none := by
  have hfind : mem.findIdx? (· == 0) = none := by
    refine List.findIdx?_eq_none_iff.mpr fun x hx => ?_
    rw [beq_eq_false_iff_ne]
    rintro rfl
    exact h hx
  rw [cString, find, List.drop_zero, hfind]
  rfl

/-! ### The string at a position -/

section Strings

variable {mem mem' a b s t w : List UInt8} {pos : Nat} {x : UInt8}

theorem find_eq {stop : UInt8 → Bool} (hmem : mem.drop pos = a ++ x :: b)
    (ha : ∀ y ∈ a, stop y = false) (hx : stop x = true) :
    find stop mem pos = some (pos + a.length) := by
  have hnone : a.findIdx? stop = none := List.findIdx?_eq_none_iff.mpr ha
  rw [find, hmem, List.findIdx?_append, hnone, List.findIdx?_cons, hx]
  simp

/-- A string is what stands in front of the first NUL. -/
theorem cString_eq_some_iff :
    cString mem pos = some s ↔ 0 ∉ s ∧ ∃ rest, mem.drop pos = s ++ 0 :: rest := by
  constructor
  · intro h
    obtain ⟨stop, hstop, rfl⟩ := Option.map_eq_some_iff.mp h
    obtain ⟨i, hi, rfl⟩ := Option.map_eq_some_iff.mp hstop
    obtain ⟨hlt, hzero, hbefore⟩ := List.findIdx?_eq_some_iff_getElem.mp hi
    have hs : slice mem pos (pos + i) = (mem.drop pos).take i := by
      rw [slice, List.drop_take, Nat.add_sub_cancel_left]
    rw [hs]
    constructor
    · intro hmem
      obtain ⟨j, hj, hz⟩ := List.mem_iff_getElem.mp hmem
      rw [List.length_take] at hj
      rw [List.getElem_take] at hz
      exact hbefore j (by omega) (beq_iff_eq.mpr hz)
    · refine ⟨(mem.drop pos).drop (i + 1), ?_⟩
      rw [← beq_iff_eq.mp hzero, ← List.drop_eq_getElem_cons hlt, List.take_append_drop]
  · rintro ⟨hzero, rest, hmem⟩
    have hfind : find (· == 0) mem pos = some (pos + s.length) := by
      apply find_eq hmem
      · intro y hy
        rw [beq_eq_false_iff_ne]
        rintro rfl
        exact hzero hy
      · rfl
    rw [cString, hfind, Option.map_some, slice, List.drop_take, Nat.add_sub_cancel_left, hmem,
      List.take_left]

/-- The string depends on the bytes from its position on only. -/
theorem cString_congr {pos' : Nat} (h : mem'.drop pos' = mem.drop pos) :
    cString mem' pos' = cString mem pos := by
  apply Option.ext
  intro s
  rw [cString_eq_some_iff, cString_eq_some_iff, h]

/-- Behind a part of a string comes the rest of it. -/
theorem cString_add (h : cString mem pos = some (a ++ b)) :
    cString mem (pos + a.length) = some b := by
  obtain ⟨hzero, rest, hmem⟩ := cString_eq_some_iff.mp h
  refine cString_eq_some_iff.mpr ⟨fun hb => hzero (List.mem_append_right _ hb), rest, ?_⟩
  rw [← List.drop_drop, hmem, List.append_assoc, List.drop_left]

theorem cString_lt (h : cString mem pos = some s) : pos + s.length < mem.length := by
  obtain ⟨-, rest, hmem⟩ := cString_eq_some_iff.mp h
  have hlen := congrArg List.length hmem
  rw [List.length_drop, List.length_append, List.length_cons] at hlen
  omega

/-- The string depends on the bytes up to its NUL only. -/
theorem cString_of_take {n : Nat} (h : cString mem pos = some s) (hn : pos + s.length < n)
    (hsame : mem'.take n = mem.take n) : cString mem' pos = some s := by
  obtain ⟨hzero, rest, hmem⟩ := cString_eq_some_iff.mp h
  have hfront : (mem'.drop pos).take (s.length + 1) = s ++ [0] := by
    calc (mem'.drop pos).take (s.length + 1)
        = ((mem'.take n).drop pos).take (s.length + 1) := by
          rw [List.drop_take, List.take_take, Nat.min_eq_left (by omega)]
      _ = (mem.drop pos).take (s.length + 1) := by
          rw [hsame, List.drop_take, List.take_take, Nat.min_eq_left (by omega)]
      _ = s ++ [0] := by
          rw [hmem, List.append_cons, List.take_left' (by simp)]
  refine cString_eq_some_iff.mpr ⟨hzero, (mem'.drop pos).drop (s.length + 1), ?_⟩
  rw [List.append_cons, ← hfront, List.take_append_drop]

/-- A string with another end written over it. -/
theorem cString_overwrite (h : cString mem pos = some (a ++ b)) (ht : 0 ∉ t)
    (hroom : pos + a.length + (t ++ [0]).length ≤ mem.length) :
    cString (overwrite mem (pos + a.length) (t ++ [0])) pos = some (a ++ t) := by
  obtain ⟨hzero, rest, hmem⟩ := cString_eq_some_iff.mp h
  have ha : 0 ∉ a := fun ha => hzero (List.mem_append_left _ ha)
  apply cString_eq_some_iff.mpr
  refine ⟨List.not_mem_append ha ht, mem.drop (pos + a.length + (t ++ [0]).length), ?_⟩
  -- the bytes in front of the write are those of the string
  have hfront : ((overwrite mem (pos + a.length) (t ++ [0])).drop pos).take a.length = a := by
    rw [List.take_drop, take_overwrite (by omega) (Nat.le_refl _), ← List.take_drop, hmem,
      List.append_assoc, List.take_left]
  rw [← List.take_append_drop a.length (List.drop pos _), hfront, List.drop_drop,
    drop_overwrite_self (by omega), List.append_assoc, List.append_assoc]
  rfl

/-! ### Words

A text is cut where the bytes of a set begin or end. -/

/-- A text without a byte of the set, or the part in front of the first one. -/
theorem exists_first (accept s : List UInt8) : (∀ y ∈ s, y ∉ accept) ∨
    ∃ a x b, s = a ++ x :: b ∧ (∀ y ∈ a, y ∉ accept) ∧ x ∈ accept := by
  induction s with
  | nil => exact .inl nofun
  | cons x s ih =>
    by_cases hx : x ∈ accept
    · exact .inr ⟨[], x, s, rfl, nofun, hx⟩
    · rcases ih with hs | ⟨a, z, b, rfl, ha, hz⟩
      · exact .inl (List.forall_mem_cons.mpr ⟨hx, hs⟩)
      · exact .inr ⟨x :: a, z, b, rfl, List.forall_mem_cons.mpr ⟨hx, ha⟩, hz⟩

/-- In front of a NUL there is a string. -/
theorem exists_cString {n : Nat} (h : mem[pos + n]? = some 0) :
    ∃ s, cString mem pos = some s ∧ s.length ≤ n := by
  rw [← List.getElem?_drop] at h
  rcases exists_first [0] (mem.drop pos) with hno | ⟨s, x, rest, hmem, hs, hx⟩
  · exact absurd (List.mem_singleton_self 0) (hno 0 (List.mem_of_getElem? h))
  cases List.mem_singleton.mp hx
  refine ⟨s, cString_eq_some_iff.mpr ⟨fun hzero => hs 0 hzero hx, rest, hmem⟩, ?_⟩
  -- the first NUL is not behind this one
  by_contra hlt
  rw [hmem, List.getElem?_append_left (by omega)] at h
  exact hs 0 (List.mem_of_getElem? h) hx

/-- The bytes of the set at the beginning. -/
theorem exists_span (accept s : List UInt8) :
    ∃ w t, s = w ++ t ∧ (∀ y ∈ w, y ∈ accept) ∧ ∀ y ∈ t.head?, y ∉ accept := by
  induction s with
  | nil => exact ⟨[], [], rfl, nofun, nofun⟩
  | cons x s ih =>
    by_cases hx : x ∈ accept
    · obtain ⟨w, t, rfl, hw, ht⟩ := ih
      exact ⟨x :: w, t, rfl, List.forall_mem_cons.mpr ⟨hx, hw⟩, ht⟩
    · refine ⟨[], x :: s, rfl, nofun, fun y hy => ?_⟩
      cases hy
      exact hx

/-- A text is cut in one way only. -/
theorem span_unique {p : UInt8 → Prop} {a' b' : List UInt8} (h : a ++ b = a' ++ b')
    (ha : ∀ y ∈ a, p y) (hb : ∀ y ∈ b.head?, ¬ p y) (ha' : ∀ y ∈ a', p y)
    (hb' : ∀ y ∈ b'.head?, ¬ p y) : a = a' ∧ b = b' := by
  induction a generalizing a' with
  | nil =>
    cases a' with
    | nil => exact ⟨rfl, h⟩
    | cons x a' =>
      have hx : b.head? = some x := by rw [show b = x :: (a' ++ b') from h]; rfl
      exact absurd (ha' x List.mem_cons_self) (hb x hx)
  | cons x a ih =>
    cases a' with
    | nil =>
      have hx : b'.head? = some x := by rw [show b' = x :: (a ++ b) from h.symm]; rfl
      exact absurd (ha x List.mem_cons_self) (hb' x hx)
    | cons x' a' =>
      obtain ⟨rfl, hrest⟩ := List.cons.inj h
      obtain ⟨rfl, rfl⟩ := ih hrest (fun y hy => ha y (List.mem_cons_of_mem _ hy))
        fun y hy => ha' y (List.mem_cons_of_mem _ hy)
      exact ⟨rfl, rfl⟩

/-- A text with a byte, cut at the last one. -/
theorem exists_last (h : x ∈ s) : ∃ a b, s = a ++ x :: b ∧ x ∉ b := by
  induction s with
  | nil => cases h
  | cons y s ih =>
    by_cases hs : x ∈ s
    · obtain ⟨a, b, rfl, hb⟩ := ih hs
      exact ⟨y :: a, b, rfl, hb⟩
    · rcases List.mem_cons.mp h with rfl | hmem
      · exact ⟨[], s, rfl, hs⟩
      · exact absurd hmem hs

/-- What holds of a word holds of the byte a text begins with. -/
theorem head_append {p : UInt8 → Prop} (hne : a ≠ []) (ha : ∀ y ∈ a, p y) :
    ∀ y ∈ (a ++ b).head?, p y := by
  intro y hy
  rw [List.head?_append_of_ne_nil _ hne] at hy
  exact ha y (List.mem_of_mem_head? hy)

/-! ### The functions on a string

Each function, on a text whose parts are named: what it returns there, or that it finds nothing. -/

theorem strlen_eq (h : cString mem pos = some s) : strlen mem pos = some s.length := by
  rw [strlen, h]
  rfl

theorem strpbrk_found {accept : List UInt8} (h : cString mem pos = some (a ++ x :: b))
    (ha : ∀ y ∈ a, y ∉ accept) (hx : x ∈ accept) :
    strpbrk mem pos accept = some (some (pos + a.length)) := by
  obtain ⟨hzero, rest, hmem⟩ := cString_eq_some_iff.mp h
  rw [List.append_assoc, List.cons_append] at hmem
  have hfind : find (fun x => x == 0 || accept.contains x) mem pos = some (pos + a.length) := by
    apply find_eq hmem
    · intro y hy
      have hy0 : y ≠ 0 := by
        rintro rfl
        exact hzero (List.mem_append_left _ hy)
      simp [hy0, ha y hy]
    · simp [hx]
  have hget : mem[pos + a.length]? = some x := by
    rw [← List.getElem?_drop, hmem, List.getElem?_append_right (Nat.le_refl _), Nat.sub_self]
    rfl
  have hx0 : x ≠ 0 := by
    rintro rfl
    exact hzero (List.mem_append_right _ List.mem_cons_self)
  rw [strpbrk, hfind, Option.bind_eq_bind, Option.bind_some, hget, Option.bind_eq_bind,
    Option.bind_some, if_neg hx0]

theorem strpbrk_none {accept : List UInt8} (h : cString mem pos = some s)
    (hs : ∀ y ∈ s, y ∉ accept) : strpbrk mem pos accept = some none := by
  obtain ⟨hzero, rest, hmem⟩ := cString_eq_some_iff.mp h
  have hfind : find (fun x => x == 0 || accept.contains x) mem pos = some (pos + s.length) := by
    apply find_eq hmem
    · intro y hy
      have hy0 : y ≠ 0 := by
        rintro rfl
        exact hzero hy
      simp [hy0, hs y hy]
    · rfl
  have hget : mem[pos + s.length]? = some 0 := by
    rw [← List.getElem?_drop, hmem, List.getElem?_append_right (Nat.le_refl _), Nat.sub_self]
    rfl
  rw [strpbrk, hfind, Option.bind_eq_bind, Option.bind_some, hget]
  rfl

theorem strspn_eq {accept : List UInt8} (h : cString mem pos = some (w ++ t))
    (hw : ∀ y ∈ w, y ∈ accept) (ht : ∀ y ∈ t.head?, y ∉ accept) (hzero : 0 ∉ accept) :
    strspn mem pos accept = some w.length := by
  obtain ⟨-, rest, hmem⟩ := cString_eq_some_iff.mp h
  have hstop : ∃ x r, t ++ 0 :: rest = x :: r ∧ x ∉ accept := by
    cases t with
    | nil => exact ⟨0, rest, rfl, hzero⟩
    | cons x t => exact ⟨x, _, rfl, ht x rfl⟩
  obtain ⟨x, r, hxr, hx⟩ := hstop
  rw [List.append_assoc, hxr] at hmem
  have hfind : find (fun x => !accept.contains x) mem pos = some (pos + w.length) := by
    apply find_eq hmem
    · intro y hy
      simp [hw y hy]
    · simp [hx]
  rw [strspn, hfind, Option.map_some, Nat.add_sub_cancel_left]

theorem not_mem_of_sameNoCase (h : SameNoCase s t) (hx : toLower x ∉ t.map toLower) : x ∉ s := by
  intro hmem
  apply hx
  rw [← show s.map toLower = t.map toLower from h]
  exact List.mem_map_of_mem hmem

theorem length_of_sameNoCase (h : SameNoCase s t) : s.length = t.length := by
  have hlen := congrArg List.length (show s.map toLower = t.map toLower from h)
  rwa [List.length_map, List.length_map] at hlen

theorem lastPosition_none {ch : UInt8} (h : ch ∉ s) (pos : Nat) : lastPosition ch s pos = none := by
  induction s generalizing pos with
  | nil => rfl
  | cons y s ih =>
    have hy : y ≠ ch := fun hy => h (hy ▸ List.mem_cons_self)
    rw [lastPosition, ih fun hmem => h (List.mem_cons_of_mem _ hmem)]
    exact if_neg hy

theorem lastPosition_eq {ch : UInt8} (h : ch ∉ b) (pos : Nat) :
    lastPosition ch (a ++ ch :: b) pos = some (pos + a.length) := by
  induction a generalizing pos with
  | nil =>
    rw [List.nil_append, lastPosition, lastPosition_none h]
    exact if_pos rfl
  | cons y a ih =>
    rw [List.cons_append, lastPosition, ih, List.length_cons]
    exact congrArg some (by omega)

theorem strrchr_eq {ch : UInt8} (h : cString mem pos = some (a ++ ch :: b)) (hb : ch ∉ b) :
    strrchr mem pos ch = some (some (pos + a.length)) := by
  rw [strrchr, h]
  exact congrArg some (lastPosition_eq hb pos)

theorem toLower_eq_zero : toLower x = 0 ↔ x = 0 := by
  constructor
  · intro h
    unfold toLower at h
    split at h
    · next hx =>
      have := congrArg UInt8.toNat h
      simp only [UInt8.le_iff_toNat_le] at hx
      simp [UInt8.toNat_add] at this hx
      omega
    · exact h
  · rintro rfl
    rfl

theorem sameNoCase_eq (hs : 0 ∉ s) (ht : 0 ∉ t) (rest : List UInt8) :
    sameNoCase (s ++ 0 :: rest) t = some (decide (SameNoCase s t)) := by
  induction t generalizing s with
  | nil =>
    cases s with
    | nil => rfl
    | cons x s =>
      have hx : x ≠ 0 := fun hx => hs (hx ▸ List.mem_cons_self)
      simp [sameNoCase, SameNoCase, hx]
  | cons y t ih =>
    have hy : toLower y ≠ 0 := fun hy => ht (toLower_eq_zero.mp hy ▸ List.mem_cons_self)
    have ht' : 0 ∉ t := fun h => ht (List.mem_cons_of_mem _ h)
    cases s with
    | nil =>
      have h0 : toLower 0 ≠ toLower y := fun h => hy h.symm
      simp [sameNoCase, SameNoCase, h0]
    | cons x s =>
      have hs' : 0 ∉ s := fun h => hs (List.mem_cons_of_mem _ h)
      by_cases hxy : toLower x = toLower y
      · have hsame : SameNoCase (x :: s) (y :: t) ↔ SameNoCase s t := by simp [SameNoCase, hxy]
        rw [List.cons_append, sameNoCase, if_pos hxy, ih hs' ht', decide_eq_decide.mpr hsame]
      · simp [sameNoCase, SameNoCase, hxy]

theorem strcasecmp_eq (h : cString mem pos = some s) (ht : 0 ∉ t) :
    strcasecmp mem pos t = some (decide (SameNoCase s t)) := by
  obtain ⟨hs, rest, hmem⟩ := cString_eq_some_iff.mp h
  rw [strcasecmp, hmem]
  exact sameNoCase_eq hs ht rest

theorem startsNoCase_eq (ht : 0 ∉ t) (rest : List UInt8) :
    startsNoCase (s ++ 0 :: rest) t = some (decide (SameNoCase (s.take t.length) t)) := by
  induction t generalizing s with
  | nil => simp [startsNoCase, SameNoCase]
  | cons y t ih =>
    have hy : toLower y ≠ 0 := fun hy => ht (toLower_eq_zero.mp hy ▸ List.mem_cons_self)
    have ht' : 0 ∉ t := fun h => ht (List.mem_cons_of_mem _ h)
    cases s with
    | nil =>
      have h0 : toLower 0 ≠ toLower y := fun h => hy h.symm
      simp [startsNoCase, SameNoCase, h0]
    | cons x s =>
      by_cases hxy : toLower x = toLower y
      · have hsame : SameNoCase ((x :: s).take (t.length + 1)) (y :: t) ↔
            SameNoCase (s.take t.length) t := by simp [SameNoCase, hxy]
        rw [List.cons_append, startsNoCase, if_pos hxy, ih ht']
        exact congrArg some (decide_eq_decide.mpr hsame.symm)
      · simp [startsNoCase, SameNoCase, hxy]

theorem strncasecmp_eq (h : cString mem pos = some s) (ht : 0 ∉ t) :
    strncasecmp mem pos t = some (decide (SameNoCase (s.take t.length) t)) := by
  obtain ⟨-, rest, hmem⟩ := cString_eq_some_iff.mp h
  rw [strncasecmp, hmem]
  exact startsNoCase_eq ht rest

theorem strcpy_eq_some_iff {mem' : List UInt8} : strcpy mem pos t = some mem' ↔
    pos + (t ++ [0]).length ≤ mem.length ∧ mem' = overwrite mem pos (t ++ [0]) := by
  unfold strcpy
  by_cases hfits : pos + (t ++ [0]).length ≤ mem.length
  · rw [writeAt_eq_some hfits, Option.some.injEq, eq_comm]
    exact (and_iff_right hfits).symm
  · rw [writeAt_eq_none (Nat.lt_of_not_le hfits)]
    exact iff_of_false nofun fun h => hfits h.1

theorem strcat_eq (h : cString mem pos = some s)
    (hroom : pos + s.length + (t ++ [0]).length ≤ mem.length) :
    strcat mem pos t = some (overwrite mem (pos + s.length) (t ++ [0])) := by
  rw [strcat, strlen_eq h]
  exact writeAt_eq_some hroom

theorem strcat_none (h : cString mem pos = some s)
    (hroom : mem.length < pos + s.length + (t ++ [0]).length) : strcat mem pos t = none := by
  rw [strcat, strlen_eq h]
  exact writeAt_eq_none hroom

end Strings

/-- A string that holds a byte is not empty. -/
theorem cString_of_strrchr {mem : List UInt8} {pos q : Nat} {ch : UInt8}
    (h : strrchr mem pos ch = some (some q)) : ∃ s, cString mem pos = some s ∧ s ≠ [] := by
  obtain ⟨s, hs, hq⟩ := Option.map_eq_some_iff.mp h
  refine ⟨s, hs, ?_⟩
  rintro rfl
  cases hq

end CString
