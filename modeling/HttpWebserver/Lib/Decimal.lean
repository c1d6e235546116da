import Mathlib.Data.Nat.Digits.Lemmas

/-!
# Decimal numerals

The numeral of an integer in ASCII, and what makes a text the numeral of a value.

* `littleDigits`: the decimal digits of a number, last digit first, with one digit for zero;
* `numeral`: the digits in reading order, behind a minus sign for a negative value;
* `parse`: the value of an optional minus sign and one or more digits;
* **`numeral_canonical`** — the numeral has a minus sign exactly for a negative value, no
  superfluous zero in front, and it is read as the value it was made from;
* `numeral_length_le`: how long the numerals of a range get.
-/

namespace Decimal

/-- `'-'`. -/
def minus : UInt8 := 45

/-- `'0'`. -/
def zeroChar : UInt8 := 48

def digitChar (d : Nat) : UInt8 := UInt8.ofNat (48 + d)

/-- The decimal digits, last digit first. -/
def littleDigits (n : Nat) : List Nat := if n = 0 then [0] else Nat.digits 10 n

/-- The digits in reading order. -/
def natNumeral (n : Nat) : List UInt8 := (littleDigits n).reverse.map digitChar

def numeral (v : Int) : List UInt8 :=
  if v < 0 then minus :: natNumeral v.natAbs else natNumeral v.natAbs

/-! ## Reading

The converse direction, used to say that a numeral is the right one: a text is read back, and is
the shortest that is read so. -/

def isDigit (c : UInt8) : Bool := 48 ≤ c.toNat ∧ c.toNat ≤ 57

/-- The value of the digits so far and one more. -/
def addDigit (n : Nat) (c : UInt8) : Nat := 10 * n + (c.toNat - 48)

def parseNat (s : List UInt8) : Option Nat :=
  if s ≠ [] ∧ s.all isDigit then some (s.foldl addDigit 0) else none

def parse (s : List UInt8) : Option Int :=
  if s.head? = some minus then (parseNat s.tail).map fun n : Nat => -(n : Int)
  else (parseNat s).map fun n : Nat => (n : Int)

/-- The text is the numeral of `v` as one writes it. -/
structure Canonical (v : Int) (s : List UInt8) : Prop where
  sign : s.head? = some minus ↔ v < 0
  noLeadingZero : ∀ rest, s = zeroChar :: rest ∨ s = minus :: zeroChar :: rest → s = [zeroChar]
  parses : parse s = some v

/-! ## Digits -/

section Digits

variable {n : Nat}

theorem digitChar_toNat {d : Nat} (h : d < 10) : (digitChar d).toNat = 48 + d := by
  rw [digitChar, UInt8.toNat_ofNat']
  omega

theorem littleDigits_lt {d : Nat} (h : d ∈ littleDigits n) : d < 10 := by
  rw [littleDigits] at h
  split at h
  · rw [List.mem_singleton.mp h]
    decide
  · exact Nat.digits_lt_base (by decide) h

/-- The digits of a number are its last digit and those of the rest. -/
theorem littleDigits_eq (n : Nat) :
    littleDigits n = n % 10 :: if n / 10 = 0 then [] else littleDigits (n / 10) := by
  rcases Nat.eq_zero_or_pos n with rfl | hpos
  · rfl
  · rw [littleDigits, if_neg hpos.ne', Nat.digits_def' (by decide) hpos]
    congr 1
    split
    · next hz => rw [hz, Nat.digits_zero]
    · next hnz => rw [littleDigits, if_neg hnz]

theorem littleDigits_ne_nil (n : Nat) : littleDigits n ≠ [] := by
  rw [littleDigits_eq]
  exact List.cons_ne_nil _ _

theorem ofDigits_littleDigits (n : Nat) : Nat.ofDigits 10 (littleDigits n) = n := by
  rw [littleDigits]
  split
  · next hz => rw [hz, Nat.ofDigits_singleton]
  · exact Nat.ofDigits_digits 10 n

theorem littleDigits_length_le {k : Nat} (hk : 0 < k) (h : n < 10 ^ k) :
    (littleDigits n).length ≤ k := by
  rw [littleDigits]
  split
  · exact hk
  · exact (Nat.digits_length_le_iff (by decide) n).mpr h

/-- Digits in reading order add up to what they stand for. -/
theorem foldl_addDigit {ds : List Nat} (h : ∀ d ∈ ds, d < 10) :
    (ds.reverse.map digitChar).foldl addDigit 0 = Nat.ofDigits 10 ds := by
  induction ds with
  | nil => rfl
  | cons d ds ih =>
    have hd : d < 10 := h d List.mem_cons_self
    have hds := ih fun e he => h e (List.mem_cons_of_mem d he)
    rw [List.reverse_cons, List.map_append, List.foldl_append, hds]
    show 10 * Nat.ofDigits 10 ds + ((digitChar d).toNat - 48) = Nat.ofDigits 10 (d :: ds)
    rw [digitChar_toNat hd, Nat.ofDigits_cons]
    omega

end Digits

/-! ## Numerals

A numeral is read back to its value, is canonical, and has no more characters than the range of
the value allows. -/

section Numerals

variable {n : Nat} {v : Int} {c : UInt8}

theorem isDigit_of_mem (h : c ∈ natNumeral n) : isDigit c = true := by
  obtain ⟨d, hd, rfl⟩ := List.mem_map.mp h
  have hlt := littleDigits_lt (List.mem_reverse.mp hd)
  rw [isDigit, digitChar_toNat hlt, decide_eq_true_eq]
  omega

theorem natNumeral_ne_nil (n : Nat) : natNumeral n ≠ [] := by
  intro h
  have hnil := List.map_eq_nil_iff.mp h
  exact littleDigits_ne_nil n (List.reverse_eq_nil_iff.mp hnil)

theorem parseNat_natNumeral (n : Nat) : parseNat (natNumeral n) = some n := by
  have hall : (natNumeral n).all isDigit = true :=
    List.all_eq_true.mpr fun c hc => isDigit_of_mem hc
  rw [parseNat, if_pos ⟨natNumeral_ne_nil n, hall⟩, natNumeral,
    foldl_addDigit fun d hd => littleDigits_lt hd, ofDigits_littleDigits]

/-- A numeral of digits does not start with the sign. -/
theorem natNumeral_head_ne (n : Nat) : (natNumeral n).head? ≠ some minus := by
  intro h
  have hdigit := isDigit_of_mem (List.mem_of_mem_head? h)
  exact absurd hdigit (by decide)

/-- Only the numeral of zero starts with the zero. -/
theorem natNumeral_zero {rest : List UInt8} (h : natNumeral n = zeroChar :: rest) : n = 0 := by
  by_contra hn
  -- the first character stands for the last of the digits, which is not zero
  have hne : Nat.digits 10 n ≠ [] := Nat.digits_ne_nil_iff_ne_zero.mpr hn
  have hhead : (natNumeral n).head? = some (digitChar ((Nat.digits 10 n).getLast hne)) := by
    rw [natNumeral, littleDigits, if_neg hn, List.head?_map, List.head?_reverse,
      List.getLast?_eq_some_getLast hne]
    rfl
  rw [h, List.head?_cons, Option.some.injEq] at hhead
  have hlast := Nat.getLast_digit_ne_zero 10 hn
  have hlt : (Nat.digits 10 n).getLast hne < 10 :=
    Nat.digits_lt_base (by decide) (List.getLast_mem hne)
  have hval := congrArg UInt8.toNat hhead
  rw [digitChar_toNat hlt] at hval
  exact hlast (Nat.add_left_cancel hval.symm)

/-- **The numeral of a value.** -/
theorem numeral_canonical (v : Int) : Canonical v (numeral v) := by
  rw [numeral]
  split
  · next hneg =>
    refine ⟨iff_of_true rfl hneg, ?_, ?_⟩
    · rintro rest (h | h)
      · cases h
      · have hz := natNumeral_zero (List.cons.inj h).2
        omega
    · show (parseNat (natNumeral v.natAbs)).map (fun n : Nat => -(n : Int)) = some v
      rw [parseNat_natNumeral, Option.map_some, Option.some.injEq]
      omega
  · next hnonneg =>
    have hhead := natNumeral_head_ne v.natAbs
    refine ⟨iff_of_false hhead hnonneg, ?_, ?_⟩
    · rintro rest (h | h)
      · rw [natNumeral_zero h]
        rfl
      · exact absurd (congrArg List.head? h) hhead
    · rw [parse, if_neg hhead, parseNat_natNumeral, Option.map_some, Option.some.injEq]
      omega

/-- A numeral has a sign and digits only. -/
theorem numeral_chars (h : c ∈ numeral v) : c = minus ∨ isDigit c = true := by
  rw [numeral] at h
  split at h
  · rcases List.mem_cons.mp h with rfl | h
    · exact .inl rfl
    · exact .inr (isDigit_of_mem h)
  · exact .inr (isDigit_of_mem h)

theorem natNumeral_length (n : Nat) : (natNumeral n).length = (littleDigits n).length := by
  rw [natNumeral, List.length_map, List.length_reverse]

theorem numeral_length_le {k : Nat} (hk : 0 < k) (hlo : -10 ^ k < v) (hhi : v < 10 ^ (k + 1)) :
    (numeral v).length ≤ k + 1 := by
  rw [numeral]
  split
  · next hneg =>
    rw [List.length_cons, natNumeral_length]
    have hlen := littleDigits_length_le (n := v.natAbs) hk (by zify; rw [abs_of_neg hneg]; omega)
    omega
  · next hnonneg =>
    rw [natNumeral_length]
    refine littleDigits_length_le (by omega) ?_
    zify
    rw [abs_of_nonneg (not_lt.mp hnonneg)]
    exact hhi

end Numerals

end Decimal
