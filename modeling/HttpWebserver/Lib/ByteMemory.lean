import Mathlib.Algebra.Group.Nat.Defs
import Mathlib.Data.List.Basic

/-!
# Byte memory with 64-bit words

A memory is a byte at every address; a word is eight bytes, the least significant first.

* `writeWord_word`, `writeWord_other`: a word that is written is read back, and the bytes of no
  other address change;
* `Chain`: a list of cells, each linked to the next by its first word, up to a null word;
* `Chain.frame`: a chain is kept by whatever leaves the first words of its cells.
-/

namespace ByteMemory

abbrev Memory := Nat → UInt8

def writeByte (m : Memory) (a : Nat) (v : UInt8) : Memory := fun x => if x = a then v else m x

def readWord (m : Memory) (a : Nat) : Nat :=
  (m a).toNat + 256 * ((m (a + 1)).toNat + 256 * ((m (a + 2)).toNat + 256 * ((m (a + 3)).toNat
    + 256 * ((m (a + 4)).toNat + 256 * ((m (a + 5)).toNat + 256 * ((m (a + 6)).toNat
    + 256 * (m (a + 7)).toNat))))))

def writeWord (m : Memory) (a w : Nat) : Memory := fun x =>
  if a ≤ x ∧ x < a + 8 then UInt8.ofNat (w / 256 ^ (x - a)) else m x

section Word

variable {m m' : Memory} {a b w : Nat}

theorem writeWord_byte {i : Nat} (hi : i < 8) :
    (writeWord m a w (a + i)).toNat = w / 256 ^ i % 256 := by
  rw [writeWord, if_pos ⟨by omega, by omega⟩, Nat.add_sub_cancel_left]
  exact UInt8.toNat_ofNat'

theorem writeByte_other {v : UInt8} (h : b ≠ a) : writeByte m a v b = m b := if_neg h

theorem writeWord_other (h : b < a ∨ a + 8 ≤ b) : writeWord m a w b = m b := by
  refine if_neg ?_
  omega

theorem readWord_writeWord (hw : w < 2 ^ 64) : readWord (writeWord m a w) a = w := by
  have h : ∀ i < 8, (writeWord m a w (a + i)).toNat = w / 256 ^ i % 256 :=
    fun i hi => writeWord_byte hi
  have h0 := h 0 (by omega)
  rw [Nat.add_zero] at h0
  simp only [readWord, h0, h 1 (by omega), h 2 (by omega), h 3 (by omega), h 4 (by omega),
    h 5 (by omega), h 6 (by omega), h 7 (by omega)]
  omega

theorem readWord_congr (h : ∀ i < 8, m' (a + i) = m (a + i)) : readWord m' a = readWord m a := by
  have h0 := h 0 (by omega)
  rw [Nat.add_zero] at h0
  simp only [readWord, h0, h 1 (by omega), h 2 (by omega), h 3 (by omega), h 4 (by omega),
    h 5 (by omega), h 6 (by omega), h 7 (by omega)]

end Word

/-- From `p` the first words lead through the cells of the list and then to null. -/
def Chain (m : Memory) : Nat → List Nat → Prop
  | p, [] => p = 0
  | p, a :: as => p = a ∧ 0 < a ∧ Chain m (readWord m a) as

section Chain

variable {m m' : Memory} {p : Nat} {as : List Nat}

theorem Chain.frame (h : Chain m p as) (hsame : ∀ a ∈ as, ∀ i < 8, m' (a + i) = m (a + i)) :
    Chain m' p as := by
  induction as generalizing p with
  | nil => exact h
  | cons a as ih =>
      obtain ⟨hp, ha, hrest⟩ := h
      refine ⟨hp, ha, ?_⟩
      rw [readWord_congr (hsame a List.mem_cons_self)]
      exact ih hrest fun b hb => hsame b (List.mem_cons_of_mem _ hb)

/-- A new cell in front. -/
theorem Chain.cons (h : Chain m p as) {a : Nat} (ha : 0 < a) (hp : p < 2 ^ 64)
    (hapart : ∀ b ∈ as, b + 8 ≤ a ∨ a + 8 ≤ b) : Chain (writeWord m a p) a (a :: as) := by
  refine ⟨rfl, ha, ?_⟩
  rw [readWord_writeWord hp]
  refine h.frame fun b hb i hi => writeWord_other ?_
  have := hapart b hb
  omega

theorem Chain.lt (h : Chain m p as) {n : Nat} (hn : 0 < n) (has : ∀ a ∈ as, a < n) : p < n := by
  cases as with
  | nil =>
      rw [show p = 0 from h]
      exact hn
  | cons a as =>
      rw [h.1]
      exact has a List.mem_cons_self

theorem Chain.head (h : Chain m p as) (hp : p ≠ 0) :
    ∃ as', as = p :: as' ∧ Chain m (readWord m p) as' := by
  cases as with
  | nil => exact absurd h hp
  | cons a as =>
      obtain ⟨rfl, -, hrest⟩ := h
      exact ⟨as, rfl, hrest⟩

end Chain

end ByteMemory
