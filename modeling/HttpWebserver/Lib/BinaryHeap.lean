import Mathlib.Order.Lattice
import Mathlib.Order.Nat

/-!
# Binary heaps

A binary heap in an array, with the least key at the front. The keys are given by a function, so
they need not be part of the elements. `push` and `pop` are those of a `std::priority_queue`:
`push` sifts the new element up; `pop` moves the last element to the front, sifts it down to a leaf
along the smaller children and then up again.

* `Ordered`: no element has a smaller key than its parent; `Ordered.front_le`: then the front has
  the least key;
* `UpReady`, `DownReady`: the order around the one place at which a sift is;
* `push_ordered`, `pop_ordered`: both keep the order;
* `push_perm`, `pop_perm`: and the elements, whatever the order.
-/

namespace BinaryHeap

variable {α κ : Type*}

/-- The place above `i`; the front is above itself. -/
def parent (i : Nat) : Nat := (i - 1) / 2

section Operations

variable [LinearOrder κ] (key : α → κ)

/-- The element at `i` moves up while its key is smaller than its parent's. -/
def siftUp : Nat → Array α → Nat → Array α
  | 0, a, _ => a
  | fuel + 1, a, i =>
    match a[parent i]?, a[i]? with
    | some x, some y =>
      if key y < key x then siftUp fuel (a.swapIfInBounds (parent i) i) (parent i) else a
    | _, _ => a

/-- The element at `i` changes places with the smaller one of its children until it has none; the
result is the array and where the element is then. -/
def siftDown : Nat → Array α → Nat → Array α × Nat
  | 0, a, i => (a, i)
  | fuel + 1, a, i =>
    match a[2 * i + 1]?, a[2 * i + 2]? with
    | none, _ => (a, i)
    | some _, none => siftDown fuel (a.swapIfInBounds i (2 * i + 1)) (2 * i + 1)
    | some l, some r =>
      let c := if key l < key r then 2 * i + 1 else 2 * i + 2
      siftDown fuel (a.swapIfInBounds i c) c

def push (a : Array α) (x : α) : Array α := siftUp key a.size (a.push x) a.size

def pop (a : Array α) : Array α :=
  let (b, i) := siftDown key a.size (a.swapIfInBounds 0 (a.size - 1)).pop 0
  siftUp key i b i

end Operations

/-! ## The order

A sift keeps the order everywhere but at one place. `UpReady` and `DownReady` say which pairs may
be out of order before a sift in either direction. Both also ask that the element above the place
and those below it are in order with each other, so that an exchange breaks nothing new. -/

section Order

variable [LinearOrder κ] {key : α → κ} {a : Array α} {i j p c : Nat}

/-- The elements at two places, where there are any, are in order. -/
def InOrder (key : α → κ) (a : Array α) (p c : Nat) : Prop :=
  ∀ x y, a[p]? = some x → a[c]? = some y → key x ≤ key y

def Ordered (key : α → κ) (a : Array α) : Prop := ∀ i, InOrder key a (parent i) i

/-- Only the pair of `i` and its parent may be out of order. -/
structure UpReady (key : α → κ) (a : Array α) (i : Nat) : Prop where
  off : ∀ j, j ≠ i → InOrder key a (parent j) j
  skip : i ≠ 0 → ∀ j, parent j = i → InOrder key a (parent i) j

/-- Only the pairs that `i` is in may be out of order. -/
structure DownReady (key : α → κ) (a : Array α) (i : Nat) : Prop where
  off : ∀ j, j ≠ i → parent j ≠ i → InOrder key a (parent j) j
  skip : i ≠ 0 → ∀ j, parent j = i → InOrder key a (parent i) j

theorem parent_lt (h : i ≠ 0) : parent i < i := by
  unfold parent
  omega

theorem parent_eq_iff (h : j ≠ 0) : parent j = i ↔ j = 2 * i + 1 ∨ j = 2 * i + 2 := by
  unfold parent
  omega

theorem InOrder.refl (key : α → κ) (a : Array α) (i : Nat) : InOrder key a i i := by
  intro x y hx hy
  cases hx.symm.trans hy
  exact le_rfl

/-- The front has the least key. -/
theorem Ordered.front_le (h : Ordered key a) {x y : α} (hx : a[0]? = some x) (hy : y ∈ a) :
    key x ≤ key y := by
  obtain ⟨i, hi, rfl⟩ := Array.mem_iff_getElem.mp hy
  induction i using Nat.strongRecOn with
  | ind i ih =>
    rcases eq_or_ne i 0 with rfl | hne
    · exact (InOrder.refl key a 0) x _ hx (Array.getElem?_eq_getElem hi)
    · have hp := parent_lt hne
      have hup := ih (parent i) hp (hp.trans hi) (Array.getElem_mem _)
      exact hup.trans (h i _ _ (Array.getElem?_eq_getElem _) (Array.getElem?_eq_getElem hi))

theorem Ordered.congr {key' : α → κ} (h : Ordered key a) (hkey : ∀ x ∈ a, key' x = key x) :
    Ordered key' a := by
  intro i x y hx hy
  rw [hkey x (Array.mem_of_getElem? hx), hkey y (Array.mem_of_getElem? hy)]
  exact h i x y hx hy

/-- What stands where after an exchange. -/
theorem getElem?_exchange (hi : i < a.size) (hj : j < a.size) (k : Nat) :
    (a.swapIfInBounds i j)[k]? = if k = j then a[i]? else if k = i then a[j]? else a[k]? := by
  rw [Array.swapIfInBounds_def, dif_pos hi, dif_pos hj, Array.getElem?_swap,
    Array.getElem?_eq_getElem hi, Array.getElem?_eq_getElem hj]
  simp only [eq_comm (b := k)]

theorem exchange_perm (a : Array α) (i j : Nat) : (a.swapIfInBounds i j).Perm a := by
  rw [Array.swapIfInBounds_def]
  split
  · split
    · exact Array.swap_perm _ _
    · exact .refl a
  · exact .refl a

/-! ## Sifting up

One exchange moves the place at which the order may fail one level up, and the sift stops where it
does not fail. -/

theorem UpReady.ordered (h : UpReady key a i) (hi : InOrder key a (parent i) i) :
    Ordered key a := by
  intro j
  rcases eq_or_ne j i with rfl | hne
  · exact hi
  · exact h.off j hne

/-- The element has changed places with its parent. -/
theorem UpReady.exchange (h : UpReady key a i) {x y : α} (hx : a[parent i]? = some x)
    (hy : a[i]? = some y) (hlt : key y < key x) (hne : i ≠ 0) :
    UpReady key (a.swapIfInBounds (parent i) i) (parent i) := by
  have hlt' := parent_lt hne
  have hi : i < a.size := (Array.getElem?_eq_some_iff.mp hy).1
  have hget := getElem?_exchange (hlt'.trans hi) hi
  rw [hx, hy] at hget
  have hsame : ∀ k, k ≠ i → k ≠ parent i → (a.swapIfInBounds (parent i) i)[k]? = a[k]? :=
    fun k hki hkp => by rw [hget, if_neg hki, if_neg hkp]
  have hat : (a.swapIfInBounds (parent i) i)[i]? = some x := by rw [hget, if_pos rfl]
  have hatp : (a.swapIfInBounds (parent i) i)[parent i]? = some y := by
    rw [hget, if_neg hlt'.ne, if_pos rfl]
  constructor
  · -- every pair but the one above the parent is in order
    intro j hj u v hu hv
    rcases eq_or_ne j i with rfl | hji
    · -- the pair that was out of order
      cases hu.symm.trans hatp
      cases hv.symm.trans hat
      exact hlt.le
    · rw [hsame j hji hj] at hv
      rcases eq_or_ne (parent j) i with hpi | hpi
      · rw [hpi, hat] at hu
        cases hu
        exact h.skip hne j hpi x v hx hv
      · rcases eq_or_ne (parent j) (parent i) with hpp | hpp
        · -- the sibling
          rw [hpp, hatp] at hu
          cases hu
          exact hlt.le.trans (h.off j hji x v (hpp ▸ hx) hv)
        · rw [hsame _ hpi hpp] at hu
          exact h.off j hji u v hu hv
  · -- and the new element's children are above its new parent
    intro hp j hj u v hu hv
    have hlt'' := parent_lt hp
    rw [hsame _ (hlt''.trans hlt').ne hlt''.ne] at hu
    have hup : key u ≤ key x := h.off (parent i) hlt'.ne u x hu hx
    rcases eq_or_ne j i with rfl | hji
    · cases hv.symm.trans hat
      exact hup
    · have hjp : j ≠ parent i := by
        rintro rfl
        exact hlt''.ne hj
      rw [hsame j hji hjp] at hv
      exact hup.trans (h.off j hji x v (hj.symm ▸ hx) hv)

theorem siftUp_ordered {fuel : Nat} (h : UpReady key a i) (hi : i < a.size) (hfuel : i ≤ fuel) :
    Ordered key (siftUp key fuel a i) := by
  induction fuel generalizing a i with
  | zero =>
    have hzero : i = 0 := Nat.le_zero.mp hfuel
    subst hzero
    exact h.ordered (InOrder.refl key a 0)
  | succ fuel ih =>
    unfold siftUp
    split
    · next x y hx hy =>
      split
      · next hlt =>
        have hne : i ≠ 0 := by
          rintro rfl
          cases hx.symm.trans hy
          exact lt_irrefl _ hlt
        have hp := parent_lt hne
        exact ih (h.exchange hx hy hlt hne) (by rw [Array.size_swapIfInBounds]; omega) (by omega)
      · next hle =>
        apply h.ordered
        intro u v hu hv
        cases hu.symm.trans hx
        cases hv.symm.trans hy
        exact not_lt.mp hle
    · next hnone =>
      exact h.ordered fun u v hu hv => absurd hv (hnone u v hu)

theorem siftUp_perm (fuel : Nat) (a : Array α) (i : Nat) : (siftUp key fuel a i).Perm a := by
  induction fuel generalizing a i with
  | zero => exact .refl a
  | succ fuel ih =>
    unfold siftUp
    split
    · split
      · exact (ih _ _).trans (exchange_perm a _ _)
      · exact .refl a
    · exact .refl a

/-! ## Sifting down

The same downwards, where the smaller child has to be chosen. The sift stops at a leaf without
comparing the element with what it moved down past, so what it leaves is `UpReady` at that leaf
and a sift up follows. -/

/-- The element has changed places with the smaller one of its children. -/
theorem DownReady.exchange (h : DownReady key a i) (hc : c < a.size) (hne : c ≠ 0)
    (hparent : parent c = i) (hleast : ∀ j, j ≠ 0 → parent j = i → InOrder key a c j) :
    DownReady key (a.swapIfInBounds i c) c := by
  have hlt : i < c := hparent ▸ parent_lt hne
  have hget := getElem?_exchange (hlt.trans hc) hc
  have hsame : ∀ k, k ≠ i → k ≠ c → (a.swapIfInBounds i c)[k]? = a[k]? :=
    fun k hki hkc => by rw [hget, if_neg hkc, if_neg hki]
  have hat : (a.swapIfInBounds i c)[i]? = a[c]? := by rw [hget, if_neg hlt.ne, if_pos rfl]
  constructor
  · intro j hj hjp u v hu hv
    rcases eq_or_ne j i with rfl | hji
    · rcases eq_or_ne j 0 with rfl | hzero
      · exact InOrder.refl key _ 0 u v hu hv
      · -- the element that has moved up and its new parent
        have hup := parent_lt hzero
        rw [hsame _ hup.ne (hup.trans hlt).ne] at hu
        rw [hat] at hv
        exact h.skip hzero c hparent u v hu hv
    · rw [hsame j hji hj] at hv
      rcases eq_or_ne (parent j) i with hpi | hpi
      · have hzero : j ≠ 0 := by
          rintro rfl
          exact hji hpi
        rw [hpi, hat] at hu
        -- the least child stands above its siblings now
        exact hleast j hzero hpi u v hu hv
      · rw [hsame _ hpi hjp] at hu
        exact h.off j hji hpi u v hu hv
  · intro _ j hj u v hu hv
    have hzero : j ≠ 0 := by
      rintro rfl
      exact hne hj.symm
    have hcj : c < j := hj ▸ parent_lt hzero
    rw [hparent, hat] at hu
    rw [hsame j (hlt.trans hcj).ne' hcj.ne'] at hv
    exact h.off j (hlt.trans hcj).ne' (hj ▸ hlt.ne') u v (hj.symm ▸ hu) hv

/-- Without children there is nothing left to put in order below. -/
theorem DownReady.upReady (h : DownReady key a i) (hleaf : a.size ≤ 2 * i + 1) :
    UpReady key a i := by
  refine ⟨fun j hj => ?_, h.skip⟩
  by_cases hp : parent j = i
  · intro u v _ hv
    have hsize := (Array.getElem?_eq_some_iff.mp hv).1
    have hzero : j ≠ 0 := by
      rintro rfl
      exact hj hp
    have hchild := (parent_eq_iff hzero).mp hp
    omega
  · exact h.off j hj hp

theorem siftDown_perm (fuel : Nat) (a : Array α) (i : Nat) :
    (siftDown key fuel a i).1.Perm a := by
  induction fuel generalizing a i with
  | zero => exact .refl a
  | succ fuel ih =>
    unfold siftDown
    split
    · exact .refl a
    · exact (ih _ _).trans (exchange_perm a _ _)
    · exact (ih _ _).trans (exchange_perm a _ _)

theorem siftDown_upReady {fuel : Nat} (h : DownReady key a i) (hi : i < a.size)
    (hfuel : a.size ≤ i + fuel) :
    UpReady key (siftDown key fuel a i).1 (siftDown key fuel a i).2 ∧
      (siftDown key fuel a i).2 < a.size := by
  induction fuel generalizing a i with
  | zero => omega
  | succ fuel ih =>
    have hstep : ∀ c, parent c = i → c ≠ 0 → c < a.size →
        (∀ j, j ≠ 0 → parent j = i → InOrder key a c j) →
        UpReady key (siftDown key fuel (a.swapIfInBounds i c) c).1
            (siftDown key fuel (a.swapIfInBounds i c) c).2 ∧
          (siftDown key fuel (a.swapIfInBounds i c) c).2 < a.size := by
      intro c hparent hne hc hleast
      have hlt : i < c := hparent ▸ parent_lt hne
      have hready := ih (h.exchange hc hne hparent hleast)
        (by rw [Array.size_swapIfInBounds]; exact hc) (by rw [Array.size_swapIfInBounds]; omega)
      rw [Array.size_swapIfInBounds] at hready
      exact hready
    have hleft : parent (2 * i + 1) = i := (parent_eq_iff (by omega)).mpr (.inl rfl)
    have hright : parent (2 * i + 2) = i := (parent_eq_iff (by omega)).mpr (.inr rfl)
    unfold siftDown
    split
    · next hnone =>
      exact ⟨h.upReady (Array.getElem?_eq_none_iff.mp hnone), hi⟩
    · next l hl hnone =>
      have hsize := Array.getElem?_eq_none_iff.mp hnone
      apply hstep _ hleft (by omega) (Array.getElem?_eq_some_iff.mp hl).1
      -- the only child
      intro j hzero hj u v hu hv
      have hin := (Array.getElem?_eq_some_iff.mp hv).1
      have hchild := (parent_eq_iff hzero).mp hj
      have hj' : j = 2 * i + 1 := by omega
      subst hj'
      exact InOrder.refl key a _ u v hu hv
    · next l r hl hr =>
      have hboth : ∀ j, j ≠ 0 → parent j = i → ∀ v, a[j]? = some v → v = l ∨ v = r := by
        intro j hzero hj v hv
        rcases (parent_eq_iff hzero).mp hj with rfl | rfl
        · exact .inl (Option.some.inj (hv.symm.trans hl))
        · exact .inr (Option.some.inj (hv.symm.trans hr))
      split
      · next hlt =>
        apply hstep _ hleft (by omega) (Array.getElem?_eq_some_iff.mp hl).1
        intro j hzero hj u v hu hv
        cases hu.symm.trans hl
        rcases hboth j hzero hj v hv with rfl | rfl
        · exact le_rfl
        · exact hlt.le
      · next hge =>
        apply hstep _ hright (by omega) (Array.getElem?_eq_some_iff.mp hr).1
        intro j hzero hj u v hu hv
        cases hu.symm.trans hr
        rcases hboth j hzero hj v hv with rfl | rfl
        · exact not_lt.mp hge
        · exact le_rfl

/-! ## The operations of the queue

Each keeps the elements (a permutation of the array) and the order. -/

theorem push_perm (key : α → κ) (a : Array α) (x : α) : (push key a x).Perm (a.push x) :=
  siftUp_perm _ _ _

theorem push_ordered (h : Ordered key a) (x : α) : Ordered key (push key a x) := by
  refine siftUp_ordered ⟨fun j hj u v hu hv => ?_, fun hne j hj u v hu hv => ?_⟩
    (by rw [Array.size_push]; omega) le_rfl
  · rw [Array.getElem?_push, if_neg hj] at hv
    have hin := (Array.getElem?_eq_some_iff.mp hv).1
    have hp : parent j ≠ a.size := by
      unfold parent
      omega
    rw [Array.getElem?_push, if_neg hp] at hu
    exact h j u v hu hv
  · -- the last place has no child
    have hin := (Array.getElem?_eq_some_iff.mp hv).1
    rw [Array.size_push] at hin
    have hzero : j ≠ 0 := by
      rintro rfl
      exact hne hj.symm
    have hlt := parent_lt hzero
    omega

/-- The array after the front has been taken out, before the sifts. -/
theorem popped_push {x : α} (hx : a[0]? = some x) :
    (a.swapIfInBounds 0 (a.size - 1)).pop.push x = a.swapIfInBounds 0 (a.size - 1) := by
  have hsize := (Array.getElem?_eq_some_iff.mp hx).1
  have hlast := getElem?_exchange (a := a) hsize (show a.size - 1 < a.size by omega) (a.size - 1)
  rw [if_pos rfl, hx] at hlast
  apply Array.ext_getElem?
  intro k
  rw [Array.getElem?_push, Array.getElem?_pop, Array.size_pop, Array.size_swapIfInBounds]
  split
  · next hk => rw [hk, hlast]
  · next hk =>
    split
    · rfl
    · rw [eq_comm, Array.getElem?_eq_none_iff, Array.size_swapIfInBounds]
      omega

theorem pop_perm (key : α → κ) {x : α} (hx : a[0]? = some x) : ((pop key a).push x).Perm a := by
  have hsift : (pop key a).Perm (a.swapIfInBounds 0 (a.size - 1)).pop :=
    (siftUp_perm _ _ _).trans (siftDown_perm _ _ _)
  have hpush := hsift.push x
  rw [popped_push hx] at hpush
  exact hpush.trans (exchange_perm a _ _)

theorem pop_ordered (h : Ordered key a) {x : α} (hx : a[0]? = some x) :
    Ordered key (pop key a) := by
  have hsize := (Array.getElem?_eq_some_iff.mp hx).1
  have hget := getElem?_exchange (a := a) hsize (show a.size - 1 < a.size by omega)
  have hpop : (a.swapIfInBounds 0 (a.size - 1)).pop.size = a.size - 1 := by
    rw [Array.size_pop, Array.size_swapIfInBounds]
  have hsame : ∀ k v, k ≠ 0 → (a.swapIfInBounds 0 (a.size - 1)).pop[k]? = some v →
      a[k]? = some v := by
    intro k v hk hv
    have hin := (Array.getElem?_eq_some_iff.mp hv).1
    rw [Array.getElem?_pop, Array.size_swapIfInBounds, if_pos (by omega), hget,
      if_neg (by omega), if_neg hk] at hv
    exact hv
  -- only the new first element may be out of order
  have hready : DownReady key (a.swapIfInBounds 0 (a.size - 1)).pop 0 := by
    refine ⟨fun j hj hp u v hu hv => ?_, fun hne => absurd rfl hne⟩
    exact h j u v (hsame _ u hp hu) (hsame j v hj hv)
  rcases Nat.eq_zero_or_pos (a.size - 1) with hzero | hpos
  · -- nothing is left
    intro i u v hu hv
    have hin := (Array.getElem?_eq_some_iff.mp hv).1
    have hpopped : ((pop key a).push x).size = a.size := (pop_perm key hx).size_eq
    rw [Array.size_push] at hpopped
    omega
  · have hfuel : (a.swapIfInBounds 0 (a.size - 1)).pop.size ≤ 0 + a.size := by omega
    obtain ⟨hup, hlt⟩ := siftDown_upReady hready (by omega) hfuel
    refine siftUp_ordered hup ?_ le_rfl
    rw [(siftDown_perm _ _ _).size_eq]
    exact hlt

end Order

end BinaryHeap
