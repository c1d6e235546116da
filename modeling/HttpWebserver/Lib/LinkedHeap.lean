import Mathlib.Data.Finmap
import Mathlib.Data.List.Nodup
import Mathlib.Order.Lattice.Nat

/-!
# Doubly linked lists in a heap

A heap is a finite map from addresses to nodes; a node has a value and two pointers, and a
pointer is an address or null. The operations are partial: reading or writing through a null
or a dangling pointer is `none`.

* `Linked h pre xs post`: the nodes `xs` stand one behind the other in `h`, the first one
  points back to `pre` and the last one on to `post`.
* `linked_append` cuts a list at any place; `setNext_last` and `setPreIf_first` change what
  is behind and before a list. Insertion and removal are a cut, two changes and a join.
* `Reach h p a`: following `next` from the pointer `p` leads to the node at `a`.
* `Frame h h' as`: the heaps have the same nodes, and agree on every node not in `as`.
-/

namespace LinkedHeap

structure Node (α : Type*) where
  value : α
  pre : Option Nat
  next : Option Nat
deriving DecidableEq, Repr

abbrev Heap (α : Type*) := Finmap fun _ : Nat => Node α

/-- An allocator answers with an address that is not in use. -/
structure Allocator (α : Type*) where
  choose : Heap α → Nat
  fresh : ∀ h, choose h ∉ h

variable {α : Type*}

/-- The allocator that takes the address behind all those in use. -/
def Allocator.behind (α : Type*) : Allocator α where
  choose h := h.keys.sup id + 1
  fresh h := fun hmem => by
    have hle : h.keys.sup id + 1 ≤ h.keys.sup id :=
      Finset.le_sup (f := id) (Finmap.mem_keys.mpr hmem)
    omega

/-! ## Operations

Reads and writes through a pointer are `none` where it is null or leads to no node. -/

def load (h : Heap α) (p : Option Nat) : Option (Node α) := p.bind fun a => h.lookup a

def update (h : Heap α) (p : Option Nat) (f : Node α → Node α) : Option (Heap α) :=
  p.bind fun a => (h.lookup a).map fun n => h.insert a (f n)

def setPre (h : Heap α) (p q : Option Nat) : Option (Heap α) :=
  update h p fun n => { n with pre := q }

def setNext (h : Heap α) (p q : Option Nat) : Option (Heap α) :=
  update h p fun n => { n with next := q }

def setValue (h : Heap α) (p : Option Nat) (v : α) : Option (Heap α) :=
  update h p fun n => { n with value := v }

/-- `setPre` through a pointer that may be null. -/
def setPreIf (h : Heap α) (p q : Option Nat) : Option (Heap α) :=
  match p with
  | none => some h
  | some a => setPre h (some a) q

def alloc (A : Allocator α) (h : Heap α) (v : α) : Nat × Heap α :=
  (A.choose h, h.insert (A.choose h) ⟨v, none, none⟩)

def free (h : Heap α) (p : Option Nat) : Option (Heap α) :=
  p.bind fun a => if a ∈ h then some (h.erase a) else none

/-! ## Frames

A write changes one node. `Frame` collects the addresses that a sequence of writes may have
changed, and says that nothing was allocated or freed. -/

/-- The heaps have the same nodes and agree outside `as`. -/
structure Frame (h h' : Heap α) (as : List Nat) : Prop where
  keys : h'.keys = h.keys
  same : ∀ a, a ∉ as → h'.lookup a = h.lookup a

section Frame

variable {h h' h'' : Heap α} {as bs : List Nat}

theorem Frame.rfl : Frame h h as := ⟨Eq.refl _, fun _ _ => Eq.refl _⟩

theorem Frame.trans (h₁ : Frame h h' as) (h₂ : Frame h' h'' bs) : Frame h h'' (as ++ bs) where
  keys := h₂.keys.trans h₁.keys
  same := fun a ha => by
    rw [List.mem_append, not_or] at ha
    rw [h₂.same a ha.2, h₁.same a ha.1]

theorem Frame.mono (h₁ : Frame h h' as) (hsub : ∀ a ∈ as, a ∈ bs) : Frame h h' bs :=
  ⟨h₁.keys, fun a ha => h₁.same a fun hmem => ha (hsub a hmem)⟩

theorem load_some (a : Nat) : load h (some a) = h.lookup a := Eq.refl _

theorem mem_of_lookup {a : Nat} {n : Node α} (hn : h.lookup a = some n) : a ∈ h :=
  Finmap.mem_of_lookup_eq_some hn

theorem update_spec {a : Nat} {n : Node α} (hn : h.lookup a = some n) (f : Node α → Node α) :
    ∃ h', update h (some a) f = some h' ∧ h'.lookup a = some (f n) ∧ Frame h h' [a] := by
  refine ⟨h.insert a (f n), ?_, Finmap.lookup_insert h, ?_, fun b hb => ?_⟩
  · show (h.lookup a).map (fun n => h.insert a (f n)) = _
    rw [hn, Option.map_some]
  · ext b
    rw [Finmap.mem_keys, Finmap.mem_keys, Finmap.mem_insert]
    refine ⟨fun hb => hb.elim (fun hba => ?_) id, .inr⟩
    rw [hba]
    exact mem_of_lookup hn
  · exact Finmap.lookup_insert_of_ne h fun hba => hb (List.mem_singleton.mpr hba)

end Frame

/-! ## Lists

`Linked h pre xs post` is a segment: from the pointer `pre` before it to the pointer `post` behind
it, the nodes of `xs` follow each other in both directions. Segments are cut and joined, so a list
operation is a change of the two or three nodes at a cut. -/

/-- The addresses of the nodes. -/
def addrs (xs : List (Nat × α)) : List Nat := xs.map Prod.fst

@[simp] theorem addrs_nil : addrs ([] : List (Nat × α)) = [] := rfl
@[simp] theorem addrs_cons (x : Nat × α) (xs : List (Nat × α)) :
    addrs (x :: xs) = x.1 :: addrs xs := rfl
@[simp] theorem addrs_append (xs ys : List (Nat × α)) :
    addrs (xs ++ ys) = addrs xs ++ addrs ys := List.map_append

theorem mem_addrs {x : Nat × α} {xs : List (Nat × α)} (hx : x ∈ xs) : x.1 ∈ addrs xs :=
  List.mem_map_of_mem hx

/-- The pointer to the first node, or `post` when there is none. -/
def firstPtr (post : Option Nat) : List (Nat × α) → Option Nat
  | [] => post
  | (a, _) :: _ => some a

/-- The pointer to the last node, or `pre` when there is none. -/
def lastPtr (pre : Option Nat) : List (Nat × α) → Option Nat
  | [] => pre
  | (a, _) :: xs => lastPtr (some a) xs

def Linked (h : Heap α) : Option Nat → List (Nat × α) → Option Nat → Prop
  | _, [], _ => True
  | pre, (a, v) :: xs, post =>
    h.lookup a = some ⟨v, pre, firstPtr post xs⟩ ∧ Linked h (some a) xs post

section Lists

variable {h h' : Heap α} {pre post q : Option Nat} {xs ys : List (Nat × α)} {a : Nat} {v : α}

@[simp] theorem firstPtr_append :
    firstPtr post (xs ++ ys) = firstPtr (firstPtr post ys) xs := by
  cases xs with
  | nil => rfl
  | cons x xs => rfl

@[simp] theorem lastPtr_append : lastPtr pre (xs ++ ys) = lastPtr (lastPtr pre xs) ys := by
  induction xs generalizing pre with
  | nil => rfl
  | cons x xs ih => exact ih

/-- The last pointer of a list that is not empty does not depend on what is before it. -/
theorem lastPtr_cons_mem (pre : Option Nat) (x : Nat × α) (xs : List (Nat × α)) :
    ∃ a, a ∈ addrs (x :: xs) ∧ lastPtr pre (x :: xs) = some a := by
  induction xs generalizing pre x with
  | nil => exact ⟨x.1, List.mem_singleton.mpr rfl, rfl⟩
  | cons y ys ih =>
      obtain ⟨a, ha, hlast⟩ := ih (some x.1) y
      exact ⟨a, List.mem_cons_of_mem _ ha, hlast⟩

/-- Cutting a list. -/
theorem linked_append :
    Linked h pre (xs ++ ys) post ↔
      Linked h pre xs (firstPtr post ys) ∧ Linked h (lastPtr pre xs) ys post := by
  induction xs generalizing pre with
  | nil => simp [Linked, lastPtr]
  | cons x xs ih =>
      simp only [List.cons_append, Linked, firstPtr_append, lastPtr, and_assoc]
      exact and_congr_right fun _ => ih

theorem Linked.congr (hl : Linked h pre xs post)
    (hsame : ∀ a ∈ addrs xs, h'.lookup a = h.lookup a) : Linked h' pre xs post := by
  induction xs generalizing pre with
  | nil => trivial
  | cons x xs ih =>
      refine ⟨?_, ih hl.2 fun a ha => hsame a (List.mem_cons_of_mem _ ha)⟩
      rw [hsame x.1 List.mem_cons_self]
      exact hl.1

/-- A change elsewhere keeps a list. -/
theorem Linked.frame (hl : Linked h pre xs post) {as : List Nat} (hf : Frame h h' as)
    (hdisj : ∀ a ∈ addrs xs, a ∉ as) : Linked h' pre xs post :=
  hl.congr fun a ha => hf.same a (hdisj a ha)

theorem Linked.mem (hl : Linked h pre xs post) (ha : a ∈ addrs xs) : a ∈ h := by
  induction xs generalizing pre with
  | nil => cases ha
  | cons x xs ih =>
      rcases List.mem_cons.mp ha with rfl | ha
      · exact mem_of_lookup hl.1
      · exact ih hl.2 ha

/-- Changing the pointer behind the last node. -/
theorem setNext_last (hl : Linked h pre xs post) (hne : xs ≠ []) (hnd : (addrs xs).Nodup)
    (q : Option Nat) :
    ∃ h', setNext h (lastPtr pre xs) q = some h' ∧ Linked h' pre xs q ∧
      Frame h h' (addrs xs) := by
  obtain ⟨ys, ⟨a, v⟩, rfl⟩ : ∃ ys x, xs = ys ++ [x] :=
    ⟨_, _, (List.dropLast_append_getLast hne).symm⟩
  obtain ⟨hys, ha, -⟩ := linked_append.mp hl
  obtain ⟨h', hh', hlook, hframe⟩ := update_spec ha fun n => { n with next := q }
  refine ⟨h', ?_, ?_, hframe.mono fun b hb => ?_⟩
  · rw [lastPtr_append]
    exact hh'
  · rw [addrs_append, List.nodup_append] at hnd
    refine linked_append.mpr ⟨hys.frame hframe fun b hb hba => ?_, hlook, trivial⟩
    exact hnd.2.2 b hb b hba rfl
  · rw [addrs_append]
    exact List.mem_append_right _ hb

/-- Changing the pointer before the first node, if there is one. -/
theorem setPreIf_first (hl : Linked h pre xs none) (hnd : (addrs xs).Nodup) (q : Option Nat) :
    ∃ h', setPreIf h (firstPtr none xs) q = some h' ∧ Linked h' q xs none ∧
      Frame h h' (addrs xs) := by
  cases xs with
  | nil => exact ⟨h, rfl, trivial, Frame.rfl⟩
  | cons x xs =>
      obtain ⟨hx, hxs⟩ := hl
      obtain ⟨h', hh', hlook, hframe⟩ := update_spec hx fun n => { n with pre := q }
      refine ⟨h', hh', ⟨hlook, hxs.frame hframe fun b hb hba => ?_⟩, hframe.mono fun b hb => ?_⟩
      · rw [List.mem_singleton] at hba
        rw [addrs_cons, List.nodup_cons] at hnd
        exact hnd.1 (hba ▸ hb)
      · rw [List.mem_singleton] at hb
        rw [hb]
        exact List.mem_cons_self

theorem firstPtr_of_ne_nil (p q : Option Nat) (hne : xs ≠ []) :
    firstPtr p xs = firstPtr q xs := by
  cases xs with
  | nil => exact absurd rfl hne
  | cons x xs => rfl

/-- A new node is not in a list of old ones. -/
theorem Linked.insert_fresh (hl : Linked h pre xs post) (ha : a ∉ h) (n : Node α) :
    Linked (h.insert a n) pre xs post :=
  hl.congr fun _ hb => Finmap.lookup_insert_of_ne h fun hba => ha (hba ▸ hl.mem hb)

theorem Linked.erase_other (hl : Linked h pre xs post) (ha : a ∉ addrs xs) :
    Linked (h.erase a) pre xs post :=
  hl.congr fun _ hb => Finmap.lookup_erase_ne fun hba => ha (hba ▸ hb)

/-- Changing the value of one node. -/
theorem setValue_mid {w : α} (hl : Linked h pre (xs ++ (a, v) :: ys) post)
    (hnd : (addrs (xs ++ (a, v) :: ys)).Nodup) :
    ∃ h', setValue h (some a) w = some h' ∧ Linked h' pre (xs ++ (a, w) :: ys) post ∧
      Frame h h' [a] := by
  obtain ⟨hxs, ha, hys⟩ := linked_append.mp hl
  obtain ⟨h', hh', hlook, hframe⟩ := update_spec ha fun n => { n with value := w }
  rw [addrs_append, List.nodup_append, addrs_cons, List.nodup_cons] at hnd
  refine ⟨h', hh', linked_append.mpr ⟨hxs.frame hframe fun b hb hba => ?_, hlook,
    hys.frame hframe fun b hb hba => ?_⟩, hframe⟩
  · exact hnd.2.2 b hb a List.mem_cons_self (List.mem_singleton.mp hba)
  · exact hnd.2.1.1 (List.mem_singleton.mp hba ▸ hb)

/-- Taking a node out of a list: its two neighbours are joined, its own pointers stay. -/
theorem unlink_spec (hl : Linked h pre (xs ++ (a, v) :: ys) none) (hne : xs ≠ [])
    (hnd : (addrs (xs ++ (a, v) :: ys)).Nodup) :
    ∃ h₁ h₂, h.lookup a = some ⟨v, lastPtr pre xs, firstPtr none ys⟩ ∧
      setNext h (lastPtr pre xs) (firstPtr none ys) = some h₁ ∧
      h₁.lookup a = some ⟨v, lastPtr pre xs, firstPtr none ys⟩ ∧
      setPreIf h₁ (firstPtr none ys) (lastPtr pre xs) = some h₂ ∧
      h₂.lookup a = some ⟨v, lastPtr pre xs, firstPtr none ys⟩ ∧
      Linked h₂ pre (xs ++ ys) none ∧ Frame h h₂ (addrs xs ++ addrs ys) := by
  obtain ⟨hxs, ha, hys⟩ := linked_append.mp hl
  rw [addrs_append, List.nodup_append, addrs_cons, List.nodup_cons] at hnd
  obtain ⟨hndx, ⟨hay, hndy⟩, hdisj⟩ := hnd
  have hax : a ∉ addrs xs := fun hmem => hdisj a hmem a List.mem_cons_self rfl
  obtain ⟨h₁, hh₁, hxs₁, hf₁⟩ := setNext_last hxs hne hndx (firstPtr none ys)
  have hys₁ : Linked h₁ (some a) ys none :=
    hys.frame hf₁ fun b hb hbx => hdisj b hbx b (List.mem_cons_of_mem _ hb) rfl
  obtain ⟨h₂, hh₂, hys₂, hf₂⟩ := setPreIf_first hys₁ hndy (lastPtr pre xs)
  have hxs₂ : Linked h₂ pre xs (firstPtr none ys) :=
    hxs₁.frame hf₂ fun b hb hby => hdisj b hb b (List.mem_cons_of_mem _ hby) rfl
  refine ⟨h₁, h₂, ha, hh₁, ?_, hh₂, ?_, linked_append.mpr ⟨hxs₂, hys₂⟩, hf₁.trans hf₂⟩
  · rw [hf₁.same a hax]
    exact ha
  · rw [hf₂.same a hay, hf₁.same a hax]
    exact ha

/-- The first half of putting a node between two lists: it points on to the second one, which
points back to it. -/
theorem link_next (hl : Linked h pre (xs ++ ys) none) (hnd : (addrs (xs ++ ys)).Nodup)
    (ha : a ∉ addrs (xs ++ ys)) {n : Node α} (hn : h.lookup a = some n) :
    ∃ h₁ h₂, setPreIf h (firstPtr none ys) (some a) = some h₁ ∧
      setNext h₁ (some a) (firstPtr none ys) = some h₂ ∧
      Linked h₂ pre xs (firstPtr none ys) ∧ Linked h₂ (some a) ys none ∧
      h₂.lookup a = some ⟨n.value, n.pre, firstPtr none ys⟩ ∧
      Frame h h₁ (addrs ys) ∧ Frame h h₂ (addrs ys ++ [a]) := by
  obtain ⟨hxs, hys⟩ := linked_append.mp hl
  rw [addrs_append, List.mem_append, not_or] at ha
  rw [addrs_append, List.nodup_append] at hnd
  obtain ⟨hndx, hndy, hdisj⟩ := hnd
  obtain ⟨h₁, hh₁, hys₁, hf₁⟩ := setPreIf_first hys hndy (some a)
  have hn₁ : h₁.lookup a = some n := by
    rw [hf₁.same a ha.2]
    exact hn
  obtain ⟨h₂, hh₂, hn₂, hf₂⟩ := update_spec hn₁ fun n => { n with next := firstPtr none ys }
  have hf := hf₁.trans hf₂
  refine ⟨h₁, h₂, hh₁, hh₂, hxs.frame hf fun b hb hby => ?_, hys₁.frame hf₂ fun b hb hba => ?_,
    hn₂, hf₁, hf⟩
  · rcases List.mem_append.mp hby with hby | hba
    · exact hdisj b hb b hby rfl
    · exact ha.1 (List.mem_singleton.mp hba ▸ hb)
  · exact ha.2 (List.mem_singleton.mp hba ▸ hb)

/-- A new node is put between two lists: both halves. -/
theorem insert_behind (hl : Linked h pre (xs ++ ys) none) (hne : xs ≠ [])
    (hnd : (addrs (xs ++ ys)).Nodup) (ha : a ∉ h) (v : α) :
    ∃ h₁ h₂ h₃ h₄,
      setPreIf (h.insert a ⟨v, none, none⟩) (firstPtr none ys) (some a) = some h₁ ∧
      setNext h₁ (some a) (firstPtr none ys) = some h₂ ∧
      setNext h₂ (lastPtr pre xs) (some a) = some h₃ ∧
      setPre h₃ (some a) (lastPtr pre xs) = some h₄ ∧
      Linked h₄ pre (xs ++ (a, v) :: ys) none ∧ ∀ b, b ∈ h₄ ↔ b = a ∨ b ∈ h := by
  have hnot : a ∉ addrs (xs ++ ys) := fun hmem => ha (hl.mem hmem)
  obtain ⟨h₁, h₂, hh₁, hh₂, hxs₂, hys₂, ha₂, -, hf₂⟩ :=
    link_next (hl.insert_fresh ha ⟨v, none, none⟩) hnd hnot (Finmap.lookup_insert _)
  rw [addrs_append, List.nodup_append] at hnd
  rw [addrs_append, List.mem_append, not_or] at hnot
  -- the last node of the first list points on to the new one, which points back
  obtain ⟨h₃, hh₃, hxs₃, hf₃⟩ := setNext_last hxs₂ hne hnd.1 (some a)
  have hys₃ : Linked h₃ (some a) ys none :=
    hys₂.frame hf₃ fun b hb hbx => hnd.2.2 b hbx b hb rfl
  have ha₃ := (hf₃.same a hnot.1).trans ha₂
  obtain ⟨h₄, hh₄, ha₄, hf₄⟩ := update_spec ha₃ fun n => { n with pre := lastPtr pre xs }
  refine ⟨h₁, h₂, h₃, h₄, hh₁, hh₂, hh₃, hh₄, linked_append.mpr ⟨?_, ha₄, ?_⟩, fun b => ?_⟩
  · exact hxs₃.frame hf₄ fun b hb hba => hnot.1 (List.mem_singleton.mp hba ▸ hb)
  · exact hys₃.frame hf₄ fun b hb hba => hnot.2 (List.mem_singleton.mp hba ▸ hb)
  · rw [← Finmap.mem_keys, hf₄.keys, hf₃.keys, hf₂.keys, Finmap.mem_keys, Finmap.mem_insert]

/-- Distinct nodes of a list are nodes of the heap. -/
theorem Linked.length_le (hl : Linked h pre xs post) (hnd : (addrs xs).Nodup) :
    xs.length ≤ h.keys.card := by
  rw [← List.length_map Prod.fst]
  show (addrs xs).length ≤ _
  rw [← List.toFinset_card_of_nodup hnd]
  refine Finset.card_le_card fun b hb => ?_
  rw [List.mem_toFinset] at hb
  exact Finmap.mem_keys.mpr (hl.mem hb)

/-- A node of the heap to which the pointer leads, along `next`. -/
inductive Reach (h : Heap α) : Option Nat → Nat → Prop where
  | here {a : Nat} (ha : a ∈ h) : Reach h (some a) a
  | next {a b : Nat} {n : Node α} (hn : h.lookup a = some n) (hb : Reach h n.next b) :
    Reach h (some a) b

/-- The nodes of a list are what its first pointer leads to. -/
theorem Linked.reach_iff (hl : Linked h pre xs none) :
    Reach h (firstPtr none xs) a ↔ a ∈ addrs xs := by
  induction xs generalizing pre with
  | nil =>
      constructor
      · intro hreach
        cases hreach
      · intro ha
        cases ha
  | cons x xs ih =>
      obtain ⟨hx, hxs⟩ := hl
      rw [addrs_cons, List.mem_cons, ← ih hxs]
      constructor
      · intro hreach
        cases hreach with
        | here _ => exact .inl rfl
        | next hn hb =>
            cases hn.symm.trans hx
            exact .inr hb
      · rintro (rfl | hreach)
        · exact .here (mem_of_lookup hx)
        · exact .next hx hreach

end Lists

end LinkedHeap
