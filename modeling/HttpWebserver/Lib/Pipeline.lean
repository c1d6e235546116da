import Mathlib.Data.List.Basic
import Mathlib.Data.List.Flatten

/-!
# A batching pipeline

Items are pushed into the current block; a full block is queued and a new one begun; from time
to time the queue and the current block are handed over as one batch. What comes out is, batch
by batch, the part of it that `keep` lets through.

* `input`: everything pushed so far, read off the pipeline. `push` adds to it at the end,
  `roll` and `hand` keep it;
* `output_sublist`: where `keep` drops whole blocks, the output has items of the input, in
  order.
-/

structure Pipeline (α : Type*) where
  batches : List (List (List α))
  queue : List (List α)
  current : List α

namespace Pipeline

variable {α : Type*}

def empty : Pipeline α where
  batches := []
  queue := []
  current := []

def push (p : Pipeline α) (a : α) : Pipeline α := { p with current := p.current ++ [a] }

/-- The current block is queued. -/
def roll (p : Pipeline α) : Pipeline α :=
  { p with queue := p.queue ++ [p.current], current := [] }

/-- The next batch: the queue and the current block. -/
def batch (p : Pipeline α) : List (List α) := p.queue ++ [p.current]

def hand (p : Pipeline α) : Pipeline α where
  batches := p.batches ++ [p.batch]
  queue := []
  current := []

def pending (p : Pipeline α) : List α := p.queue.flatten ++ p.current

def input (p : Pipeline α) : List α := p.batches.flatten.flatten ++ p.pending

def output (keep : List (List α) → List (List α)) (batches : List (List (List α))) : List α :=
  (batches.map keep).flatten.flatten

@[simp] theorem input_empty : (empty : Pipeline α).input = [] := rfl

@[simp] theorem input_push (p : Pipeline α) (a : α) : (p.push a).input = p.input ++ [a] := by
  simp [input, pending, push]

@[simp] theorem input_roll (p : Pipeline α) : p.roll.input = p.input := by
  simp [input, pending, roll]

@[simp] theorem input_hand (p : Pipeline α) : p.hand.input = p.input := by
  simp [input, pending, hand, batch]

section Output

variable {keep : List (List α) → List (List α)}

theorem output_append (bs bs' : List (List (List α))) :
    output keep (bs ++ bs') = output keep bs ++ output keep bs' := by
  simp [output]

theorem output_singleton (b : List (List α)) : output keep [b] = (keep b).flatten := by
  simp [output]

theorem output_sublist_flatten (hkeep : ∀ b, (keep b).Sublist b) (bs : List (List (List α))) :
    (output keep bs).Sublist bs.flatten.flatten := by
  induction bs with
  | nil => exact List.Sublist.refl []
  | cons b bs ih =>
      rw [show b :: bs = [b] ++ bs from rfl, output_append, output_singleton,
        List.flatten_append, List.flatten_append, List.flatten_singleton]
      exact (hkeep b).flatten.append ih

theorem output_sublist (hkeep : ∀ b, (keep b).Sublist b) (p : Pipeline α) :
    (output keep p.batches).Sublist p.input :=
  (output_sublist_flatten hkeep p.batches).trans (List.sublist_append_left _ _)

end Output

end Pipeline
