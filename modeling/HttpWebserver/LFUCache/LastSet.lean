import HttpWebserver.LFUCache.Labels

/-!
# LFUCache — what a hit delivers

`set` of a key that is present leaves the old node in its list, where a later eviction finds it and
takes the entries of the key out of both maps. A hit never leads to such a node.

* `Recorded`: the entry of a key is what the calls on this key alone say, the value of the last
  `set` and a label raised by each `get` since;
* `set_recorded`, `get_recorded`: a call keeps it, for its own key and for the others;
* **`hit_delivers_last`** — after any calls, evictions among them, a hit delivers the value that was
  set last for its key.
-/

namespace HttpWebserver.Lfu

open LinkedHeap Machine

def Op.lastSet (k : Str) (v : Option Str) : Op → Option Str
  | .get _ _ => v
  | .set key val => if key = k then some val else v

/-- The value of the last `set` of a key. -/
def lastSet (k : Str) (rs : List Call) : Option Str := rs.foldl (fun v r => r.op.lastSet k v) none

/-- After the calls `rs`, an entry is what the calls on its key say. -/
def Recorded (inc : Int → Int) (rs : List Call) (c : LFUCache) : Prop :=
  ∀ k v f, c.entry k = some (v, f) → lastSet k rs = some v ∧ f = inc^[uses k rs + 1] 0

@[simp] theorem lastSet_concat (k : Str) (rs : List Call) (r : Call) :
    lastSet k (rs ++ [r]) = r.op.lastSet k (lastSet k rs) := by
  rw [lastSet, List.foldl_concat]
  rfl

section Runs

variable {inc : Int → Int} {c c' c₀ : LFUCache} {hd : Group} {gs : List Group} {rs : List Call}
  {keys : Allocator Key} {freqs : Allocator KeyList} {key val : Str}

/-- A `set` writes the entry of its key, with the first label, and may take others away. -/
theorem set_recorded (h : Grouped c hd gs) (hfreq : hd.freq = 0) (hcap : c.capacity ≠ 0)
    (hrec : Recorded inc rs c) (hset : c.set ⟨keys, freqs, inc⟩ key val = some c') :
    Recorded inc (rs ++ [⟨keys, freqs, .set key val⟩]) c' := by
  obtain ⟨c₁, gs', hset₁, -, hentry, hother, -⟩ := set_grouped ⟨keys, freqs, inc⟩ h hcap key val
  cases hset.symm.trans hset₁
  intro k v f he
  rw [lastSet_concat, uses_concat]
  by_cases hk : key = k
  · subst hk
    cases hentry.symm.trans he
    simp only [Op.lastSet, Op.uses, if_pos]
    refine ⟨trivial, ?_⟩
    rw [hfreq]
    rfl
  · simp only [Op.lastSet, Op.uses, if_neg hk]
    rw [hother k (Ne.symm hk) (mem_of_entry he)] at he
    exact hrec k v f he

/-- A hit raises the label of its key and leaves the value. -/
theorem get_recorded (h : Grouped c hd gs) (hcap : c.capacity ≠ 0) (hrec : Recorded inc rs c)
    {found : Bool} {val' : Str}
    (hget : c.get ⟨keys, freqs, inc⟩ key val = some (c', found, val')) :
    Recorded inc (rs ++ [⟨keys, freqs, .get key val⟩]) c' := by
  intro k v f he
  rw [lastSet_concat, uses_concat]
  show lastSet k rs = some v ∧ f = inc^[(if key = k then uses k rs + 1 else uses k rs) + 1] 0
  by_cases hmem : key ∈ c.kmap
  · obtain ⟨c₁, v₁, L, g, R, n, R', nodes, nodes', -, hbehind, hget₁, -, hkmap, hbefore, hafter,
      hother, -⟩ := get_grouped ⟨keys, freqs, inc⟩ h hcap hmem val
    cases hget.symm.trans hget₁
    by_cases hk : key = k
    · subst hk
      cases hafter.symm.trans he
      obtain ⟨hlast, hlabel⟩ := hrec key v g.freq hbefore
      refine ⟨hlast, ?_⟩
      rw [if_pos rfl, Function.iterate_succ_apply', ← hlabel]
      exact hbehind.1
    · have hres : k ∈ c.kmap := by
        rw [← hkmap]
        exact mem_of_entry he
      rw [hother k (Ne.symm hk) hres] at he
      rw [if_neg hk]
      exact hrec k v f he
  · have hmiss : c.fmap.lookup key = none := Finmap.lookup_eq_none.mpr (h.mem_fmap.not.mpr hmem)
    cases hget.symm.trans (get_miss ⟨keys, freqs, inc⟩ hmiss val)
    -- the key that was missed has no entry
    have hk : key ≠ k := fun hk => hmem (hk ▸ mem_of_entry he)
    rw [if_neg hk]
    exact hrec k v f he

/-- What a run leaves. -/
def LastInGroups (inc : Int → Int) (rs : List Call) (c : LFUCache) : Prop :=
  ∃ hd gs, Grouped c hd gs ∧ hd.freq = 0 ∧ (c.capacity = 0 → gs = []) ∧ Recorded inc rs c

theorem call_lastInGroups (h : LastInGroups inc rs c) {r : Call} (hcall : call inc c r = some c') :
    LastInGroups inc (rs ++ [r]) c' := by
  obtain ⟨hd, gs, h, hfreq, hnil, hrec⟩ := h
  by_cases hcap : c.capacity = 0
  · cases (call_of_capacity_zero hcap r).symm.trans hcall
    refine ⟨hd, gs, h, hfreq, hnil, fun k v f he => ?_⟩
    exact absurd hcap (h.capacity_ne_zero hnil (mem_of_entry he))
  · obtain ⟨c₁, gs₁, hcall₁, hcap₁, h₁⟩ := call_grouped inc h hcap r
    cases hcall.symm.trans hcall₁
    refine ⟨hd, gs₁, h₁, hfreq, fun hzero => absurd (hcap₁.symm.trans hzero) hcap, ?_⟩
    obtain ⟨keys, freqs, op⟩ := r
    cases op with
    | get key val =>
      obtain ⟨⟨c₂, found, val'⟩, hget, rfl⟩ := Option.map_eq_some_iff.mp hcall
      exact get_recorded h hcap hrec hget
    | set key val => exact set_recorded h hfreq hcap hrec hcall

theorem run_lastInGroups {rt : Runtime} {capacity : Nat}
    (hnew : LFUCache.new rt capacity = some c₀) (hrun : exec (call inc) c₀ rs = some c) :
    LastInGroups inc rs c := by
  refine exec_induction (P := LastInGroups inc) ?_
    (fun _ _ _ _ _ h hcall => call_lastInGroups h hcall) hrun
  obtain ⟨c, hd, hnew', -, hlinked⟩ := new_wellLinked rt capacity
  cases hnew.symm.trans hnew'
  refine ⟨hd, [], hlinked.grouped, hlinked.headFreq, fun _ => rfl, fun k v f he => ?_⟩
  obtain ⟨p, hp⟩ := Finmap.mem_iff.mp (mem_of_entry he)
  obtain ⟨g, hg, -⟩ := hlinked.mapped k p hp
  cases hg

/-- **A hit delivers the last value.** In every state that any calls of `get` and `set` reach from a
new cache, evictions and keys that are set again among them, whatever the increment of the labels
is: the entry of a key has the value of the last `set` of it and the label of the calls of `get`
since; and a `get` that hits appends this value, and one that misses nothing. -/
theorem hit_delivers_last {rt : Runtime} {capacity : Nat}
    (hnew : LFUCache.new rt capacity = some c₀) (hrun : exec (call inc) c₀ rs = some c) :
    Recorded inc rs c ∧ ∀ (rt' : Runtime) (key val : Str), ∃ c' found val',
      c.get rt' key val = some (c', found, val') ∧
        (found = true → ∃ v, lastSet key rs = some v ∧ val' = val ++ v) ∧
        (found = false → c' = c ∧ val' = val) := by
  obtain ⟨hd, gs, h, -, hnil, hrec⟩ := run_lastInGroups hnew hrun
  refine ⟨hrec, fun rt' key val => ?_⟩
  by_cases hmem : key ∈ c.kmap
  · obtain ⟨c', v, _, g, _, _, _, _, _, -, -, hget, -, -, hentry, -⟩ :=
      get_grouped rt' h (h.capacity_ne_zero hnil hmem) hmem val
    obtain ⟨hlast, -⟩ := hrec key v g.freq hentry
    refine ⟨c', true, val ++ v, hget, fun _ => ⟨v, hlast, rfl⟩, fun hfound => ?_⟩
    cases hfound
  · have hmiss : c.fmap.lookup key = none := Finmap.lookup_eq_none.mpr (h.mem_fmap.not.mpr hmem)
    refine ⟨c, false, val, get_miss rt' hmiss val, fun hfound => ?_, fun _ => ⟨rfl, rfl⟩⟩
    cases hfound

/-- A key is set twice, and the node that its first `set` left is evicted. -/
theorem hit_delivers_last_doubled :
    ∃ c₀ c, LFUCache.new behind 2 = some c₀ ∧ exec (call (· + 1)) c₀ doubledCalls = some c ∧
      Recorded (· + 1) doubledCalls c ∧ ∀ (rt' : Runtime) (key val : Str), ∃ c' found val',
        c.get rt' key val = some (c', found, val') ∧
          (found = true → ∃ v, lastSet key doubledCalls = some v ∧ val' = val ++ v) ∧
          (found = false → c' = c ∧ val' = val) :=
  ⟨_, _, rfl, rfl, hit_delivers_last (show LFUCache.new behind 2 = _ from rfl)
    (show exec (call (· + 1)) _ doubledCalls = _ from rfl)⟩

end Runs

end HttpWebserver.Lfu
