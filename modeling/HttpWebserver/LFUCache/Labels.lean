import HttpWebserver.LFUCache.SetFrame
import HttpWebserver.Lib.MachineInt

/-!
# LFUCache — labels of 32 bits

`freq_` is an `int`, and `addFreq` adds one to it without a check, as its comment says. The labels
here are incremented modulo `2 ^ 32`.

* `Increasing`, `InOrder`: the labels along the frequency list, and what the victim is then;
* `hit_entry`: what a hit makes of the labels, for any increment;
* `call_labels`, `call_counted`: a call that does not overflow keeps the order, and each label
  counts the uses of its key;
* **`labels_survive_iff`** — in all states of a run the labels are in order, and no hit lowers a
  label, if and only if no hit finds the largest label.
-/

namespace HttpWebserver.Lfu

open LinkedHeap Machine MachineInt

/-- `freq + 1` for the `int` that holds it. -/
def inc32 (freq : Int) : Int := toInt32 (freq + 1)

/-- Each label is less than the labels behind it in the frequency list. -/
def Increasing (c : LFUCache) : Prop :=
  ∀ a f b g, Reach c.freqHeap c.dummyHead a → c.freqHeap.lookup a = some f →
    Reach c.freqHeap f.next b → c.freqHeap.lookup b = some g → f.value.freq < g.value.freq

/-- The key node at `b` is in the list of the frequency node with the label. -/
def Labelled (c : LFUCache) (b : Nat) (label : Int) : Prop :=
  ∃ a f, Reach c.freqHeap c.dummyHead a ∧ c.freqHeap.lookup a = some f ∧ f.value.freq = label ∧
    Reach c.keyHeap f.value.dummyHead b ∧ f.value.dummyHead ≠ some b

def Op.uses (k : Str) (n : Nat) : Op → Nat
  | .get key _ => if key = k then n + 1 else n
  | .set key _ => if key = k then 0 else n

/-- The number of calls of `get` for a key since the last `set` of it. -/
def uses (k : Str) (rs : List Call) : Nat := rs.foldl (fun n r => r.op.uses k n) 0

/-- After the calls `rs`: the labels increase, the victim has the least label, and when it is the
node of its key no resident key was used less. -/
structure InOrder (rs : List Call) (c : LFUCache) : Prop where
  increasing : Increasing c
  victim : ∀ x, c.victim = some x →
    ∃ label, Labelled c x.1 label ∧ ∀ b l, Labelled c b l → label ≤ l
  leastUsed : ∀ x, c.victim = some x → c.kmap.lookup x.2.key = some (some x.1) →
    ∀ k ∈ c.kmap, uses x.2.key rs ≤ uses k rs

/-- A hit finds a label below the largest one. -/
def BelowLimit (c : LFUCache) (r : Call) : Prop :=
  ∀ key val v f, r.op = .get key val → c.entry key = some (v, f) → f < 2 ^ 31 - 1

/-- A hit does not lower the label of its key. -/
def HitKeepsUp (c : LFUCache) (r : Call) : Prop :=
  ∀ key val v f c' v' f', r.op = .get key val → c.entry key = some (v, f) →
    call inc32 c r = some c' → c'.entry key = some (v', f') → f ≤ f'

theorem inc32_of_lt {f : Int} (hpos : 0 ≤ f) (hlt : f < 2 ^ 31 - 1) : inc32 f = f + 1 :=
  toInt32_of_range (by omega) (by omega)

/-- From the largest label on, the next one is smaller. -/
theorem inc32_lt {f : Int} (hge : 2 ^ 31 - 1 ≤ f) : inc32 f < f := by
  unfold inc32 toInt32
  rw [Int.bmod_def]
  split <;> omega

@[simp] theorem uses_concat (k : Str) (rs : List Call) (r : Call) :
    uses k (rs ++ [r]) = r.op.uses k (uses k rs) := by
  rw [uses, List.foldl_concat]
  rfl

/-! ## The labels of the groups

`Labelled` and `entry` read the labels through the pointers. Behind the head the groups have
ascending labels, so the first one has the least, and the victim is in it. -/

section Groups

variable {c : LFUCache} {hd g : Group} {gs R : List Group} {k v : Str} {f : Int}

theorem WellLinked.increasing (h : WellLinked c hd gs) : Increasing c := by
  intro a f b n ha hf hb hn
  obtain ⟨g, hg, rfl⟩ := h.grouped.reach_group.mp ha
  obtain ⟨L, R, hsplit⟩ := List.append_of_mem hg
  have hlay := h.layout
  have hasc := h.ascending
  rw [hsplit] at hlay hasc
  cases hf.symm.trans hlay.lookup_freq
  -- the nodes behind the group are those of `R`
  have hchain := hlay.chain
  rw [entries_append, entries_cons] at hchain
  have hR := (linked_append.mp hchain).2.2.reach_iff.mp hb
  obtain ⟨e, he, rfl⟩ := List.mem_map.mp hR
  obtain ⟨g', hg', rfl⟩ := List.mem_map.mp he
  have hmem : g' ∈ hd :: gs := by
    rw [hsplit]
    exact List.mem_append_right _ (List.mem_cons_of_mem _ hg')
  obtain ⟨pre, next, hlook⟩ := h.grouped.lookup_group hmem
  cases hn.symm.trans hlook
  rw [List.map_append, List.map_cons, List.pairwise_append] at hasc
  exact (List.pairwise_cons.mp hasc.2.1).1 _ (List.mem_map_of_mem hg')

theorem Grouped.labelled_iff (h : Grouped c hd gs) {b : Nat} {label : Int} :
    Labelled c b label ↔ ∃ g ∈ gs, g.freq = label ∧ b ∈ addrs g.nodes := by
  constructor
  · rintro ⟨a, f, ha, hf, hlabel, hb, hdummy⟩
    obtain ⟨g, hg, rfl⟩ := h.reach_group.mp ha
    obtain ⟨pre, next, hg'⟩ := h.lookup_group hg
    cases hf.symm.trans hg'
    have hnode := (h.reach_node hg).mp ⟨hb, hdummy⟩
    rcases List.mem_cons.mp hg with rfl | hgs
    · -- the list of the head has no node
      rw [h.headNodes] at hnode
      cases hnode
    · exact ⟨g, hgs, hlabel, hnode⟩
  · rintro ⟨g, hg, hlabel, hnode⟩
    have hg' := List.mem_cons_of_mem hd hg
    obtain ⟨pre, next, hgroup⟩ := h.lookup_group hg'
    obtain ⟨hreach, hdummy⟩ := (h.reach_node hg').mpr hnode
    exact ⟨g.addr, _, h.reach_group.mpr ⟨g, hg', rfl⟩, hgroup, hlabel, hreach, hdummy⟩

/-- The label of a resident key is the label of its group. -/
theorem Grouped.entry_group (h : Grouped c hd gs) (he : c.entry k = some (v, f)) :
    ∃ g ∈ gs, g.freq = f := by
  obtain ⟨p, hp⟩ := Finmap.mem_iff.mp (mem_of_entry he)
  obtain ⟨g, hg, x, hx, -, rfl, hfmap⟩ := h.mapped k p hp
  cases he.symm.trans (h.entry_eq hg hx hp hfmap)
  exact ⟨g, hg, rfl⟩

theorem WellLinked.entry_pos (h : WellLinked c hd gs) (he : c.entry k = some (v, f)) : 0 < f := by
  obtain ⟨g, hg, rfl⟩ := h.grouped.entry_group he
  rw [← h.headFreq]
  exact (List.pairwise_cons.mp h.ascending).1 g.freq (List.mem_map_of_mem hg)

/-- The first group has the least label. -/
theorem WellLinked.first_le (h : WellLinked c hd (g :: R)) {g' : Group} (hg' : g' ∈ g :: R) :
    g.freq ≤ g'.freq := by
  have hasc := (List.pairwise_cons.mp h.ascending).2
  rcases List.mem_cons.mp hg' with rfl | hR
  · exact Int.le_refl _
  · exact Int.le_of_lt ((List.pairwise_cons.mp hasc).1 g'.freq (List.mem_map_of_mem hR))

theorem Grouped.head_lt (h : Grouped c hd gs) (hinc : Increasing c) (hg : g ∈ gs) :
    hd.freq < g.freq := by
  have hhd := Layout.lookup_freq (L := []) (g := hd) h.layout
  obtain ⟨pre, next, hlook⟩ := h.lookup_group (List.mem_cons_of_mem hd hg)
  have hreach : Reach c.freqHeap (firstPtr none (entries gs)) g.addr :=
    h.layout.chain.2.reach_iff.mpr (mem_addrs (List.mem_map_of_mem hg))
  exact hinc hd.addr _ g.addr _ (h.reach_group.mpr ⟨hd, List.mem_cons_self, rfl⟩) hhd hreach hlook

/-- A node is in one group. -/
theorem Grouped.group_eq_first (h : Grouped c hd (g :: R)) {g' : Group} (hg' : g' ∈ g :: R)
    {x : Nat × Key} (hx : x ∈ g.nodes) (hx' : x ∈ g'.nodes) : g' = g := by
  rcases List.mem_cons.mp hg' with rfl | hR
  · rfl
  · have hnd := h.nodup
    rw [allNodes_cons, addrs_append, List.nodup_append] at hnd
    exact absurd rfl (hnd.2.2 x.1 (mem_addrs hx) x.1
      (mem_addrs (mem_allNodes.mpr ⟨g', hR, hx'⟩)))

/-- The entry of a victim that is the node of its key has the label of the first group. -/
theorem Grouped.victim_entry (h : Grouped c hd (g :: R)) {x : Nat × Key} (hx : x ∈ g.nodes)
    (hown : c.kmap.lookup x.2.key = some (some x.1)) :
    c.entry x.2.key = some (x.2.value, g.freq) := by
  obtain ⟨g', hg', y, hy, -, haddr, hfmap⟩ := h.mapped x.2.key _ hown
  have hmem : x ∈ allNodes (g :: R) := mem_allNodes.mpr ⟨g, List.mem_cons_self, hx⟩
  cases h.eq_of_addr hmem (mem_allNodes.mpr ⟨g', hg', hy⟩) (Option.some.inj haddr)
  cases h.group_eq_first hg' hx hy
  exact h.entry_eq hg' hx hown hfmap

end Groups

/-! ## One call

Two invariants of different strength: the labels are in order, and each of them counts the uses of
its keys. A call keeps both as long as its hit, if it is one, raises the label. -/

/-- The labels are in order, and there are none without capacity. -/
def OrderedLabels (c : LFUCache) : Prop :=
  ∃ hd gs, WellLinked c hd gs ∧ (c.capacity = 0 → gs = [])

/-- The label of each resident key counts its uses. -/
def Counted (rs : List Call) (c : LFUCache) : Prop :=
  ∀ k v f, c.entry k = some (v, f) → f = 1 + uses k rs

section Calls

variable {c c' : LFUCache} {hd : Group} {gs : List Group} {r : Call} {rs : List Call}
  {key val v : Str} {f : Int}

/-- A hit, with any increment: the key gets the next label, and all others keep theirs. -/
theorem hit_entry (inc : Int → Int) (h : Grouped c hd gs) (hcap : c.capacity ≠ 0)
    (hop : r.op = .get key val) (he : c.entry key = some (v, f)) :
    ∃ c', call inc c r = some c' ∧ c'.kmap = c.kmap ∧ c'.entry key = some (v, inc f) ∧
      ∀ k' ≠ key, k' ∈ c.kmap → c'.entry k' = c.entry k' := by
  obtain ⟨keys, freqs, op⟩ := r
  cases hop
  obtain ⟨c', v', _, g, _, n, _, _, _, -, hbehind, hget, -, hkmap, hentry, hentry', hother, -⟩ :=
    get_grouped ⟨keys, freqs, inc⟩ h hcap (mem_of_entry he) val
  cases he.symm.trans hentry
  refine ⟨c', ?_, hkmap, ?_, hother⟩
  · simp only [call, hget, Option.map_some]
  · rw [hentry', hbehind.1]

theorem OrderedLabels.capacity_ne_zero (h : OrderedLabels c) (he : c.entry key = some (v, f)) :
    c.capacity ≠ 0 := by
  obtain ⟨hd, gs, hlinked, hnil⟩ := h
  exact hlinked.grouped.capacity_ne_zero hnil (mem_of_entry he)

theorem hitKeepsUp_iff (h : OrderedLabels c) : HitKeepsUp c r ↔ BelowLimit c r := by
  have hhit : ∀ {key val v f}, r.op = .get key val → c.entry key = some (v, f) →
      0 < f ∧ ∃ c', call inc32 c r = some c' ∧ c'.entry key = some (v, inc32 f) := by
    intro key val v f hop he
    have hcap := h.capacity_ne_zero he
    obtain ⟨hd, gs, hlinked, -⟩ := h
    obtain ⟨c', hcall, -, hentry, -⟩ := hit_entry inc32 hlinked.grouped hcap hop he
    exact ⟨hlinked.entry_pos he, c', hcall, hentry⟩
  constructor
  · intro hkeeps key val v f hop he
    by_contra hge
    obtain ⟨-, c', hcall, hentry⟩ := hhit hop he
    have hle := hkeeps key val v f c' v _ hop he hcall hentry
    have hlt := inc32_lt (Int.not_lt.mp hge)
    omega
  · intro hbelow key val v f c' v' f' hop he hcall he'
    obtain ⟨hpos, c₁, hcall₁, hentry₁⟩ := hhit hop he
    cases hcall.symm.trans hcall₁
    cases he'.symm.trans hentry₁
    rw [inc32_of_lt (by omega) (hbelow key val v f hop he)]
    omega

/-- A call that does not overflow keeps the labels in order. -/
theorem call_labels (h : OrderedLabels c) (hbelow : BelowLimit c r)
    (hcall : call inc32 c r = some c') : OrderedLabels c' := by
  obtain ⟨hd, gs, hlinked, hnil⟩ := h
  by_cases hcap : c.capacity = 0
  · cases (call_of_capacity_zero hcap r).symm.trans hcall
    exact ⟨hd, gs, hlinked, hnil⟩
  · obtain ⟨c₁, gs₁, hcall₁, hcap₁, hlinked₁⟩ :=
      call_wellLinked inc32 (by decide) hlinked hcap fun key val v f hop he => by
        have hpos := hlinked.entry_pos he
        exact inc32_of_lt (by omega) (hbelow key val v f hop he)
    cases hcall.symm.trans hcall₁
    exact ⟨hd, gs₁, hlinked₁, fun hzero => absurd (hcap₁.symm.trans hzero) hcap⟩

/-- A `get` counts for its key, when it hits. -/
theorem get_counted {keys : Allocator Key} {freqs : Allocator KeyList} (h : WellLinked c hd gs)
    (hcap : c.capacity ≠ 0) (hbelow : BelowLimit c ⟨keys, freqs, .get key val⟩)
    (hcount : Counted rs c) (hcall : call inc32 c ⟨keys, freqs, .get key val⟩ = some c') :
    Counted (rs ++ [⟨keys, freqs, .get key val⟩]) c' := by
  intro k v f he
  rw [uses_concat]
  show f = 1 + ((if key = k then uses k rs + 1 else uses k rs : Nat) : Int)
  -- the key asked for has one use more, and below the limit its label counts it
  by_cases hk : key ∈ c.kmap
  · obtain ⟨⟨v₀, f₀⟩, he₀⟩ := h.grouped.entry_some hk
    obtain ⟨c₁, hcall₁, hkmap, hentry, hother⟩ :=
      hit_entry (r := ⟨keys, freqs, .get key val⟩) inc32 h.grouped hcap rfl he₀
    cases hcall.symm.trans hcall₁
    by_cases hkey : key = k
    · subst hkey
      have hpos := h.entry_pos he₀
      cases he.symm.trans hentry
      rw [if_pos rfl, inc32_of_lt (by omega) (hbelow key val v f₀ rfl he₀), hcount key v f₀ he₀]
      omega
    · rw [if_neg hkey]
      have hmem : k ∈ c.kmap := hkmap ▸ mem_of_entry he
      exact hcount k v f ((hother k (Ne.symm hkey) hmem).symm.trans he)
  · -- a miss changes nothing
    have hmiss : c.fmap.lookup key = none :=
      Finmap.lookup_eq_none.mpr (h.grouped.mem_fmap.not.mpr hk)
    simp only [call, get_miss ⟨keys, freqs, inc32⟩ hmiss, Option.map_some,
      Option.some.injEq] at hcall
    subst hcall
    have hkey : key ≠ k := by
      rintro rfl
      exact hk (mem_of_entry he)
    rw [if_neg hkey]
    exact hcount k v f he

/-- A `set` starts the count of its key again. -/
theorem set_counted {keys : Allocator Key} {freqs : Allocator KeyList} (h : WellLinked c hd gs)
    (hcap : c.capacity ≠ 0) (hcount : Counted rs c)
    (hcall : call inc32 c ⟨keys, freqs, .set key val⟩ = some c') :
    Counted (rs ++ [⟨keys, freqs, .set key val⟩]) c' := by
  intro k v f he
  rw [uses_concat]
  show f = 1 + ((if key = k then 0 else uses k rs : Nat) : Int)
  obtain ⟨c₁, gs₁, hset, -, hentry, hother, -⟩ :=
    set_grouped ⟨keys, freqs, inc32⟩ h.grouped hcap key val
  cases hcall.symm.trans hset
  by_cases hkey : key = k
  · subst hkey
    cases he.symm.trans hentry
    rw [if_pos rfl]
    show inc32 hd.freq = 1
    rw [h.headFreq]
    decide
  · rw [if_neg hkey]
    exact hcount k v f ((hother k (Ne.symm hkey) (mem_of_entry he)).symm.trans he)

/-- And each label counts on. -/
theorem call_counted (h : OrderedLabels c) (hbelow : BelowLimit c r) (hcount : Counted rs c)
    (hcall : call inc32 c r = some c') : Counted (rs ++ [r]) c' := by
  obtain ⟨hd, gs, hlinked, hnil⟩ := h
  by_cases hcap : c.capacity = 0
  · cases (call_of_capacity_zero hcap r).symm.trans hcall
    intro k v f he
    exact absurd hcap (hlinked.grouped.capacity_ne_zero hnil (mem_of_entry he))
  · obtain ⟨keys, freqs, op⟩ := r
    cases op with
    | get key val => exact get_counted hlinked hcap hbelow hcount hcall
    | set key val => exact set_counted hlinked hcap hcount hcall

theorem inOrder_of_counted (h : OrderedLabels c) (hcount : Counted rs c) : InOrder rs c := by
  obtain ⟨hd, gs, hlinked, -⟩ := h
  refine ⟨hlinked.increasing, fun x hx => ?_, fun x hx hown k hk => ?_⟩
  · obtain ⟨g, R, xs, rfl, hnodes⟩ := hlinked.grouped.of_victim hx
    refine ⟨g.freq, ?_, fun b l hb => ?_⟩
    · refine hlinked.grouped.labelled_iff.mpr ⟨g, List.mem_cons_self, rfl, mem_addrs ?_⟩
      rw [hnodes]
      simp
    · obtain ⟨g', hg', rfl, -⟩ := hlinked.grouped.labelled_iff.mp hb
      exact hlinked.first_le hg'
  · obtain ⟨g, R, xs, rfl, hnodes⟩ := hlinked.grouped.of_victim hx
    have hmem : x ∈ g.nodes := by
      rw [hnodes]
      simp
    have hvictim := hcount _ _ _ (hlinked.grouped.victim_entry hmem hown)
    obtain ⟨⟨v, f⟩, he⟩ := hlinked.grouped.entry_some hk
    have hlabel := hcount k v f he
    obtain ⟨g', hg', rfl⟩ := hlinked.grouped.entry_group he
    have hle := hlinked.first_le hg'
    omega

end Calls

/-! ## Runs

The first hit on the largest label breaks the order at once, so the condition is exact. To reach
it takes `2 ^ 31` calls, and the run that does is given by their number. -/

section Runs

variable {rt : Runtime} {capacity : Nat} {c₀ c : LFUCache}

theorem new_labels (hnew : LFUCache.new rt capacity = some c₀) :
    OrderedLabels c₀ ∧ Counted [] c₀ := by
  obtain ⟨c, hd, hnew', -, hlinked⟩ := new_wellLinked rt capacity
  cases hnew.symm.trans hnew'
  refine ⟨⟨hd, [], hlinked, fun _ => rfl⟩, fun k v f he => ?_⟩
  obtain ⟨g, hg, -⟩ := hlinked.grouped.entry_group he
  cases hg

/-- **The labels survive as long as none overflows.** For every run of `get` and `set` from a new
cache, the labels being incremented modulo `2 ^ 32`: in all states of the run the labels increase
along the frequency list and the victim is the least used key, and no hit of the run lowers the
label of its key, if and only if every hit of the run finds a label below `2 ^ 31 - 1`. -/
theorem labels_survive_iff (hnew : LFUCache.new rt capacity = some c₀) (rs : List Call) :
    ((∀ js, js <+: rs → ∀ t, exec (call inc32) c₀ js = some t → InOrder js t) ∧
        Along (call inc32) HitKeepsUp c₀ rs) ↔
      Along (call inc32) BelowLimit c₀ rs := by
  obtain ⟨hinit, hcount⟩ := new_labels hnew
  constructor
  · rintro ⟨-, hkeeps⟩
    exact (along_congr_under (R := HitKeepsUp)
      (fun s r t h hr ht => call_labels h ((hitKeepsUp_iff h).mp hr) ht)
      (fun s r h => hitKeepsUp_iff h) hinit hkeeps).mp hkeeps
  · intro hbelow
    refine ⟨fun js hjs t ht => ?_, ?_⟩
    · obtain ⟨hlabels, hcounted⟩ := exec_along (I := fun js t => OrderedLabels t ∧ Counted js t)
        ⟨hinit, hcount⟩
        (fun is s r t _ h hr ht => ⟨call_labels h.1 hr ht, call_counted h.1 hr h.2 ht⟩)
        ht (hbelow.of_prefix hjs)
      exact inOrder_of_counted hlabels hcounted
    · exact (along_congr_under (R := BelowLimit) (fun s r t h hr ht => call_labels h hr ht)
        (fun s r h => hitKeepsUp_iff h) hinit hbelow).mpr hbelow

theorem labels_survive_iff_doubled :
    ∃ c₀, LFUCache.new behind 2 = some c₀ ∧
      (((∀ js, js <+: doubledCalls → ∀ t, exec (call inc32) c₀ js = some t → InOrder js t) ∧
          Along (call inc32) HitKeepsUp c₀ doubledCalls) ↔
        Along (call inc32) BelowLimit c₀ doubledCalls) :=
  ⟨_, rfl, labels_survive_iff (show LFUCache.new behind 2 = _ from rfl) doubledCalls⟩

/-- Hits of one key, up to the largest label. -/
theorem hits_run {key val v : Str} {f : Int} {r : Call} (h : OrderedLabels c)
    (he : c.entry key = some (v, f)) (hop : r.op = .get key val) {n : Nat}
    (hn : f + n ≤ 2 ^ 31 - 1) :
    ∃ c', exec (call inc32) c (List.replicate n r) = some c' ∧ OrderedLabels c' ∧
      c'.entry key = some (v, f + n) := by
  induction n generalizing c f with
  | zero => exact ⟨c, rfl, h, by rw [he]; simp⟩
  | succ n ih =>
    have hcap := h.capacity_ne_zero he
    have hlinked := h
    obtain ⟨hd, gs, hlinked, -⟩ := hlinked
    obtain ⟨c₁, hcall, -, hentry, -⟩ := hit_entry inc32 hlinked.grouped hcap hop he
    have hpos := hlinked.entry_pos he
    have hbelow : BelowLimit c r := by
      intro key' val' v' f' hop' he'
      cases hop.symm.trans hop'
      cases he.symm.trans he'
      omega
    rw [inc32_of_lt (by omega) (by omega)] at hentry
    obtain ⟨c', hrun, hlabels, hentry'⟩ := ih (call_labels h hbelow hcall) hentry (by omega)
    refine ⟨c', ?_, hlabels, ?_⟩
    · rw [List.replicate_succ, exec_cons, hcall]
      exact hrun
    · rw [hentry']
      simp only [Option.some.injEq, Prod.mk.injEq, true_and]
      omega

def getFirst : Call := { keys := behind.keys, freqs := behind.freqs, op := .get [97] [] }

/-- A key is set, and then hit again and again. -/
def manyHits (n : Nat) : List Call :=
  { keys := behind.keys, freqs := behind.freqs, op := .set [97] [1] } :: List.replicate n getFirst

theorem inc32_largest {f : Int} (hf : f = 2 ^ 31 - 1) : inc32 f = -2 ^ 31 := by
  unfold inc32 toInt32
  rw [Int.bmod_def]
  split <;> omega

/-- The hit behind the largest label. The number of hits is a variable, so that no run is
computed. -/
theorem overflow_after {n : Nat} (hn : n = 2 ^ 31 - 2) :
    ∃ c₀ c c' f f', LFUCache.new behind LFU_CAPACITY = some c₀ ∧
      exec (call inc32) c₀ (manyHits n) = some c ∧ c.entry [97] = some ([1], f) ∧
      call inc32 c getFirst = some c' ∧ c'.entry [97] = some ([1], f') ∧
      f = 2 ^ 31 - 1 ∧ f' = -2 ^ 31 ∧ ¬ Increasing c' ∧
      ¬ Along (call inc32) HitKeepsUp c₀ (manyHits n ++ [getFirst]) := by
  obtain ⟨c₀, hd, hnew, hcap₀, hlinked₀⟩ := new_wellLinked behind LFU_CAPACITY
  have hcap : c₀.capacity ≠ 0 := by
    rw [hcap₀]
    decide
  -- one `set`, and the hits up to the largest label, by the run lemma
  obtain ⟨c₁, gs₁, hset, -, hentry₁, -, -⟩ :=
    set_grouped ⟨behind.keys, behind.freqs, inc32⟩ hlinked₀.grouped hcap [97] [1]
  have hbelow : BelowLimit c₀ ⟨behind.keys, behind.freqs, .set [97] [1]⟩ := by
    intro key val v f hop
    cases hop
  have hlabels₁ := call_labels ⟨hd, [], hlinked₀, fun _ => rfl⟩ hbelow hset
  have hone : inc32 hd.freq = 1 := by
    rw [hlinked₀.headFreq]
    decide
  simp only [hone] at hentry₁
  obtain ⟨c, hrun, hlabels, hentry⟩ :=
    hits_run (r := getFirst) (n := n) hlabels₁ hentry₁ rfl (by omega)
  have hexec : exec (call inc32) c₀ (manyHits n) = some c := by
    rw [manyHits, exec_cons]
    show (c₀.set ⟨behind.keys, behind.freqs, inc32⟩ [97] [1]).bind _ = some c
    rw [hset]
    exact hrun
  have hcap' := hlabels.capacity_ne_zero hentry
  obtain ⟨hd', gs, hlinked, -⟩ := hlabels
  -- the hit that overflows
  obtain ⟨c', hcall, -, hentry', -⟩ :=
    hit_entry (r := getFirst) inc32 hlinked.grouped hcap' rfl hentry
  have hlargest : (1 : Int) + n = 2 ^ 31 - 1 := by omega
  have hsmallest := inc32_largest hlargest
  refine ⟨c₀, c, c', _, _, hnew, hexec, hentry, hcall, hentry', hlargest, hsmallest,
    fun hinc => ?_, fun halong => ?_⟩
  · -- the head has label 0
    obtain ⟨c'', gs', hcall', -, hgrouped⟩ := call_grouped inc32 hlinked.grouped hcap' getFirst
    cases hcall.symm.trans hcall'
    obtain ⟨g, hg, hlabel⟩ := hgrouped.entry_group hentry'
    have hlt := hgrouped.head_lt hinc hg
    rw [hlinked.headFreq, hlabel] at hlt
    omega
  · have hle := (along_concat.mp halong).2 c hexec [97] [] [1] _ c' [1] _ rfl hentry hcall hentry'
    omega

/-- After `2 ^ 31 - 2` hits the label is the largest `int`. The next hit makes it the smallest one,
behind the head's label 0. -/
theorem label_overflows :
    ∃ c₀ c c' f f', LFUCache.new behind LFU_CAPACITY = some c₀ ∧
      exec (call inc32) c₀ (manyHits (2 ^ 31 - 2)) = some c ∧ c.entry [97] = some ([1], f) ∧
      call inc32 c getFirst = some c' ∧ c'.entry [97] = some ([1], f') ∧
      f = 2 ^ 31 - 1 ∧ f' = -2 ^ 31 ∧ ¬ Increasing c' ∧
      ¬ Along (call inc32) HitKeepsUp c₀ (manyHits (2 ^ 31 - 2) ++ [getFirst]) :=
  overflow_after (Eq.refl (2 ^ 31 - 2))

end Runs

end HttpWebserver.Lfu
