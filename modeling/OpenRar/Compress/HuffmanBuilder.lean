import OpenRar.Foundation.CanonicalCode

/-!
# Building code lengths

Embedding of `HuffmanBuilder` of `compress/compressor50.cpp`.  `build_lengths` merges
two queues into a Huffman tree, reads the depths of the leaves and, when a leaf
lies too deep, redistributes the lengths under the limit; `build_codes` hands out
the canonical codes.

The source has the algorithm twice, with arrays on the stack for at most 512
symbols and with vectors beyond; both compute the same.  Nodes are kept in the
queues by value and not by index.
-/

namespace OpenRar.Compress

open CanonicalCode List Function

namespace HuffmanBuilder

/-- `TreeNode` -/
inductive TreeNode
  | leaf (weight symbol : Nat)
  | node (weight : Nat) (left right : TreeNode)
  deriving DecidableEq, Repr

def TreeNode.weight : TreeNode → Nat
  | leaf w _ => w
  | node w _ _ => w

variable (freq : List Nat)

/-- Symbols with a frequency. -/
def usedSymbols : List Nat :=
  (List.range freq.length).filter fun i => freq.getD i 0 ≠ 0

/-- The first queue: leaves by weight, then by symbol. -/
def leafQueue : List TreeNode :=
  ((usedSymbols freq).mergeSort fun a b =>
      if freq.getD a 0 ≠ freq.getD b 0 then freq.getD a 0 < freq.getD b 0 else a ≤ b).map
    fun i => .leaf (freq.getD i 0) i

/-- `get_min` -/
def getMin : List TreeNode → List TreeNode → Option (TreeNode × List TreeNode × List TreeNode)
  | [], [] => none
  | a :: q1, [] => some (a, q1, [])
  | [], b :: q2 => some (b, [], q2)
  | a :: q1, b :: q2 =>
    if a.weight ≤ b.weight then some (a, q1, b :: q2) else some (b, a :: q1, q2)

/-- The merge loop.  Every pass replaces two nodes by one. -/
def mergeQueues : Nat → List TreeNode → List TreeNode → List TreeNode
  | 0, q1, q2 => q1 ++ q2
  | fuel + 1, q1, q2 =>
    if q1.length + q2.length > 1 then
      match getMin q1 q2 with
      | none => []
      | some (left, q1, q2) =>
        match getMin q1 q2 with
        | none => []
        | some (right, q1, q2) =>
          mergeQueues fuel q1 (q2 ++ [.node (left.weight + right.weight) left right])
    else q1 ++ q2

/-- Symbols with their depths, left subtree first. -/
def TreeNode.codeDepths : TreeNode → Nat → List (Nat × Nat)
  | leaf _ s, d => [(s, d)]
  | node _ l r, d => l.codeDepths (d + 1) ++ r.codeDepths (d + 1)

/-- The leaves of the finished tree with their depths. -/
def symbolDepths : List (Nat × Nat) :=
  (mergeQueues (usedSymbols freq).length (leafQueue freq) []).flatMap (·.codeDepths 0)

/-- Writes into an array, one after the other. -/
def writeAll (array : Nat → Nat) (writes : List (Nat × Nat)) : Nat → Nat :=
  writes.foldl (fun array w => Function.update array w.1 w.2) array

/-- `bl_count` before the limit: symbols of a depth. -/
def depthCount (size : Nat) (depths : Nat → Nat) (d : Nat) : Nat :=
  ((List.range size).map depths).count d

/-- `bl_count` once the depths beyond the limit are moved onto it. -/
def clampCount (size maxBits maxDepth : Nat) (depths : Nat → Nat) (d : Nat) : Nat :=
  let overflow := ∑ d ∈ Finset.Icc (maxBits + 1) maxDepth, depthCount size depths d
  if d < maxBits then depthCount size depths d
  else if d = maxBits then depthCount size depths d + overflow
  else 0

/-- `kraft_sum` of a count per length. -/
def kraftSum (maxBits : Nat) (bl : Nat → Nat) : Nat :=
  ∑ d ∈ Finset.Icc 1 maxBits, bl d * 2 ^ (maxBits - d)

/-- The longest length in use up to the given one, zero if there is none. -/
def levelDown (bl : Nat → Nat) : Nat → Nat
  | 0 => 0
  | d + 1 => if bl (d + 1) = 0 then levelDown bl d else d + 1

/-- A symbol of length `d` becomes two of the next length, one of them for a symbol
of the longest length. -/
def splitLevel (maxBits d : Nat) (bl : Nat → Nat) : Nat → Nat :=
  let bl := Function.update bl d (bl d - 1)
  let bl := Function.update bl (d + 1) (bl (d + 1) + 2)
  Function.update bl maxBits (bl maxBits - 1)

/-- The loop that brings the Kraft sum down to its limit.  Every pass takes one from
it. -/
def shrink (maxBits : Nat) : Nat → (Nat → Nat) → Nat → Nat → Nat
  | 0, bl, _ => bl
  | fuel + 1, bl, kraft =>
    if kraft > 2 ^ maxBits then
      let d := levelDown bl (maxBits - 1)
      if d = 0 ∨ bl maxBits = 0 then bl
      else shrink maxBits fuel (splitLevel maxBits d bl) (kraft - 1)
    else bl

/-- Symbols that have a depth, by falling frequency, then by symbol. -/
def sortedSymbols (depths : Nat → Nat) : List Nat :=
  ((List.range freq.length).filter fun i => depths i > 0).mergeSort fun a b =>
    if freq.getD a 0 ≠ freq.getD b 0 then freq.getD a 0 > freq.getD b 0 else a ≤ b

/-- The lengths in rising order, each as often as its count says. -/
def lengthRun (maxBits : Nat) (bl : Nat → Nat) : List Nat :=
  (List.range' 1 maxBits).flatMap fun bits => List.replicate (bl bits) bits

/-- The branch of `build_lengths` for trees deeper than the limit. -/
def limitDepths (maxBits maxDepth : Nat) (depths : Nat → Nat) : Nat → Nat :=
  let bl := clampCount freq.length maxBits maxDepth depths
  let kraft := kraftSum maxBits bl
  let bl := shrink maxBits kraft bl kraft
  writeAll depths ((sortedSymbols freq depths).zip (lengthRun maxBits bl))

/-- `build_lengths` -/
def buildLengths (maxBits : Nat) : List Nat :=
  let used := usedSymbols freq
  if used.length = 0 then List.replicate freq.length 0
  else if used.length = 1 then
    (List.range freq.length).map fun i => if freq.getD i 0 ≠ 0 then 1 else 0
  else
    let leaves := symbolDepths freq
    let depths := writeAll (fun _ => 0) leaves
    let maxDepth := (leaves.map (·.2)).foldl max 0
    let depths := if maxDepth > maxBits then limitDepths freq maxBits maxDepth depths else depths
    (List.range freq.length).map depths

/-- `next_code` of `build_codes`. -/
def nextCode (lens : List Nat) : Nat → Nat
  | 0 => 0
  | bits + 1 => 2 * (nextCode lens bits + if bits = 0 then 0 else lens.count bits)

/-- `build_codes` -/
def buildCodes (lens : List Nat) : List Nat :=
  List.zipWith (fun len code => if len ≠ 0 then code else 0) lens (assign (nextCode lens) lens)

/-! ## The tree -/

/-- The symbols of a tree. -/
def TreeNode.symbols : TreeNode → List Nat
  | leaf _ s => [s]
  | node _ l r => l.symbols ++ r.symbols

theorem codeDepths_symbols (t : TreeNode) (d : Nat) :
    (t.codeDepths d).map (·.1) = t.symbols := by
  induction t generalizing d with
  | leaf w s => rfl
  | node w l r ihl ihr => simp [TreeNode.codeDepths, TreeNode.symbols, ihl, ihr]

theorem symbols_length_pos (t : TreeNode) : 0 < t.symbols.length := by
  induction t with
  | leaf w s => exact Nat.one_pos
  | node w l r ihl ihr =>
    rw [TreeNode.symbols, length_append]
    omega

theorem le_codeDepths (t : TreeNode) (d : Nat) : ∀ p ∈ t.codeDepths d, d ≤ p.2 := by
  induction t generalizing d with
  | leaf w s =>
    intro p hp
    rw [TreeNode.codeDepths, mem_singleton] at hp
    rw [hp]
  | node w l r ihl ihr =>
    intro p hp
    rw [TreeNode.codeDepths, mem_append] at hp
    rcases hp with hp | hp
    · exact (Nat.le_succ d).trans (ihl (d + 1) p hp)
    · exact (Nat.le_succ d).trans (ihr (d + 1) p hp)

/-- Leaves below the limit. -/
def deep (m : Nat) (leaves : List (Nat × Nat)) : Nat := leaves.countP fun p => m < p.2

/-- Kraft sum of leaves whose depths are cut at the limit. -/
def cutKraft (m : Nat) (leaves : List (Nat × Nat)) : Nat :=
  (leaves.map fun p => 2 ^ (m - p.2)).sum

theorem deep_append (m : Nat) (xs ys : List (Nat × Nat)) :
    deep m (xs ++ ys) = deep m xs + deep m ys :=
  countP_append

theorem cutKraft_append (m : Nat) (xs ys : List (Nat × Nat)) :
    cutKraft m (xs ++ ys) = cutKraft m xs + cutKraft m ys := by
  rw [cutKraft, map_append, sum_append, ← cutKraft, ← cutKraft]

/-- Leaves that all lie below the limit count one each. -/
theorem cutKraft_of_deep {m : Nat} {leaves : List (Nat × Nat)} (h : ∀ p ∈ leaves, m < p.2) :
    cutKraft m leaves = leaves.length ∧ deep m leaves = leaves.length := by
  constructor
  · have hone : leaves.map (fun p => 2 ^ (m - p.2)) = leaves.map fun _ => 1 :=
      map_congr_left fun p hp => by rw [Nat.sub_eq_zero_of_le (h p hp).le, pow_zero]
    rw [cutKraft, hone]
    simp
  · exact countP_eq_length.mpr fun p hp => decide_eq_true (h p hp)

/-- A subtree that starts above the limit fills its share exactly, or exceeds it by
less than the number of its leaves below the limit. -/
theorem cutKraft_codeDepths (m : Nat) (t : TreeNode) {d : Nat} (hd : d ≤ m) :
    (deep m (t.codeDepths d) = 0 ∧ cutKraft m (t.codeDepths d) = 2 ^ (m - d)) ∨
      (0 < deep m (t.codeDepths d) ∧
        cutKraft m (t.codeDepths d) < 2 ^ (m - d) + deep m (t.codeDepths d)) := by
  induction t generalizing d with
  | leaf w s =>
    simp [deep, cutKraft, TreeNode.codeDepths, hd]
  | node w l r ihl ihr =>
    rw [TreeNode.codeDepths, deep_append, cutKraft_append]
    rcases Nat.eq_or_lt_of_le hd with heq | hlt
    · -- both subtrees start below the limit
      subst heq
      have hl := cutKraft_of_deep (m := d) (fun p hp => le_codeDepths l (d + 1) p hp)
      have hr := cutKraft_of_deep (m := d) (fun p hp => le_codeDepths r (d + 1) p hp)
      have hpos : 0 < (l.codeDepths (d + 1)).length := by
        rw [← length_map (·.1), codeDepths_symbols]
        exact symbols_length_pos l
      rw [hl.1, hl.2, hr.1, hr.2, Nat.sub_self, pow_zero]
      omega
    · have hpow : 2 ^ (m - d) = 2 ^ (m - (d + 1)) + 2 ^ (m - (d + 1)) := by
        rw [← Nat.two_mul, ← pow_succ', show m - (d + 1) + 1 = m - d by omega]
      have hl := ihl (show d + 1 ≤ m by omega)
      have hr := ihr (show d + 1 ≤ m by omega)
      omega

/-! ## The merge loop -/

variable {q1 q2 : List TreeNode} {fuel size i n : Nat}

theorem getMin_perm {r1 r2 : List TreeNode} {t : TreeNode}
    (h : getMin q1 q2 = some (t, r1, r2)) : (q1 ++ q2).Perm (t :: (r1 ++ r2)) := by
  cases q1 with
  | nil =>
    cases q2 with
    | nil => cases h
    | cons b q2 =>
      cases h
      exact List.Perm.refl _
  | cons a q1 =>
    cases q2 with
    | nil =>
      cases h
      exact List.Perm.refl _
    | cons b q2 =>
      rw [getMin] at h
      split at h
      · cases h
        exact List.Perm.refl _
      · cases h
        exact perm_middle

theorem getMin_isSome (h : 0 < (q1 ++ q2).length) : ∃ t r1 r2, getMin q1 q2 = some (t, r1, r2) := by
  cases q1 with
  | nil =>
    cases q2 with
    | nil => cases h
    | cons b q2 => exact ⟨_, _, _, rfl⟩
  | cons a q1 =>
    cases q2 with
    | nil => exact ⟨_, _, _, rfl⟩
    | cons b q2 =>
      rw [getMin]
      split
      · exact ⟨_, _, _, rfl⟩
      · exact ⟨_, _, _, rfl⟩

/-- **The merge loop leaves one tree with all the symbols.** -/
theorem mergeQueues_spec (hpos : 0 < q1.length + q2.length)
    (hfuel : q1.length + q2.length ≤ fuel + 1) :
    ∃ t, mergeQueues fuel q1 q2 = [t] ∧
      t.symbols.Perm ((q1 ++ q2).flatMap TreeNode.symbols) ∧
      (1 < q1.length + q2.length → ∃ w l r, t = .node w l r) := by
  have hsingle : ∀ q1 q2 : List TreeNode, q1.length + q2.length = 1 → ∃ t, q1 ++ q2 = [t] ∧
      t.symbols.Perm ((q1 ++ q2).flatMap TreeNode.symbols) := by
    intro q1 q2 hone
    obtain ⟨t, ht⟩ := length_eq_one_iff.mp (by rw [length_append]; exact hone)
    rw [ht]
    exact ⟨t, rfl, by simp⟩
  induction fuel generalizing q1 q2 with
  | zero =>
    obtain ⟨t, ht, hperm⟩ := hsingle q1 q2 (by omega)
    exact ⟨t, ht, hperm, fun h => by omega⟩
  | succ fuel ih =>
    rw [mergeQueues]
    split
    next hmany =>
      obtain ⟨left, r1, r2, hleft⟩ := @getMin_isSome q1 q2
        (by rw [length_append]; omega)
      have hperm := getMin_perm hleft
      have hlen := hperm.length_eq
      simp only [length_append, length_cons] at hlen
      obtain ⟨right, s1, s2, hright⟩ := @getMin_isSome r1 r2
        (by rw [length_append]; omega)
      have hperm' := getMin_perm hright
      have hlen' := hperm'.length_eq
      simp only [length_append, length_cons] at hlen'
      simp only [hleft, hright]
      obtain ⟨t, hrun, hsymbols, hnode⟩ := @ih s1
        (s2 ++ [.node (left.weight + right.weight) left right])
        (by simp only [length_append, length_cons]; omega)
        (by simp only [length_append, length_cons, length_nil]; omega)
      refine ⟨t, hrun, ?_, fun _ => ?_⟩
      · have hall : (q1 ++ q2).Perm (left :: right :: (s1 ++ s2)) :=
          hperm.trans (hperm'.cons left)
        refine hsymbols.trans (List.Perm.trans ?_ (hall.flatMap_right _).symm)
        simp only [flatMap_append, flatMap_cons, flatMap_nil, TreeNode.symbols,
          append_nil]
        have hswap : ((s1.flatMap TreeNode.symbols ++ s2.flatMap TreeNode.symbols)
            ++ (left.symbols ++ right.symbols)).Perm ((left.symbols ++ right.symbols)
            ++ (s1.flatMap TreeNode.symbols ++ s2.flatMap TreeNode.symbols)) :=
          perm_append_comm
        simpa only [append_assoc] using hswap
      · by_cases hmore : 1 < s1.length + (s2 ++ [TreeNode.node (left.weight + right.weight)
            left right]).length
        · exact hnode hmore
        · -- the merged node is the only one left
          have hnil1 : s1 = [] := by
            rw [length_append, length_singleton] at hmore
            exact length_eq_zero_iff.mp (by omega)
          have hnil2 : s2 = [] := by
            rw [length_append, length_singleton] at hmore
            exact length_eq_zero_iff.mp (by omega)
          subst hnil1 hnil2
          refine ⟨left.weight + right.weight, left, right, ?_⟩
          cases fuel with
          | zero =>
            exact (singleton_inj.mp hrun).symm
          | succ fuel =>
            exact (singleton_inj.mp hrun).symm
    next hfew =>
      obtain ⟨t, ht, hperm⟩ := hsingle q1 q2 (by omega)
      exact ⟨t, ht, hperm, fun h => by omega⟩

theorem leafQueue_length : (leafQueue freq).length = (usedSymbols freq).length := by
  rw [leafQueue, length_map, length_mergeSort]

theorem leafQueue_symbols :
    ((leafQueue freq).flatMap TreeNode.symbols).Perm (usedSymbols freq) := by
  have hmap : ∀ syms : List Nat, (syms.map fun i => TreeNode.leaf (freq.getD i 0) i).flatMap
      TreeNode.symbols = syms := by
    intro syms
    induction syms with
    | nil => rfl
    | cons i syms ih => rw [map_cons, flatMap_cons, ih]; rfl
  rw [leafQueue, hmap]
  exact mergeSort_perm _ _

/-- What is known about the leaves of the finished tree. -/
structure Leaves (m : Nat) (leaves : List (Nat × Nat)) : Prop where
  symbols : (leaves.map (·.1)).Perm (usedSymbols freq)
  depth_pos : ∀ p ∈ leaves, 1 ≤ p.2
  balance : (deep m leaves = 0 ∧ cutKraft m leaves = 2 ^ m) ∨
    (0 < deep m leaves ∧ cutKraft m leaves < 2 ^ m + deep m leaves)

theorem symbolDepths_leaves {freq : List Nat} (m : Nat) (h : 1 < (usedSymbols freq).length) :
    Leaves freq m (symbolDepths freq) := by
  obtain ⟨t, hrun, hperm, hnode⟩ := @mergeQueues_spec (leafQueue freq) []
    (usedSymbols freq).length
    (by rw [leafQueue_length, length_nil]; omega)
    (by rw [leafQueue_length, length_nil]; omega)
  obtain ⟨w, l, r, rfl⟩ := hnode (by rw [leafQueue_length]; simpa using h)
  have hleaves : symbolDepths freq = (TreeNode.node w l r).codeDepths 0 := by
    rw [symbolDepths, hrun, flatMap_cons, flatMap_nil, append_nil]
  rw [append_nil] at hperm
  rw [hleaves]
  refine ⟨?_, ?_, cutKraft_codeDepths m _ (Nat.zero_le m)⟩
  · rw [codeDepths_symbols]
    exact hperm.trans (leafQueue_symbols freq)
  · intro p hp
    rw [TreeNode.codeDepths, mem_append] at hp
    rcases hp with hp | hp
    · exact le_codeDepths l 1 p hp
    · exact le_codeDepths r 1 p hp

/-! ## Array writes -/

section Writes

variable {array array' : Nat → Nat} {writes : List (Nat × Nat)}

theorem writeAll_cons (array : Nat → Nat) (w : Nat × Nat) (writes : List (Nat × Nat)) :
    writeAll array (w :: writes) = writeAll (Function.update array w.1 w.2) writes := rfl

theorem writeAll_of_notMem {i : Nat} (h : i ∉ writes.map (·.1)) :
    writeAll array writes i = array i := by
  induction writes generalizing array with
  | nil => rfl
  | cons w writes ih =>
    rw [map_cons, mem_cons, not_or] at h
    rw [writeAll_cons, ih h.2, update_of_ne h.1]

/-- Written places do not depend on the former content. -/
theorem writeAll_congr {i : Nat} (h : i ∉ writes.map (·.1) → array i = array' i) :
    writeAll array writes i = writeAll array' writes i := by
  induction writes generalizing array array' with
  | nil => exact h (by simp)
  | cons w writes ih =>
    rw [writeAll_cons, writeAll_cons]
    refine ih fun hnot => ?_
    by_cases hi : i = w.1
    · rw [hi, update_self, update_self]
    · rw [update_of_ne hi, update_of_ne hi]
      exact h (by simpa [hi] using hnot)

/-- A written value is one of those in the list. -/
theorem writeAll_mem {i : Nat} (h : i ∈ writes.map (·.1)) :
    (i, writeAll array writes i) ∈ writes := by
  induction writes generalizing array with
  | nil => cases h
  | cons w writes ih =>
    rw [writeAll_cons]
    by_cases hrest : i ∈ writes.map (·.1)
    · exact mem_cons_of_mem _ (ih hrest)
    · have hi : i = w.1 := by
        rw [map_cons, mem_cons] at h
        exact h.resolve_right hrest
      rw [writeAll_of_notMem hrest, hi, update_self]
      exact mem_cons_self

/-- Writing once at each place adds up the weights of what is written. -/
theorem sum_writeAll (weight : Nat → Nat) (hzero : weight 0 = 0) {size : Nat}
    (hnodup : (writes.map (·.1)).Nodup) (hbound : ∀ p ∈ writes, p.1 < size)
    (hfresh : ∀ p ∈ writes, array p.1 = 0) :
    ∑ i ∈ Finset.range size, weight (writeAll array writes i)
      = ∑ i ∈ Finset.range size, weight (array i) + (writes.map fun p => weight p.2).sum := by
  induction writes generalizing array with
  | nil => simp [writeAll]
  | cons w writes ih =>
    rw [map_cons, nodup_cons] at hnodup
    have hsum : ∑ i ∈ Finset.range size, weight (Function.update array w.1 w.2 i)
        = ∑ i ∈ Finset.range size, weight (array i) + weight w.2 := by
      have hmem : w.1 ∈ Finset.range size := Finset.mem_range.mpr (hbound w mem_cons_self)
      rw [← Finset.add_sum_erase _ _ hmem, ← Finset.add_sum_erase _ _ hmem,
        update_self, hfresh w mem_cons_self, hzero, Nat.zero_add, Nat.add_comm]
      congr 1
      refine Finset.sum_congr rfl fun i hi => ?_
      rw [update_of_ne (Finset.ne_of_mem_erase hi)]
    rw [writeAll_cons, ih hnodup.2 (fun p hp => hbound p (mem_cons_of_mem _ hp)) ?_, hsum,
      map_cons, sum_cons, Nat.add_assoc]
    intro p hp
    have hne : p.1 ≠ w.1 := by
      intro heq
      exact hnodup.1 (heq ▸ mem_map_of_mem hp)
    rw [update_of_ne hne]
    exact hfresh p (mem_cons_of_mem _ hp)

end Writes

/-! ## Counts per length -/

theorem sum_map_range (f : Nat → Nat) (size : Nat) :
    ((List.range size).map f).sum = ∑ i ∈ Finset.range size, f i := rfl

theorem sum_map_range' (f : Nat → Nat) (m : Nat) :
    ((List.range' 1 m).map f).sum = ∑ d ∈ Finset.Icc 1 m, f d := rfl

/-- Grouping the entries of a list by value. -/
theorem sum_count_mul (vs : List Nat) (s : Finset Nat) (g : Nat → Nat) :
    ∑ d ∈ s, vs.count d * g d = (vs.map fun v => if v ∈ s then g v else 0).sum := by
  induction vs with
  | nil => simp
  | cons v vs ih =>
    rw [map_cons, sum_cons, ← ih, ← Finset.sum_ite_eq s v g, ← Finset.sum_add_distrib]
    refine Finset.sum_congr rfl fun d _ => ?_
    by_cases hvd : v = d
    · simp [hvd, Nat.add_mul, Nat.add_comm]
    · simp [hvd]

variable {d m total kraft : Nat} {bl : Nat → Nat}

theorem depthCount_writeAll {leaves : List (Nat × Nat)}
    (hnodup : (leaves.map (·.1)).Nodup) (hbound : ∀ p ∈ leaves, p.1 < size) (hd : d ≠ 0) :
    depthCount size (writeAll (fun _ => 0) leaves) d = (leaves.map (·.2)).count d := by
  have hsum := @sum_writeAll (fun _ => 0) leaves (fun v => if v = d then 1 else 0)
    (if_neg hd.symm) size hnodup hbound (fun _ _ => rfl)
  rw [depthCount, ← sum_indicator, map_map, sum_map_range, ← sum_indicator, map_map]
  simpa [hd.symm, comp_def] using hsum

/-- Moving the deep symbols onto the limit counts the depths cut at the limit. -/
theorem clampCount_eq {leaves : List (Nat × Nat)} {maxDepth : Nat}
    (hnodup : (leaves.map (·.1)).Nodup) (hbound : ∀ p ∈ leaves, p.1 < size)
    (hmax : ∀ p ∈ leaves, p.2 ≤ maxDepth) (hd : 1 ≤ d) (hdm : d ≤ m) :
    clampCount size m maxDepth (writeAll (fun _ => 0) leaves) d
      = (leaves.map fun p => min p.2 m).count d := by
  have hcount : ∀ k, k ≠ 0 → depthCount size (writeAll (fun _ => 0) leaves) k
      = (leaves.map (·.2)).count k := fun k hk => depthCount_writeAll hnodup hbound hk
  unfold clampCount
  rcases Nat.eq_or_lt_of_le hdm with heq | hlt
  · have hover : ∑ k ∈ Finset.Icc (m + 1) maxDepth,
        depthCount size (writeAll (fun _ => 0) leaves) k
        = ((leaves.map (·.2)).map fun v =>
          if v ∈ Finset.Icc (m + 1) maxDepth then 1 else 0).sum := by
      rw [← sum_count_mul]
      refine Finset.sum_congr rfl fun k hk => ?_
      rw [hcount k (by have := (Finset.mem_Icc.mp hk).1; omega), Nat.mul_one]
    simp only [heq, lt_irrefl, if_false, if_true, hover]
    rw [hcount m (by omega), ← sum_indicator, ← sum_indicator, map_map, map_map,
      map_map, ← sum_map_add]
    congr 1
    refine map_congr_left fun p hp => ?_
    have hp := hmax p hp
    simp only [comp_apply, Finset.mem_Icc]
    split_ifs <;> omega
  · simp only [if_pos hlt]
    rw [hcount d (by omega), ← sum_indicator, ← sum_indicator, map_map, map_map]
    congr 1
    refine map_congr_left fun p _ => ?_
    simp only [comp_apply]
    split_ifs <;> omega

/-! ## The redistribution -/

/-- What a change of one count does to a weighted sum. -/
theorem sum_update_mul {s : Finset Nat} (bl weight : Nat → Nat) (hi : i ∈ s) (v : Nat) :
    ∑ d ∈ s, Function.update bl i v d * weight d + bl i * weight i
      = ∑ d ∈ s, bl d * weight d + v * weight i := by
  rw [← Finset.add_sum_erase _ _ hi, ← Finset.add_sum_erase _ (fun d => bl d * weight d) hi,
    update_self]
  have hrest : ∑ d ∈ s.erase i, Function.update bl i v d * weight d
      = ∑ d ∈ s.erase i, bl d * weight d :=
    Finset.sum_congr rfl fun d hd => by rw [update_of_ne (Finset.ne_of_mem_erase hd)]
  rw [hrest]
  ring

theorem levelDown_le (bl : Nat → Nat) (n : Nat) : levelDown bl n ≤ n := by
  induction n with
  | zero => exact le_rfl
  | succ n ih =>
    rw [levelDown]
    split
    · exact ih.trans (Nat.le_succ n)
    · exact le_rfl

theorem levelDown_used (h : levelDown bl n ≠ 0) : bl (levelDown bl n) ≠ 0 := by
  induction n with
  | zero => exact absurd rfl h
  | succ n ih =>
    rw [levelDown] at h ⊢
    split at h
    next hzero =>
      rw [if_pos hzero]
      exact ih h
    next hused =>
      rw [if_neg hused]
      exact hused

theorem levelDown_zero (h : levelDown bl n = 0) : ∀ d, 1 ≤ d → d ≤ n → bl d = 0 := by
  induction n with
  | zero => intro d hd hdn; omega
  | succ n ih =>
    intro d hd hdn
    rw [levelDown] at h
    split at h
    next hzero =>
      rcases Nat.eq_or_lt_of_le hdn with heq | hlt
      · rw [heq]
        exact hzero
      · exact ih h d hd (by omega)
    next => cases h

/-- The counts during the loop: their Kraft sum exceeds its limit by less than the
number of the longest codes, and `total` symbols are counted. -/
structure Shrinking (m total kraft : Nat) (bl : Nat → Nat) : Prop where
  sum : kraftSum m bl = kraft
  total : ∑ d ∈ Finset.Icc 1 m, bl d = total
  slack : kraft ≤ 2 ^ m ∨ kraft < 2 ^ m + bl m

/-- A loop that is not done finds a shorter length to split. -/
theorem Shrinking.level (h : Shrinking m total kraft bl) (hm : 1 ≤ m) (htotal : total ≤ 2 ^ m)
    (hkraft : kraft > 2 ^ m) :
    levelDown bl (m - 1) ≠ 0 ∧ bl m ≠ 0 := by
  constructor
  · intro hzero
    -- only the longest codes are in use, and they are too few to exceed the limit
    have hsum := h.sum
    have hcount := h.total
    have hlast : m ∈ Finset.Icc 1 m := Finset.mem_Icc.mpr ⟨hm, le_rfl⟩
    have hnone : ∀ d ∈ (Finset.Icc 1 m).erase m, bl d = 0 := by
      intro d hd
      obtain ⟨hne, hmem⟩ := Finset.mem_erase.mp hd
      obtain ⟨hlow, hhigh⟩ := Finset.mem_Icc.mp hmem
      exact levelDown_zero hzero d hlow (by omega)
    rw [kraftSum, ← Finset.add_sum_erase _ _ hlast,
      Finset.sum_eq_zero fun d hd => by rw [hnone d hd, Nat.zero_mul]] at hsum
    rw [← Finset.add_sum_erase _ _ hlast, Finset.sum_eq_zero hnone] at hcount
    simp only [Nat.sub_self] at hsum hcount
    omega
  · have hslack := h.slack
    omega

theorem Shrinking.split (h : Shrinking m total kraft bl) (hd : 1 ≤ d) (hdm : d < m)
    (hused : bl d ≠ 0) (hlast : bl m ≠ 0) :
    Shrinking m total (kraft - 1) (splitLevel m d bl) := by
  have hmemd : d ∈ Finset.Icc 1 m := Finset.mem_Icc.mpr ⟨hd, by omega⟩
  have hmemn : d + 1 ∈ Finset.Icc 1 m := Finset.mem_Icc.mpr ⟨by omega, by omega⟩
  have hmemm : m ∈ Finset.Icc 1 m := Finset.mem_Icc.mpr ⟨by omega, le_rfl⟩
  set bl1 := Function.update bl d (bl d - 1) with hbl1
  set bl2 := Function.update bl1 (d + 1) (bl1 (d + 1) + 2) with hbl2
  have hsplit : splitLevel m d bl = Function.update bl2 m (bl2 m - 1) := rfl
  have hm1 : bl1 m = bl m := by rw [hbl1, update_of_ne (by omega)]
  have hm2 : bl m ≤ bl2 m := by
    rw [hbl2]
    by_cases heq : m = d + 1
    · rw [← heq, update_self, hm1]
      omega
    · rw [update_of_ne heq, hm1]
  -- the three writes, under any weight
  have hweight : ∀ weight : Nat → Nat,
      ∑ k ∈ Finset.Icc 1 m, splitLevel m d bl k * weight k + weight d + weight m
        = ∑ k ∈ Finset.Icc 1 m, bl k * weight k + 2 * weight (d + 1) := by
    intro weight
    have h1 := sum_update_mul bl weight hmemd (bl d - 1)
    have h2 := sum_update_mul bl1 weight hmemn (bl1 (d + 1) + 2)
    have h3 := sum_update_mul bl2 weight hmemm (bl2 m - 1)
    have hsub : bl d * weight d = (bl d - 1) * weight d + weight d := by
      rw [← Nat.succ_mul, Nat.succ_eq_add_one, Nat.sub_add_cancel (by omega)]
    have hsub' : bl2 m * weight m = (bl2 m - 1) * weight m + weight m := by
      rw [← Nat.succ_mul, Nat.succ_eq_add_one, Nat.sub_add_cancel (by omega)]
    rw [← hbl1] at h1
    rw [← hbl2, Nat.add_mul] at h2
    rw [hsplit]
    omega
  have hsum := hweight fun k => 2 ^ (m - k)
  have hcount := hweight fun _ => 1
  have hpow : 2 ^ (m - d) = 2 * 2 ^ (m - (d + 1)) := by
    rw [← pow_succ', show m - (d + 1) + 1 = m - d by omega]
  have hkraftSum := h.sum
  have htotal := h.total
  have hslack := h.slack
  unfold kraftSum at hkraftSum
  simp only [Nat.sub_self] at hsum
  simp only [Nat.mul_one] at hcount
  refine ⟨?_, ?_, ?_⟩
  · rw [kraftSum]
    omega
  · omega
  · have hlastCount : splitLevel m d bl m = bl2 m - 1 := by
      rw [hsplit, update_self]
    omega

/-- **The redistribution ends within the limit and keeps the number of symbols.** -/
theorem shrink_spec (hm : 1 ≤ m) (htotal : total ≤ 2 ^ m)
    (hfuel : kraft ≤ fuel + 2 ^ m) (h : Shrinking m total kraft bl) :
    kraftSum m (shrink m fuel bl kraft) ≤ 2 ^ m ∧
      ∑ d ∈ Finset.Icc 1 m, shrink m fuel bl kraft d = total := by
  induction fuel generalizing bl kraft with
  | zero =>
    rw [shrink, h.sum]
    exact ⟨by omega, h.total⟩
  | succ fuel ih =>
    rw [shrink]
    split
    next hkraft =>
      obtain ⟨hlevel, hlast⟩ := h.level hm htotal hkraft
      have hle := levelDown_le bl (m - 1)
      simp only [hlevel, hlast]
      exact ih (by omega)
        (h.split (by omega) (by omega) (levelDown_used hlevel) hlast)
    next hdone =>
      rw [h.sum]
      exact ⟨by omega, h.total⟩

/-! ## The lengths -/

theorem sum_lengthRun (m : Nat) (bl weight : Nat → Nat) :
    ((lengthRun m bl).map weight).sum = ∑ d ∈ Finset.Icc 1 m, bl d * weight d := by
  rw [← sum_map_range', lengthRun]
  induction List.range' 1 m with
  | nil => rfl
  | cons d ds ih =>
    rw [flatMap_cons, map_append, sum_append, ih, map_cons, sum_cons,
      map_replicate, sum_replicate, smul_eq_mul]

theorem lengthRun_length (m : Nat) (bl : Nat → Nat) :
    (lengthRun m bl).length = ∑ d ∈ Finset.Icc 1 m, bl d := by
  have hsum := sum_lengthRun m bl fun _ => 1
  simpa using hsum

theorem mem_lengthRun {l : Nat} (h : l ∈ lengthRun m bl) :
    1 ≤ l ∧ l ≤ m := by
  obtain ⟨d, hd, hl⟩ := mem_flatMap.mp h
  rw [eq_of_mem_replicate hl]
  rw [mem_range'_1] at hd
  omega

theorem mem_usedSymbols {freq : List Nat} :
    i ∈ usedSymbols freq ↔ i < freq.length ∧ freq.getD i 0 ≠ 0 := by
  simp [usedSymbols]

theorem usedSymbols_nodup (freq : List Nat) : (usedSymbols freq).Nodup :=
  nodup_range.filter _

/-- One length for each used symbol, and the Kraft sum they have. -/
structure LengthsFor (freq : List Nat) (m : Nat) (writes : List (Nat × Nat)) : Prop where
  symbols : (writes.map (·.1)).Perm (usedSymbols freq)
  range : ∀ p ∈ writes, 1 ≤ p.2 ∧ p.2 ≤ m
  kraft : (writes.map fun p => 2 ^ (m - p.2)).sum ≤ 2 ^ m

/-- What the callers rely on. -/
structure GoodLengths (freq : List Nat) (m : Nat) (lens : List Nat) : Prop where
  count : lens.length = freq.length
  bits : ∀ l ∈ lens, l ≤ m
  fits : Fits lens m
  used : ∀ s, freq.getD s 0 ≠ 0 → lens.getD s 0 ≠ 0

section Written

variable {freq : List Nat} {m : Nat} {writes : List (Nat × Nat)}

section

variable (h : LengthsFor freq m writes)
include h

theorem LengthsFor.mem_iff {i : Nat} : i ∈ writes.map (·.1) ↔ i < freq.length ∧ freq.getD i 0 ≠ 0 :=
  h.symbols.mem_iff.trans mem_usedSymbols

theorem LengthsFor.kraft_le :
    CanonicalCode.kraft m ((List.range freq.length).map (writeAll (fun _ => 0) writes)) ≤
      2 ^ m := by
  have hsum := @sum_writeAll (fun _ => 0) writes (kraftShare m) rfl freq.length
    (h.symbols.nodup_iff.mpr (usedSymbols_nodup freq))
    (fun p hp => (h.mem_iff.mp (mem_map_of_mem hp)).1) (fun _ _ => rfl)
  have hshare : writes.map (fun p => kraftShare m p.2) = writes.map fun p => 2 ^ (m - p.2) :=
    map_congr_left fun p hp => by
      rw [kraftShare, if_neg (by have := (h.range p hp).1; omega)]
  rw [CanonicalCode.kraft, map_map, sum_map_range]
  simp only [comp_apply]
  rw [hsum, hshare, show kraftShare m 0 = 0 from rfl, Finset.sum_const_zero, Nat.zero_add]
  exact h.kraft

/-- Exactly the used symbols have a length, and it is within the limit. -/
theorem LengthsFor.written (i : Nat) : (i < freq.length ∧ freq.getD i 0 ≠ 0 →
      1 ≤ writeAll (fun _ => 0) writes i ∧ writeAll (fun _ => 0) writes i ≤ m) ∧
    (¬ (i < freq.length ∧ freq.getD i 0 ≠ 0) → writeAll (fun _ => 0) writes i = 0) := by
  constructor
  · intro hi
    exact h.range _ (writeAll_mem (h.mem_iff.mpr hi))
  · intro hi
    rw [writeAll_of_notMem (fun hmem => hi (h.mem_iff.mp hmem))]

theorem LengthsFor.good :
    GoodLengths freq m ((List.range freq.length).map (writeAll (fun _ => 0) writes)) := by
  constructor
  · rw [length_map, length_range]
  · intro l hl
    obtain ⟨i, -, rfl⟩ := mem_map.mp hl
    by_cases hi : i < freq.length ∧ freq.getD i 0 ≠ 0
    · exact ((h.written i).1 hi).2
    · rw [(h.written i).2 hi]
      exact Nat.zero_le m
  · exact fits_of_kraft h.kraft_le
  · intro s hs
    have hlt : s < freq.length := by
      by_contra hge
      rw [getD_eq_default _ _ (Nat.not_lt.mp hge)] at hs
      exact hs rfl
    rw [getD_eq_getElem _ _ (by simpa using hlt), getElem_map, getElem_range]
    exact Nat.one_le_iff_ne_zero.mp ((h.written s).1 ⟨hlt, hs⟩).1

end

end Written

theorem le_foldl_max (vs : List Nat) (init : Nat) :
    init ≤ vs.foldl max init ∧ ∀ v ∈ vs, v ≤ vs.foldl max init := by
  induction vs generalizing init with
  | nil => simp
  | cons v vs ih =>
    obtain ⟨hinit, hall⟩ := ih (max init v)
    refine ⟨(le_max_left init v).trans hinit, ?_⟩
    intro x hx
    rcases mem_cons.mp hx with rfl | hx
    · exact (le_max_right init x).trans hinit
    · exact hall x hx

section Tree

variable {freq : List Nat} {m : Nat} {leaves : List (Nat × Nat)}

section

variable (h : Leaves freq m leaves)
include h

theorem Leaves.nodup : (leaves.map (·.1)).Nodup :=
  h.symbols.nodup_iff.mpr (usedSymbols_nodup freq)

theorem Leaves.bound : ∀ p ∈ leaves, p.1 < freq.length :=
  fun _ hp => (mem_usedSymbols.mp (h.symbols.mem_iff.mp (mem_map_of_mem hp))).1

/-- The symbols with a depth are the used ones. -/
theorem Leaves.depth_iff (i : Nat) : 0 < writeAll (fun _ => 0) leaves i ↔ i ∈ usedSymbols freq := by
  rw [← h.symbols.mem_iff]
  constructor
  · intro hpos
    by_contra hnot
    rw [writeAll_of_notMem hnot] at hpos
    exact lt_irrefl 0 hpos
  · intro hmem
    exact h.depth_pos _ (writeAll_mem hmem)

theorem Leaves.sortedSymbols_perm :
    (sortedSymbols freq (writeAll (fun _ => 0) leaves)).Perm (usedSymbols freq) := by
  have hfilter : (List.range freq.length).filter (fun i => writeAll (fun _ => 0) leaves i > 0)
      = usedSymbols freq := by
    refine filter_congr fun i hi => ?_
    have hiff := h.depth_iff i
    rw [mem_usedSymbols, and_iff_right (mem_range.mp hi)] at hiff
    exact decide_eq_decide.mpr hiff
  rw [sortedSymbols, hfilter]
  exact mergeSort_perm _ _

/-- The counts that the redistribution starts from. -/
theorem Leaves.shrinking (hm : 1 ≤ m) {maxDepth : Nat} (hmax : ∀ p ∈ leaves, p.2 ≤ maxDepth) :
    Shrinking m leaves.length
      (kraftSum m (clampCount freq.length m maxDepth (writeAll (fun _ => 0) leaves)))
      (clampCount freq.length m maxDepth (writeAll (fun _ => 0) leaves)) := by
  have hcut : ∀ weight : Nat → Nat, ∑ d ∈ Finset.Icc 1 m,
      clampCount freq.length m maxDepth (writeAll (fun _ => 0) leaves) d * weight d
        = (leaves.map fun p => weight (min p.2 m)).sum := by
    intro weight
    have hcount := sum_count_mul (leaves.map fun p => min p.2 m) (Finset.Icc 1 m) weight
    rw [map_map] at hcount
    rw [Finset.sum_congr rfl fun d hd => by
      rw [clampCount_eq h.nodup h.bound hmax (Finset.mem_Icc.mp hd).1 (Finset.mem_Icc.mp hd).2],
      hcount]
    congr 1
    refine map_congr_left fun p hp => ?_
    have hpos := h.depth_pos p hp
    rw [comp_apply, if_pos (Finset.mem_Icc.mpr ⟨by omega, by omega⟩)]
  refine ⟨rfl, ?_, ?_⟩
  · have htotal := hcut fun _ => 1
    simpa using htotal
  · have hkraft : kraftSum m (clampCount freq.length m maxDepth (writeAll (fun _ => 0) leaves))
        = cutKraft m leaves := by
      rw [kraftSum, hcut fun d => 2 ^ (m - d), cutKraft]
      congr 1
      refine map_congr_left fun p _ => ?_
      rw [show m - min p.2 m = m - p.2 by omega]
    have hlong : deep m leaves
        ≤ clampCount freq.length m maxDepth (writeAll (fun _ => 0) leaves) m := by
      rw [clampCount_eq h.nodup h.bound hmax hm le_rfl, deep, List.count, countP_map]
      refine countP_mono_left fun p _ hp => ?_
      simp only [decide_eq_true_eq] at hp
      simp only [comp_apply, beq_iff_eq]
      omega
    have hbalance := h.balance
    omega

theorem Leaves.limitDepths_lengthsFor (hm : 1 ≤ m)
    (hsize : freq.length ≤ 2 ^ m) {maxDepth : Nat} (hmax : ∀ p ∈ leaves, p.2 ≤ maxDepth) :
    ∃ writes, LengthsFor freq m writes ∧
      (List.range freq.length).map (limitDepths freq m maxDepth (writeAll (fun _ => 0) leaves))
        = (List.range freq.length).map (writeAll (fun _ => 0) writes) := by
  set depths := writeAll (fun _ => 0) leaves with hdepths
  set bl := clampCount freq.length m maxDepth depths with hbl
  set final := shrink m (kraftSum m bl) bl (kraftSum m bl) with hfinal
  have hperm := h.sortedSymbols_perm
  have hcount : leaves.length = (usedSymbols freq).length := by
    rw [← length_map (·.1), h.symbols.length_eq]
  have hle : (usedSymbols freq).length ≤ freq.length :=
    (length_filter_le _ _).trans_eq length_range
  obtain ⟨hkraft, htotal⟩ := shrink_spec hm (show leaves.length ≤ 2 ^ m by omega)
    (Nat.le_add_right _ _) (h.shrinking hm hmax)
  have hrun : (lengthRun m final).length = (sortedSymbols freq depths).length := by
    rw [lengthRun_length, htotal, hcount, hperm.length_eq]
  have hsyms : ((sortedSymbols freq depths).zip (lengthRun m final)).map (·.1)
      = sortedSymbols freq depths := map_fst_zip hrun.ge
  have hlens : ((sortedSymbols freq depths).zip (lengthRun m final)).map (·.2)
      = lengthRun m final := map_snd_zip hrun.le
  refine ⟨(sortedSymbols freq depths).zip (lengthRun m final), ⟨?_, ?_, ?_⟩, ?_⟩
  · rw [hsyms]
    exact hperm
  · intro p hp
    exact mem_lengthRun (hlens ▸ mem_map_of_mem hp)
  · have hsum := sum_lengthRun m final fun d => 2 ^ (m - d)
    rw [← hlens, map_map] at hsum
    exact hsum.trans_le hkraft
  · -- Every symbol that has a depth is written again, so the depths before do not matter.
    refine map_congr_left fun i _ => ?_
    refine writeAll_congr fun hnot => ?_
    rw [hsyms, hperm.mem_iff, ← h.depth_iff i] at hnot
    exact Nat.eq_zero_of_not_pos hnot

end

end Tree

/-- **`build_lengths` writes one length within the limit for each used symbol**, and
leaves the others at zero. -/
theorem buildLengths_lengthsFor {freq : List Nat} {m : Nat} (hm : 1 ≤ m)
    (hsize : freq.length ≤ 2 ^ m) :
    ∃ writes, LengthsFor freq m writes ∧
      buildLengths freq m = (List.range freq.length).map (writeAll (fun _ => 0) writes) := by
  unfold buildLengths
  simp only
  split_ifs with hnone hone hdeep
  · have hempty : usedSymbols freq = [] := length_eq_zero_iff.mp hnone
    refine ⟨[], ⟨by rw [hempty]; exact List.Perm.refl _, by simp, by simp⟩, ?_⟩
    rw [show writeAll (fun _ => 0) [] = fun _ => 0 from rfl, map_const', length_range]
  · obtain ⟨s, hs⟩ := length_eq_one_iff.mp hone
    refine ⟨[(s, 1)], ⟨by rw [hs]; exact List.Perm.refl _, by simpa using hm,
      by simpa using Nat.pow_le_pow_right (by decide) (Nat.sub_le m 1)⟩, ?_⟩
    refine map_congr_left fun i hi => ?_
    have hmem : i ∈ usedSymbols freq ↔ i = s := by rw [hs, mem_singleton]
    rw [mem_usedSymbols, and_iff_right (mem_range.mp hi)] at hmem
    simp only [hmem, writeAll, foldl_cons, foldl_nil, update_apply]
  · have hleaves := @symbolDepths_leaves freq m (by omega)
    refine hleaves.limitDepths_lengthsFor hm hsize fun p hp => ?_
    exact (le_foldl_max _ 0).2 _ (mem_map_of_mem hp)
  · have hleaves := @symbolDepths_leaves freq m (by omega)
    have hshallow : ∀ p ∈ symbolDepths freq, p.2 ≤ m := fun p hp =>
      ((le_foldl_max _ 0).2 _ (mem_map_of_mem hp)).trans (Nat.not_lt.mp hdeep)
    refine ⟨symbolDepths freq, ⟨hleaves.symbols,
      fun p hp => ⟨hleaves.depth_pos p hp, hshallow p hp⟩, ?_⟩, rfl⟩
    have hzero : deep m (symbolDepths freq) = 0 :=
      countP_eq_zero.mpr fun p hp => by simpa using hshallow p hp
    have hbalance := hleaves.balance
    unfold cutKraft at hbalance
    omega

/-- What the callers rely on: every used symbol has a code within the limit, and the
codes fit. -/
theorem buildLengths_good {freq : List Nat} {m : Nat} (hm : 1 ≤ m) (hsize : freq.length ≤ 2 ^ m) :
    GoodLengths freq m (buildLengths freq m) := by
  obtain ⟨writes, hwrites, heq⟩ := buildLengths_lengthsFor hm hsize
  rw [heq]
  exact hwrites.good

/-! ## The codes -/

theorem nextCode_eq (lens : List Nat) (bits : Nat) :
    nextCode lens (bits + 1) = 2 * upper lens bits := by
  induction bits with
  | zero => rfl
  | succ bits ih => rw [nextCode, ih, upper, if_neg (Nat.succ_ne_zero bits)]

/-- The codes handed out are the canonical ones. -/
theorem buildCodes_getD {lens : List Nat} {s : Nat} (hs : s < lens.length)
    (hused : lens.getD s 0 ≠ 0) : (buildCodes lens).getD s 0 = codeOf lens s := by
  have hassign := assign_getD (nextCode lens) lens hs
  rw [getD_eq_getElem _ _ (by simpa using hs)] at hassign
  rw [getD_eq_getElem _ _ hs] at hused
  rw [buildCodes, getD_eq_getElem _ _ (by simpa using hs), getElem_zipWith,
    if_pos hused, hassign, getD_eq_getElem _ _ hs, codeOf, getD_eq_getElem _ _ hs]
  obtain ⟨l, hl⟩ := Nat.exists_eq_succ_of_ne_zero hused
  rw [hl, Nat.succ_eq_add_one, nextCode_eq, Nat.add_sub_cancel]

end HuffmanBuilder

end OpenRar.Compress
