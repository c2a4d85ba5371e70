import Mathlib.Algebra.Order.Ring.Nat
import NovelPoly.Transform

/-!
The transforms with the butterflies of each stage fused and reordered.

`IFLT` and `FLT` run a stage block by block and, inside a block, as two passes over its pairs. A
reordered implementation instead runs each butterfly on the pair `(i, i + depart_no)` as one fused
step (`ifltPair`, `fltPair`) and may take the pairs of a stage in any order. Both steps touch only
their own pair, and the pairs of a stage are disjoint, so two steps commute (`LocalOn.comm`) and
every order of a stage gives the same buffer (`foldl_stage_perm`). In the order of the source's loop
nest the fused steps of a block are the block itself (`ifltBlock_eq_pairs`, `fltBlock_eq_pairs`),
so every reordering computes the transforms (`transforms_reorder`).
-/

namespace NovelPoly

open Function

/-! ### The reordered transforms -/

/-- The low cells of the butterfly pairs of a stage of half-width `d`, in the order of the source's
loop nest: `i ∈ [j - d, j)` for the blocks `j = d, 3d, … < size`. -/
def stagePairs (size d : Nat) : List Nat := (forStep d size (2 * d)).flatMap fun j => forRange (j - d) j

/-- The block `j` of the pair whose low cell is `i`: `i - i mod 2d + d`. -/
def pairBlock (d i : Nat) : Nat := i - i % (2 * d) + d

/-- One `IFLT` butterfly as a fused step on the pair `(i, i + d)`: `high ^= low`, then
`low ^= mulE(high, skew)` unless `skew == MODULO`, with the skew factor of the pair's block. -/
def ifltPair (T : Tables) (index d : Nat) (data : Buf) (i : Nat) : Buf :=
  let skew := T.skewVec (pairBlock d i + index - 1)
  let data := update data (i + d) (data (i + d) ^^^ data i)
  if skew ≠ 65535 then update data i (data i ^^^ mulE T (data (i + d)) skew) else data

/-- One `FLT` butterfly as a fused step: `low ^= mulE(high, skew)` unless `skew == MODULO`, then
`high ^= low`. -/
def fltPair (T : Tables) (index d : Nat) (data : Buf) (i : Nat) : Buf :=
  let skew := T.skewVec (pairBlock d i + index - 1)
  let data := if skew ≠ 65535 then update data i (data i ^^^ mulE T (data (i + d)) skew) else data
  update data (i + d) (data (i + d) ^^^ data i)

/-- `IFLT` with the fused steps of stage `depart_no = d` taken in the order `order d`. -/
def ifltReordered (T : Tables) (order : Nat → List Nat) (data : Buf) (size index : Nat) : Buf :=
  (doublings size).foldl (fun data d => (order d).foldl (ifltPair T index d) data) data

/-- `FLT` with the fused steps of stage `depart_no = d` taken in the order `order d`. -/
def fltReordered (T : Tables) (order : Nat → List Nat) (data : Buf) (size index : Nat) : Buf :=
  (halvings size).foldl (fun data d => (order d).foldl (fltPair T index d) data) data

/-! ### One fused step -/

section Pairs

variable (T : Tables) (index : Nat) {d : Nat}

theorem ifltPair_apply (hd : 0 < d) (x : Buf) (i t : Nat) :
    ifltPair T index d x i t =
      if t = i then x i ^^^ skewMul T (T.skewVec (pairBlock d i + index - 1)) (x (i + d) ^^^ x i)
      else if t = i + d then x (i + d) ^^^ x i else x t := by
  by_cases hs : T.skewVec (pairBlock d i + index - 1) = 65535
  · simp only [ifltPair, skewMul, hs, ne_eq, not_true_eq_false, not_false_eq_true, if_true, if_false,
      update_apply, update_same, if_neg (show i ≠ i + d by omega)]
    split_ifs <;> subst_vars <;> first | rfl | omega | simp
  · simp only [ifltPair, skewMul, hs, ne_eq, not_false_eq_true, if_true, if_false, update_apply, update_same,
      if_neg (show i ≠ i + d by omega)]

theorem fltPair_apply (hd : 0 < d) (x : Buf) (i t : Nat) :
    fltPair T index d x i t =
      if t = i then x i ^^^ skewMul T (T.skewVec (pairBlock d i + index - 1)) (x (i + d))
      else if t = i + d then x (i + d) ^^^ (x i ^^^ skewMul T (T.skewVec (pairBlock d i + index - 1)) (x (i + d)))
      else x t := by
  by_cases hs : T.skewVec (pairBlock d i + index - 1) = 65535 <;>
    simp only [fltPair, skewMul, hs, ne_eq, not_true_eq_false, not_false_eq_true, if_true, if_false,
      update_apply, update_same, if_neg (show i + d ≠ i by omega)] <;>
    split_ifs <;> subst_vars <;> first | rfl | omega | simp

theorem ifltPair_local (hd : 0 < d) (i : Nat) : LocalOn (fun x => ifltPair T index d x i) (pairRegion d i) :=
  ⟨fun x t ht => by
    simp only [pairRegion, not_or] at ht; rw [ifltPair_apply T index hd, if_neg ht.1, if_neg ht.2],
   fun x y h t ht => by
    have h1 := h i (Or.inl rfl); have h2 := h (i + d) (Or.inr rfl)
    rcases ht with rfl | rfl <;> simp only [ifltPair_apply T index hd, h1, h2]⟩

theorem fltPair_local (hd : 0 < d) (i : Nat) : LocalOn (fun x => fltPair T index d x i) (pairRegion d i) :=
  ⟨fun x t ht => by
    simp only [pairRegion, not_or] at ht; rw [fltPair_apply T index hd, if_neg ht.1, if_neg ht.2],
   fun x y h t ht => by
    have h1 := h i (Or.inl rfl); have h2 := h (i + d) (Or.inr rfl)
    rcases ht with rfl | rfl <;> simp only [fltPair_apply T index hd, h1, h2]⟩

end Pairs

/-! ### Blocks and stages as fused steps -/

section Stages

variable (T : Tables) (index : Nat) {d : Nat}

theorem mem_stagePairs {size i : Nat} :
    i ∈ stagePairs size d ↔ ∃ j ∈ forStep d size (2 * d), j - d ≤ i ∧ i < j := by
  simp only [stagePairs, List.mem_flatMap, mem_forRange]

/-- A low cell of block `j` has `j` as its block. -/
theorem pairBlock_eq {size j i : Nat} (hd : 0 < d) (hj : j ∈ forStep d size (2 * d))
    (hi : j - d ≤ i ∧ i < j) : pairBlock d i = j := by
  obtain ⟨hdj, -, q, hq⟩ := blocks_spec hd hj
  have hmod : i % (2 * d) = i - (j - d) := by
    rw [show i = i - (j - d) + 2 * d * q by omega, Nat.add_mul_mod_self_left, Nat.mod_eq_of_lt (by omega)]
    omega
  rw [pairBlock, hmod]; omega

/-- A fold of pair steps over one block: a low cell as its own step makes it, a high cell as its
partner's step makes it, and nothing else changes. -/
theorem pairs_apply (f : Buf → Nat → Buf) (hloc : ∀ i, LocalOn (fun x => f x i) (pairRegion d i))
    {j : Nat} (hdj : d ≤ j) (x : Buf) (t : Nat) :
    (forRange (j - d) j).foldl f x t =
      if j - d ≤ t ∧ t < j then f x t t else if j ≤ t ∧ t < j + d then f x (t - d) t else x t := by
  split_ifs with hlo hhi
  · exact foldl_apply _ _ _ (fun i _ => hloc i) (pair_disjoint d j) x (mem_forRange.2 hlo) (Or.inl rfl)
  · exact foldl_apply _ _ _ (fun i _ => hloc i) (pair_disjoint d j) x (j := t - d) (mem_forRange.2 (by omega))
      (Or.inr (by omega))
  · refine foldl_frame _ _ _ (fun i _ => hloc i) x t fun i hi h => ?_
    rw [mem_forRange] at hi; simp only [pairRegion] at h; omega

/-- In the source's order, the fused `IFLT` steps of a block are the block. -/
theorem ifltBlock_eq_pairs {size j : Nat} (hd : 0 < d) (hj : j ∈ forStep d size (2 * d)) (x : Buf) :
    ifltBlock T index d x j = (forRange (j - d) j).foldl (ifltPair T index d) x := by
  have hdj := (blocks_spec hd hj).1
  funext t
  rw [ifltBlock_apply T index hdj, pairs_apply _ (ifltPair_local T index hd) hdj]
  split_ifs with hlo hhi
  · rw [ifltPair_apply T index hd, if_pos rfl, pairBlock_eq hd hj hlo]
  · rw [ifltPair_apply T index hd, if_neg (by omega), if_pos (Nat.sub_add_cancel (by omega)).symm,
      Nat.sub_add_cancel (by omega)]
  · rfl

/-- In the source's order, the fused `FLT` steps of a block are the block. -/
theorem fltBlock_eq_pairs {size j : Nat} (hd : 0 < d) (hj : j ∈ forStep d size (2 * d)) (x : Buf) :
    fltBlock T index d x j = (forRange (j - d) j).foldl (fltPair T index d) x := by
  have hdj := (blocks_spec hd hj).1
  funext t
  rw [fltBlock_apply T index hdj, pairs_apply _ (fltPair_local T index hd) hdj]
  split_ifs with hlo hhi
  · rw [fltPair_apply T index hd, if_pos rfl, pairBlock_eq hd hj hlo]
  · rw [fltPair_apply T index hd, if_neg (by omega), if_pos (Nat.sub_add_cancel (by omega)).symm,
      Nat.sub_add_cancel (by omega), pairBlock_eq hd hj ⟨by omega, by omega⟩]
  · rfl

theorem foldl_flatMap {α β : Type} (f : β → α → β) (g : α → List α) :
    ∀ (l : List α) (b : β), (l.flatMap g).foldl f b = l.foldl (fun b a => (g a).foldl f b) b
  | [], _ => rfl
  | a :: l, b => by rw [List.flatMap_cons, List.foldl_append, List.foldl_cons, foldl_flatMap f g l]

/-- A stage in any order of its pairs: distinct pairs of a stage are disjoint, so their steps
commute. -/
theorem foldl_stage_perm (size : Nat) (hd : 0 < d) (f : Buf → Nat → Buf)
    (hloc : ∀ i, LocalOn (fun x => f x i) (pairRegion d i)) {order : List Nat}
    (horder : order.Perm (stagePairs size d)) (x : Buf) :
    order.foldl f x = (stagePairs size d).foldl f x := by
  refine horder.foldl_eq' (fun i hi i' hi' z => ?_) x
  rcases eq_or_ne i i' with rfl | hne
  · rfl
  obtain ⟨j, hj, hij⟩ := mem_stagePairs.1 (horder.subset hi)
  obtain ⟨j', hj', hij'⟩ := mem_stagePairs.1 (horder.subset hi')
  refine LocalOn.comm (hloc i) (hloc i') (fun t ht ht' => ?_) z
  simp only [pairRegion] at ht ht'
  rcases eq_or_ne j j' with rfl | hjj
  · omega
  · have := blocks_apart hd hj hj' hjj; omega

theorem ifltStage_eq_pairs (size : Nat) (hd : 0 < d) (x : Buf) :
    ifltStage T size index x d = (stagePairs size d).foldl (ifltPair T index d) x := by
  rw [stagePairs, foldl_flatMap, ifltStage]
  exact List.foldl_ext _ _ _ fun y j hj => ifltBlock_eq_pairs T index hd hj y

theorem fltStage_eq_pairs (size : Nat) (hd : 0 < d) (x : Buf) :
    fltStage T size index x d = (stagePairs size d).foldl (fltPair T index d) x := by
  rw [stagePairs, foldl_flatMap, fltStage]
  exact List.foldl_ext _ _ _ fun y j hj => fltBlock_eq_pairs T index hd hj y

end Stages

/-- Running the butterflies of every stage as fused steps, the pairs of each stage
`depart_no = 2^r` in any order, computes `IFLT` and `FLT`, for every power-of-two size, every offset,
every skew table and every buffer. -/
theorem transforms_reorder (T : Tables) (m index : Nat) (order : Nat → List Nat)
    (horder : ∀ r < m, (order (2 ^ r)).Perm (stagePairs (2 ^ m) (2 ^ r))) (data : Buf) :
    ifltReordered T order data (2 ^ m) index = IFLT T data (2 ^ m) index ∧
      fltReordered T order data (2 ^ m) index = FLT T data (2 ^ m) index := by
  have hstage : ∀ d ∈ (List.range m).map (2 ^ ·), 0 < d ∧ (order d).Perm (stagePairs (2 ^ m) d) := by
    simp only [List.mem_map, List.mem_range]
    rintro _ ⟨r, hr, rfl⟩
    exact ⟨Nat.two_pow_pos r, horder r hr⟩
  constructor
  · rw [ifltReordered, IFLT, doublings_two_pow]
    refine List.foldl_ext _ _ _ fun x d hd => ?_
    obtain ⟨hd0, hperm⟩ := hstage d hd
    rw [ifltStage_eq_pairs T index _ hd0, foldl_stage_perm _ hd0 _ (ifltPair_local T index hd0) hperm]
  · rw [fltReordered, FLT, halvings_two_pow]
    refine List.foldl_ext _ _ _ fun x d hd => ?_
    obtain ⟨hd0, hperm⟩ := hstage d (List.mem_reverse.1 hd)
    rw [fltStage_eq_pairs T index _ hd0, foldl_stage_perm _ hd0 _ (fltPair_local T index hd0) hperm]

theorem transforms_reorder_reversed :
    (∀ r < 2, ((stagePairs (2 ^ 2) (2 ^ r)).reverse).Perm (stagePairs (2 ^ 2) (2 ^ r))) ∧
    (ifltReordered Tables.zero (fun d => (stagePairs (2 ^ 2) d).reverse) (fun t => t + 1) (2 ^ 2) 0 =
        IFLT Tables.zero (fun t => t + 1) (2 ^ 2) 0 ∧
      fltReordered Tables.zero (fun d => (stagePairs (2 ^ 2) d).reverse) (fun t => t + 1) (2 ^ 2) 0 =
        FLT Tables.zero (fun t => t + 1) (2 ^ 2) 0) :=
  ⟨fun _ _ => List.reverse_perm _,
    transforms_reorder Tables.zero 2 0 _ (fun _ _ => List.reverse_perm _) (fun t => t + 1)⟩

end NovelPoly
