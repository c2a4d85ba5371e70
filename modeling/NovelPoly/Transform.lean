import Mathlib.Data.Nat.Bitwise
import NovelPoly.Local

/-!
The transform pair `IFLT` / `FLT` of `RSErasureCode.c`, the basis-specific butterfly network.

Both run `log₂ size` stages. In a stage of half-width `d = depart_no`, the block `j` pairs each low
cell `i ∈ [j-d, j)` with the high cell `i + d`. `IFLT` first XORs every low cell into its high cell,
then, unless the block's skew factor `skewVec[j + index - 1]` is the sentinel `MODULO`, XORs
`mulE(high, skew)` into the low cell; `FLT` does the same two passes in the other order, with the
stages in the other order. Each pass has a closed form because it writes only cells it never reads
(`xorPass_apply`, `mulPass_apply`); each block then has one (`ifltBlock_apply`, `fltBlock_apply`),
and a stage is its blocks side by side. From these: the two transforms undo each other for every
power-of-two size, every offset and every skew table (`flt_iflt_inverse`).
-/

namespace NovelPoly

open Function

/-! ### The model -/

/-- `for (i = j-depart_no; i < j; i++) data[i+depart_no] ^= data[i];` -/
def xorPass (data : Buf) (d j : Nat) : Buf :=
  (forRange (j - d) j).foldl (fun data i => update data (i + d) (data (i + d) ^^^ data i)) data

/-- `for (i = j-depart_no; i < j; i++) data[i] ^= mulE(data[i+depart_no], skew);` -/
def mulPass (T : Tables) (data : Buf) (d j skew : Nat) : Buf :=
  (forRange (j - d) j).foldl (fun data i => update data i (data i ^^^ mulE T (data (i + d)) skew)) data

/-- The body of `IFLT`'s `j` loop: the XOR pass, then the skew pass unless `skew == MODULO`. -/
def ifltBlock (T : Tables) (index d : Nat) (data : Buf) (j : Nat) : Buf :=
  let data := xorPass data d j
  let skew := T.skewVec (j + index - 1)
  if skew ≠ 65535 then mulPass T data d j skew else data

/-- One stage of `IFLT`: the blocks `j = depart_no, 3·depart_no, … < size`. -/
def ifltStage (T : Tables) (size index : Nat) (data : Buf) (d : Nat) : Buf :=
  (forStep d size (2 * d)).foldl (ifltBlock T index d) data

/-- `IFLT(data, size, index)`: the inverse transform, stages `depart_no = 1, 2, …`. -/
def IFLT (T : Tables) (data : Buf) (size index : Nat) : Buf :=
  (doublings size).foldl (ifltStage T size index) data

/-- The body of `FLT`'s `j` loop: the skew pass unless `skew == MODULO`, then the XOR pass. -/
def fltBlock (T : Tables) (index d : Nat) (data : Buf) (j : Nat) : Buf :=
  let skew := T.skewVec (j + index - 1)
  let data := if skew ≠ 65535 then mulPass T data d j skew else data
  xorPass data d j

/-- One stage of `FLT`: the blocks `j = depart_no, 3·depart_no, … < size`. -/
def fltStage (T : Tables) (size index : Nat) (data : Buf) (d : Nat) : Buf :=
  (forStep d size (2 * d)).foldl (fltBlock T index d) data

/-- `FLT(data, size, index)`: the forward transform, stages `depart_no = size/2, …, 1`. -/
def FLT (T : Tables) (data : Buf) (size index : Nat) : Buf :=
  (halvings size).foldl (fltStage T size index) data

/-- What the skew pass XORs into a low cell whose high partner holds `v`: `mulE(v, skew)`, or
nothing when `skew` is the sentinel `MODULO`. -/
def skewMul (T : Tables) (skew v : Nat) : Nat := if skew = 65535 then 0 else mulE T v skew

/-! ### Closed forms of the passes and blocks -/

section Passes

variable (T : Tables) {d j : Nat}

theorem pair_disjoint (d j : Nat) :
    (forRange (j - d) j).Pairwise (fun a b => ∀ t, pairRegion d a t → ¬ pairRegion d b t) := by
  refine pairwise_disjoint_of_nodup _ (forRange_nodup _ _) fun a ha b hb hab t => ?_
  rw [mem_forRange] at ha hb
  simp only [pairRegion]; omega

theorem xorPass_step_local (i : Nat) :
    LocalOn (fun x => update x (i + d) (x (i + d) ^^^ x i)) (pairRegion d i) :=
  LocalOn.update (Or.inr rfl) fun x y h => by
    rw [h _ (Or.inr rfl), h _ (Or.inl rfl)]

theorem lowPass_step_local (G : Nat → Nat) (i : Nat) :
    LocalOn (fun x => update x i (x i ^^^ G (x (i + d)))) (pairRegion d i) :=
  LocalOn.update (Or.inl rfl) fun x y h => by
    rw [h _ (Or.inr rfl), h _ (Or.inl rfl)]

theorem xorPass_local : LocalOn (fun x => xorPass x d j) (blockRegion d j) :=
  (foldl_localOn _ _ _ (fun i _ => xorPass_step_local i) (pair_disjoint d j)).mono
    fun t ⟨i, hi, ht⟩ => by
      rw [mem_forRange] at hi; simp only [pairRegion, blockRegion] at ht ⊢; omega

theorem lowPass_local (G : Nat → Nat) :
    LocalOn (fun x => (forRange (j - d) j).foldl (fun x i => update x i (x i ^^^ G (x (i + d)))) x)
      (blockRegion d j) :=
  (foldl_localOn _ _ _ (fun i _ => lowPass_step_local G i) (pair_disjoint d j)).mono
    fun t ⟨i, hi, ht⟩ => by
      rw [mem_forRange] at hi; simp only [pairRegion, blockRegion] at ht ⊢; omega

theorem mulPass_local (skew : Nat) : LocalOn (fun x => mulPass T x d j skew) (blockRegion d j) :=
  lowPass_local fun v => mulE T v skew

/-- The XOR pass adds each low cell into its high partner and changes nothing else. -/
theorem xorPass_apply (hdj : d ≤ j) (x : Buf) (t : Nat) :
    xorPass x d j t = if j ≤ t ∧ t < j + d then x t ^^^ x (t - d) else x t := by
  split_ifs with ht
  · have hi : t - d ∈ forRange (j - d) j := mem_forRange.2 (by omega)
    rw [xorPass, foldl_apply _ _ _ (fun i _ => xorPass_step_local i) (pair_disjoint d j) x hi
      (Or.inr (by omega)), Nat.sub_add_cancel (by omega), update_same]
  · by_cases hl : j - d ≤ t ∧ t < j
    · have hi : t ∈ forRange (j - d) j := mem_forRange.2 hl
      rw [xorPass, foldl_apply _ _ _ (fun i _ => xorPass_step_local i) (pair_disjoint d j) x hi
        (Or.inl rfl), update_noteq (by omega)]
    · exact xorPass_local.frame x t (by simp only [blockRegion]; omega)

/-- A pass that adds `G` of each high cell into its low partner, as the skew pass and
`formal_derivative` do, changes only the low cells. -/
theorem lowPass_apply (G : Nat → Nat) (hdj : d ≤ j) (x : Buf) (t : Nat) :
    (forRange (j - d) j).foldl (fun x i => update x i (x i ^^^ G (x (i + d)))) x t =
      if j - d ≤ t ∧ t < j then x t ^^^ G (x (t + d)) else x t := by
  have hloc := fun i (_ : i ∈ forRange (j - d) j) => lowPass_step_local (d := d) G i
  split_ifs with ht
  · rw [foldl_apply _ _ _ hloc (pair_disjoint d j) x (mem_forRange.2 ht) (Or.inl rfl), update_same]
  · by_cases hh : j ≤ t ∧ t < j + d
    · rw [foldl_apply _ _ _ hloc (pair_disjoint d j) x (j := t - d) (mem_forRange.2 (by omega))
        (Or.inr (by omega)), update_noteq (by omega)]
    · refine (lowPass_local G).frame x t ?_
      simp only [blockRegion]; omega

/-- The skew pass adds `mulE(high, skew)` into each low cell and changes nothing else. -/
theorem mulPass_apply (hdj : d ≤ j) (skew : Nat) (x : Buf) (t : Nat) :
    mulPass T x d j skew t = if j - d ≤ t ∧ t < j then x t ^^^ mulE T (x (t + d)) skew else x t :=
  lowPass_apply (fun v => mulE T v skew) hdj x t

theorem ifltBlock_local (index : Nat) : LocalOn (fun x => ifltBlock T index d x j) (blockRegion d j) :=
  xorPass_local.comp (LocalOn.ite (mulPass_local T _) LocalOn.id)

theorem fltBlock_local (index : Nat) : LocalOn (fun x => fltBlock T index d x j) (blockRegion d j) :=
  (LocalOn.ite (mulPass_local T _) LocalOn.id).comp xorPass_local

theorem ite_skew_apply (hdj : d ≤ j) (s : Nat) (x : Buf) (t : Nat) :
    (if s ≠ 65535 then mulPass T x d j s else x) t =
      if j - d ≤ t ∧ t < j then x t ^^^ skewMul T s (x (t + d)) else x t := by
  by_cases hs : s = 65535 <;> simp [hs, skewMul, mulPass_apply T hdj]

/-- One `IFLT` block: high `← high ⊕ low`, then low `← low ⊕ skew·high`. -/
theorem ifltBlock_apply (index : Nat) (hdj : d ≤ j) (x : Buf) (t : Nat) :
    ifltBlock T index d x j t =
      if j - d ≤ t ∧ t < j then x t ^^^ skewMul T (T.skewVec (j + index - 1)) (x (t + d) ^^^ x t)
      else if j ≤ t ∧ t < j + d then x t ^^^ x (t - d) else x t := by
  simp only [ifltBlock, ite_skew_apply T hdj, xorPass_apply hdj]
  split_ifs <;> first | rfl | omega | rw [Nat.add_sub_cancel]

/-- One `FLT` block: low `← low ⊕ skew·high`, then high `← high ⊕ low`. -/
theorem fltBlock_apply (index : Nat) (hdj : d ≤ j) (x : Buf) (t : Nat) :
    fltBlock T index d x j t =
      if j - d ≤ t ∧ t < j then x t ^^^ skewMul T (T.skewVec (j + index - 1)) (x (t + d))
      else if j ≤ t ∧ t < j + d then x t ^^^ (x (t - d) ^^^ skewMul T (T.skewVec (j + index - 1)) (x t))
      else x t := by
  simp only [fltBlock, ite_skew_apply T hdj, xorPass_apply hdj]
  split_ifs <;> first | rfl | omega | rw [Nat.sub_add_cancel (by omega)]

/-- The `FLT` block undoes the `IFLT` block. -/
theorem fltBlock_ifltBlock (index : Nat) (hdj : d ≤ j) (x : Buf) :
    fltBlock T index d (ifltBlock T index d x j) j = x := by
  funext t
  simp only [fltBlock_apply T index hdj, ifltBlock_apply T index hdj]
  split_ifs <;> first | omega | rfl |
    simp (disch := omega) only [Nat.add_sub_cancel, Nat.sub_add_cancel, Nat.xor_assoc,
      xor_left_comm, Nat.xor_self, Nat.xor_zero, Nat.xor_cancel_left]

/-- The `IFLT` block undoes the `FLT` block. -/
theorem ifltBlock_fltBlock (index : Nat) (hdj : d ≤ j) (x : Buf) :
    ifltBlock T index d (fltBlock T index d x j) j = x := by
  funext t
  simp only [fltBlock_apply T index hdj, ifltBlock_apply T index hdj]
  split_ifs <;> first | omega | rfl |
    simp (disch := omega) only [Nat.add_sub_cancel, Nat.sub_add_cancel, Nat.xor_assoc,
      xor_left_comm, Nat.xor_self, Nat.xor_zero, Nat.xor_cancel_left]

end Passes

/-! ### Stages and the inverse law -/

section Stages

variable (T : Tables) {d : Nat}

theorem blocks_spec {size j : Nat} (hd : 0 < d) (hj : j ∈ forStep d size (2 * d)) :
    d ≤ j ∧ j < size ∧ 2 * d ∣ j - d :=
  (mem_forStep (by omega)).1 hj

/-- Distinct blocks of one stage are at least a block width apart. -/
theorem blocks_apart {size j j' : Nat} (hd : 0 < d) (hj : j ∈ forStep d size (2 * d))
    (hj' : j' ∈ forStep d size (2 * d)) (hne : j ≠ j') : j + d ≤ j' - d ∨ j' + d ≤ j - d := by
  have := forStep_apart (by omega) hj hj' hne
  have := (blocks_spec hd hj).1; have := (blocks_spec hd hj').1
  omega

theorem blocks_disjoint (size : Nat) (hd : 0 < d) :
    (forStep d size (2 * d)).Pairwise (fun a b => ∀ t, blockRegion d a t → ¬ blockRegion d b t) :=
  pairwise_disjoint_of_nodup _ (forStep_nodup (by omega)) fun a ha b hb hab t => by
    have := blocks_apart hd ha hb hab
    simp only [blockRegion]; omega

theorem fltStage_ifltStage (size index : Nat) (hd : 0 < d) (x : Buf) :
    fltStage T size index (ifltStage T size index x d) d = x :=
  foldl_cancel _ _ _ _ (fun _ _ => ifltBlock_local T index) (fun _ _ => fltBlock_local T index)
    (blocks_disjoint size hd) (fun _ hj x => fltBlock_ifltBlock T index (blocks_spec hd hj).1 x) x

theorem ifltStage_fltStage (size index : Nat) (hd : 0 < d) (x : Buf) :
    ifltStage T size index (fltStage T size index x d) d = x :=
  foldl_cancel _ _ _ _ (fun _ _ => fltBlock_local T index) (fun _ _ => ifltBlock_local T index)
    (blocks_disjoint size hd) (fun _ hj x => ifltBlock_fltBlock T index (blocks_spec hd hj).1 x) x

/-- A cell of block `j` ends a `FLT` stage as the block alone makes it. -/
theorem fltStage_apply (size index : Nat) (hd : 0 < d) (x : Buf) {j t : Nat}
    (hj : j ∈ forStep d size (2 * d)) (ht : blockRegion d j t) :
    fltStage T size index x d t = fltBlock T index d x j t :=
  foldl_apply _ _ _ (fun _ _ => fltBlock_local T index) (blocks_disjoint size hd) x hj ht

/-- A cell of block `j` ends an `IFLT` stage as the block alone makes it. -/
theorem ifltStage_apply (size index : Nat) (hd : 0 < d) (x : Buf) {j t : Nat}
    (hj : j ∈ forStep d size (2 * d)) (ht : blockRegion d j t) :
    ifltStage T size index x d t = ifltBlock T index d x j t :=
  foldl_apply _ _ _ (fun _ _ => ifltBlock_local T index) (blocks_disjoint size hd) x hj ht

theorem stages_pos (m : Nat) : ∀ d ∈ (List.range m).map (2 ^ ·), 0 < d := by
  simp only [List.mem_map]; rintro _ ⟨r, -, rfl⟩; exact Nat.two_pow_pos r

theorem IFLT_FLT (m index : Nat) (data : Buf) : IFLT T (FLT T data (2 ^ m) index) (2 ^ m) index = data := by
  simp only [IFLT, FLT, doublings_two_pow, halvings_two_pow]
  exact foldl_reverse_cancel' _ _ _ (fun d hd y => ifltStage_fltStage T _ _ (stages_pos m d hd) y) data

theorem FLT_IFLT (m index : Nat) (data : Buf) : FLT T (IFLT T data (2 ^ m) index) (2 ^ m) index = data := by
  simp only [IFLT, FLT, doublings_two_pow, halvings_two_pow]
  exact foldl_reverse_cancel _ _ _ (fun d hd y => fltStage_ifltStage T _ _ (stages_pos m d hd) y) data

/-- `FLT` and `IFLT` undo each other, for every power-of-two size, every offset `index`, every
skew table and every buffer: the stages run in reverse order and each block is inverted. -/
theorem flt_iflt_inverse (m index : Nat) (data : Buf) :
    IFLT T (FLT T data (2 ^ m) index) (2 ^ m) index = data ∧
      FLT T (IFLT T data (2 ^ m) index) (2 ^ m) index = data :=
  ⟨IFLT_FLT T m index data, FLT_IFLT T m index data⟩

end Stages

end NovelPoly
