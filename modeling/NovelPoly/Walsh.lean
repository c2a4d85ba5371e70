import Mathlib.Data.ZMod.Basic
import NovelPoly.Local

/-!
The fast Walsh–Hadamard transform `walsh` of `RSErasureCode.c`, over residues modulo `MODULO`.

A stage of half-width `d` replaces each pair `(i, i + d)` of a block by its folded sum and folded
difference `data[i] + MODULO - data[i+d]`, stored into 16 bits. The pairs of a stage are disjoint,
so a stage has a pointwise closed form (`walshStage_apply`). On 16-bit inputs the single fold is
exact and the 16-bit store truncates nothing, and read in `ZMod 65535` a stage is the plain
butterfly `(a, b) ↦ (a + b, a - b)` (`walshStage_cast`). A block reads only its own cells, so a
transform of size `2^m` reads and writes only the cells below `2^m` (`walsh_localOn`).
-/

namespace NovelPoly

open Function

/-! ### The model -/

/-- The body of `walsh`'s `i` loop on the pair `(i, i + depart_no)`: the folded sum goes to `i`,
the folded difference `data[i] + MODULO - data[i+depart_no]` (taken first, as `tmp2`) to `i + d`. -/
def walshBfly (data : Buf) (d i : Nat) : Buf :=
  let tmp2 := data i + 65535 - data (i + d)
  let data := update data i (foldMod (data i + data (i + d)) % 65536)
  update data (i + d) (foldMod tmp2 % 65536)

/-- The `j` block of a `walsh` stage: `for (i = j; i < depart_no + j; i++)`. -/
def walshBlock (d : Nat) (data : Buf) (j : Nat) : Buf :=
  (forRange j (d + j)).foldl (fun data i => walshBfly data d i) data

/-- One stage of `walsh`: `for (j = 0; j < size; j += depart_no << 1)`. -/
def walshStage (size : Nat) (data : Buf) (d : Nat) : Buf :=
  (forStep 0 size (2 * d)).foldl (walshBlock d) data

/-- `walsh(data, size)`: stages `depart_no = 1, 2, 4, … < size`. -/
def walsh (data : Buf) (size : Nat) : Buf := (doublings size).foldl (walshStage size) data

/-! ### Closed forms -/

section ClosedForms

variable {d : Nat}

theorem walshBfly_local (i : Nat) : LocalOn (fun x => walshBfly x d i) (pairRegion d i) := by
  refine ⟨fun x t ht => ?_, fun x y h t ht => ?_⟩
  · simp only [pairRegion, not_or] at ht
    simp only [walshBfly, update_noteq ht.1, update_noteq ht.2]
  · have hi := h i (Or.inl rfl); have hd := h (i + d) (Or.inr rfl)
    rcases ht with rfl | rfl <;> simp only [walshBfly, update_apply, hi, hd]

theorem walshBlock_local (j : Nat) : LocalOn (fun x => walshBlock d x j) (blockRegion d (j + d)) :=
  (foldl_localOn _ _ _ (fun i _ => walshBfly_local i) (by
    refine pairwise_disjoint_of_nodup _ (forRange_nodup _ _) fun a ha b hb hab t => ?_
    rw [mem_forRange] at ha hb; simp only [pairRegion]; omega)).mono fun t ⟨i, hi, ht⟩ => by
      rw [mem_forRange] at hi; simp only [pairRegion, blockRegion] at ht ⊢; omega

/-- A block of a stage: folded sums in its low half, folded differences in its high half. -/
theorem walshBlock_apply (hd : 0 < d) (x : Buf) (j t : Nat) :
    walshBlock d x j t =
      if j ≤ t ∧ t < j + d then foldMod (x t + x (t + d)) % 65536
      else if j + d ≤ t ∧ t < j + 2 * d then foldMod (x (t - d) + 65535 - x t) % 65536
      else x t := by
  have hdisj : (forRange j (d + j)).Pairwise (fun a b => ∀ t, pairRegion d a t → ¬ pairRegion d b t) := by
    refine pairwise_disjoint_of_nodup _ (forRange_nodup _ _) fun a ha b hb hab t => ?_
    rw [mem_forRange] at ha hb; simp only [pairRegion]; omega
  split_ifs with h1 h2
  · rw [walshBlock, foldl_apply _ _ _ (fun i _ => walshBfly_local i) hdisj x
      (mem_forRange.2 (by omega)) (Or.inl rfl)]
    simp only [walshBfly, update_noteq (show t ≠ t + d by omega), update_same]
  · rw [walshBlock, foldl_apply _ _ _ (fun i _ => walshBfly_local i) hdisj x
      (mem_forRange.2 (by omega) : t - d ∈ _) (Or.inr (by omega))]
    simp only [walshBfly, Nat.sub_add_cancel (show d ≤ t by omega), update_same]
  · exact (walshBlock_local j).frame x t (by simp only [blockRegion]; omega)

/-- A stage over a buffer whose length is a multiple of the block width `2d`. -/
theorem walshStage_apply (hd : 0 < d) {size : Nat} (hsize : 2 * d ∣ size) (x : Buf) (t : Nat) :
    walshStage size x d t =
      if t < size then
        if t % (2 * d) < d then foldMod (x t + x (t + d)) % 65536
        else foldMod (x (t - d) + 65535 - x t) % 65536
      else x t := by
  have hdisj : (forStep 0 size (2 * d)).Pairwise
      (fun a b => ∀ t, blockRegion d (a + d) t → ¬ blockRegion d (b + d) t) :=
    pairwise_disjoint_of_nodup _ (forStep_nodup (by omega)) fun a ha b hb hab t => by
      have := forStep_apart (by omega) ha hb hab
      simp only [blockRegion]; omega
  by_cases ht : t < size
  · rw [if_pos ht]
    have hq := Nat.mod_lt t (show 0 < 2 * d by omega)
    have hq' := Nat.mod_le t (2 * d)
    have hj : t - t % (2 * d) ∈ forStep 0 size (2 * d) := (mem_forStep (by omega)).2
      ⟨Nat.zero_le _, by omega, by rw [Nat.sub_zero]; exact Nat.dvd_sub_mod t⟩
    rw [walshStage, foldl_apply _ _ _ (fun j _ => walshBlock_local j) hdisj x hj
      (by simp only [blockRegion]; omega), walshBlock_apply hd]
    split_ifs <;> first | rfl | omega
  · rw [if_neg ht]
    exact foldl_frame _ _ _ (fun j _ => walshBlock_local j) x t fun j hj => by
        obtain ⟨-, hjs, hdvd⟩ := (mem_forStep (by omega)).1 hj
        have := add_le_of_dvd (by simpa using hdvd) hsize hjs
        simp only [blockRegion]; omega

/-- On a 16-bit input of a buffer whose length is a multiple of `2d`, a stage keeps every cell
16-bit, and modulo `MODULO` it is the butterfly `(a, b) ↦ (a + b, a - b)`. -/
theorem walshStage_cast (hd : 0 < d) {size : Nat} (hsize : 2 * d ∣ size) {x : Buf}
    (hx : ∀ t < size, x t ≤ 65535) {t : Nat} (ht : t < size) :
    walshStage size x d t ≤ 65535 ∧
      (walshStage size x d t : ZMod 65535) =
        if t % (2 * d) < d then (x t : ZMod 65535) + x (t + d) else (x (t - d) : ZMod 65535) - x t := by
  have hq := Nat.mod_lt t (show 0 < 2 * d by omega)
  have hq' := Nat.mod_le t (2 * d)
  have hroom := add_le_of_dvd (Nat.dvd_sub_mod t) hsize (by omega : t - t % (2 * d) < size)
  rw [walshStage_apply hd hsize, if_pos ht]
  split_ifs with hlow
  · have hs : x t + x (t + d) ≤ 131070 := by
      have := hx t ht; have := hx (t + d) (by omega); omega
    rw [Nat.mod_eq_of_lt (Nat.lt_succ_of_le (foldMod_le hs))]
    refine ⟨foldMod_le hs, ?_⟩
    rw [← Nat.cast_add, ZMod.natCast_eq_natCast_iff', foldMod_mod]
  · have h1 := hx t ht; have h2 := hx (t - d) (by omega)
    have hs : x (t - d) + 65535 - x t ≤ 131070 := by omega
    rw [Nat.mod_eq_of_lt (Nat.lt_succ_of_le (foldMod_le hs))]
    refine ⟨foldMod_le hs, ?_⟩
    rw [(ZMod.natCast_eq_natCast_iff' _ _ _).2 (foldMod_mod _), Nat.cast_sub (by omega), Nat.cast_add,
      show ((65535 : Nat) : ZMod 65535) = 0 from rfl, add_zero]

/-- A stage leaves the cells beyond the buffer untouched. -/
theorem walshStage_frame (hd : 0 < d) {size : Nat} (hsize : 2 * d ∣ size) (x : Buf) {t : Nat}
    (ht : size ≤ t) : walshStage size x d t = x t := by
  rw [walshStage_apply hd hsize, if_neg (by omega)]

/-- A stage over a buffer whose length is a multiple of `2d` reads and writes only the buffer. -/
theorem walshStage_localOn (hd : 0 < d) {size : Nat} (hsize : 2 * d ∣ size) :
    LocalOn (fun x => walshStage size x d) (· < size) := by
  refine ⟨fun x t ht => walshStage_frame hd hsize x (Nat.le_of_not_lt ht), fun x y h t ht => ?_⟩
  have hroom := add_le_of_dvd (Nat.dvd_sub_mod t) hsize (by omega : t - t % (2 * d) < size)
  have hq := Nat.mod_le t (2 * d)
  rw [walshStage_apply hd hsize, walshStage_apply hd hsize, if_pos ht, if_pos ht]
  split_ifs with hlow
  · rw [h t ht, h (t + d) (by omega)]
  · rw [h t ht, h (t - d) (by omega)]

end ClosedForms

/-- `walsh(data, 2^m)` reads and writes only `data[0 .. 2^m)`. -/
theorem walsh_localOn (m : Nat) : LocalOn (fun x => walsh x (2 ^ m)) (· < 2 ^ m) := by
  unfold walsh
  rw [doublings_two_pow]
  refine foldl_localOn_same _ _ fun d hd => ?_
  obtain ⟨r, hr, rfl⟩ := List.mem_map.1 hd
  exact walshStage_localOn (Nat.two_pow_pos r) (by
    rw [← Nat.pow_succ']; exact Nat.pow_dvd_pow 2 (List.mem_range.1 hr))

end NovelPoly
