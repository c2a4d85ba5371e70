import NovelPoly.Bounds
import NovelPoly.Skew

/-!
`FLT` evaluates in the novel basis, and `IFLT` interpolates.

Both transforms read and write only the block `[0, size)` (`FLT_localOn`, `IFLT_localOn`); with
the inverse law this makes `IFLT(V)` the one block whose `FLT` is `V`, for every skew table
(`FLT_eq_iff_IFLT_eq`). For the values, the stages of `FLT` run `depart_no = 2^(m-1), …, 1`, and
after the stages above `2^r` each block of width `2^r` holds the coefficients of a polynomial in
`X̂_0, …, X̂_{2^r - 1}` that agrees with `P = ∑ D[i] X̂_i` on the block's points (`EvalInv`). A stage
keeps this because on each half of a block `Ŵ_r` is constant, `c` on the low half and `c + 1` on
the high one, with `c = Ŵ_r(index + S)` the factor whose logarithm `init_dec` stored in the skew
cell the butterfly reads (`fltStage_bfly`, `evalInv_step`). At width `1` a block is one value of `P`.
-/
namespace NovelPoly

open Finset Function

/-! ### Locality of the transforms -/

/-- A stage reads and writes only cells below `size`. -/
theorem stage_localOn (size : Nat) {d : Nat} (hd : 0 < d) (hsize : 2 * d ∣ size) {g : Buf → Nat → Buf}
    (hg : ∀ j, LocalOn (fun x => g x j) (blockRegion d j)) :
    LocalOn (fun x => (forStep d size (2 * d)).foldl g x) (· < size) :=
  (foldl_localOn g _ _ (fun j _ => hg j) (blocks_disjoint size hd)).mono fun t ⟨j, hj, ht⟩ => by
    have := block_end_le hd hsize hj; simp only [blockRegion] at ht; omega

theorem two_pow_stage_dvd {r m : Nat} (hr : r < m) : 2 * 2 ^ r ∣ 2 ^ m := by
  rw [← pow_succ']; exact Nat.pow_dvd_pow 2 hr

theorem fltStage_localOn (T : Tables) (index : Nat) {r m : Nat} (hr : r < m) :
    LocalOn (fun x => fltStage T (2 ^ m) index x (2 ^ r)) (· < 2 ^ m) :=
  stage_localOn _ (Nat.two_pow_pos r) (two_pow_stage_dvd hr) fun _ => fltBlock_local T index

theorem ifltStage_localOn (T : Tables) (index : Nat) {r m : Nat} (hr : r < m) :
    LocalOn (fun x => ifltStage T (2 ^ m) index x (2 ^ r)) (· < 2 ^ m) :=
  stage_localOn _ (Nat.two_pow_pos r) (two_pow_stage_dvd hr) fun _ => ifltBlock_local T index

theorem FLT_localOn (T : Tables) (m index : Nat) : LocalOn (fun x => FLT T x (2 ^ m) index) (· < 2 ^ m) := by
  simp only [FLT, halvings_two_pow]
  refine foldl_localOn_same _ _ fun d hd => ?_
  obtain ⟨r, hr, rfl⟩ := List.mem_map.1 (List.mem_reverse.1 hd)
  exact fltStage_localOn T index (List.mem_range.1 hr)

theorem IFLT_localOn (T : Tables) (m index : Nat) : LocalOn (fun x => IFLT T x (2 ^ m) index) (· < 2 ^ m) := by
  simp only [IFLT, doublings_two_pow]
  refine foldl_localOn_same _ _ fun d hd => ?_
  obtain ⟨r, hr, rfl⟩ := List.mem_map.1 hd
  exact ifltStage_localOn T index (List.mem_range.1 hr)

/-- `IFLT(V)` is the one coefficient block whose `FLT` is `V`: both transforms read and write only
the block, and they undo each other. -/
theorem FLT_eq_iff_IFLT_eq (T : Tables) (m index : Nat) (V D : Buf) :
    (∀ t < 2 ^ m, FLT T D (2 ^ m) index t = V t) ↔ (∀ t < 2 ^ m, IFLT T V (2 ^ m) index t = D t) := by
  constructor
  · intro h t ht
    rw [(IFLT_localOn T m index).reads V _ (fun t ht => (h t ht).symm) t ht, IFLT_FLT]
  · intro h t ht
    rw [(FLT_localOn T m index).reads D _ (fun t ht => (h t ht).symm) t ht, FLT_IFLT]

/-! ### `FLT` evaluates -/

/-- A multiple of `2^r` starts the low or the high half of a block of width `2^(r+1)`. -/
theorem block_start {r s : Nat} (hs : 2 ^ r ∣ s) : ∃ S, 2 ^ (r + 1) ∣ S ∧ (s = S ∨ s = S + 2 ^ r) := by
  obtain ⟨k, rfl⟩ := hs
  rcases Nat.even_or_odd' k with ⟨j, rfl | rfl⟩
  · exact ⟨2 ^ r * (2 * j), ⟨j, by ring⟩, Or.inl rfl⟩
  · exact ⟨2 ^ r * (2 * j), ⟨j, by ring⟩, Or.inr (by ring)⟩

/-- Every cell lies in the low or the high half of a block of width `2^(r+1)`. -/
theorem block_decomp (r t : Nat) :
    ∃ S i, 2 ^ (r + 1) ∣ S ∧ i < 2 ^ r ∧ S ≤ t ∧ (t = S + i ∨ t = S + 2 ^ r + i) := by
  have h1 := Nat.div_add_mod t (2 ^ (r + 1))
  have h2 := Nat.mod_lt t (Nat.two_pow_pos (r + 1))
  have hP : 2 ^ (r + 1) = 2 * 2 ^ r := by rw [pow_succ, mul_comm]
  refine ⟨2 ^ (r + 1) * (t / 2 ^ (r + 1)), ?_⟩
  by_cases hlow : t % 2 ^ (r + 1) < 2 ^ r
  · exact ⟨t % 2 ^ (r + 1), Dvd.intro _ rfl, hlow, by omega, Or.inl h1.symm⟩
  · exact ⟨t % 2 ^ (r + 1) - 2 ^ r, Dvd.intro _ rfl, by omega, by omega, Or.inr (by omega)⟩

theorem eq_val_of_sym {n : Nat} {a : GFSymbol} (hn : n < 65536) (h : sym n = a) : n = a.val := by
  rw [← h, val_sym hn]

section Evaluate

variable {T : Tables} (hT : SkewSpec T)

/-- The block of stage `2^r` at `S` of a transform of size `2^m` at `index` reads the skew cell of
level `r` at the block start `index + S`, and multiplies by `Ŵ_r(index + S)`. -/
theorem skewMul_block (hT : SkewSpec T) {m r index S v : Nat} (hrm : r < m) (hm : m ≤ 16)
    (hidx : 2 ^ m ∣ index) (hle : index + 2 ^ m ≤ 65536) (hS : 2 ^ (r + 1) ∣ S) (hSm : S < 2 ^ m)
    (hv : v < 65536) :
    skewMul T (T.skewVec (S + 2 ^ r + index - 1)) v = (sym v * What r (sym (index + S))).val := by
  have hr1 : 2 ^ (r + 1) ∣ 2 ^ m := Nat.pow_dvd_pow 2 hrm
  have hend : S + 2 ^ (r + 1) ≤ 2 ^ m := add_le_of_dvd hS hr1 hSm
  obtain ⟨b, hb⟩ : 2 ^ (r + 1) ∣ index + S := Nat.dvd_add (Nat.dvd_trans hr1 hidx) hS
  have hb16 : b < 2 ^ (15 - r) := by
    refine Nat.lt_of_mul_lt_mul_left (a := 2 ^ (r + 1)) ?_
    rw [← hb, ← pow_add, show r + 1 + (15 - r) = 16 by omega]; omega
  have hcell : S + 2 ^ r + index - 1 = skewCell r b := by
    rw [skewCell, ← hb]; have := Nat.two_pow_pos r; omega
  rw [hcell, hT r (by omega) b hb16 v hv, hb]

/-- Block `S + 2^r` is one of the blocks of stage `2^r`. -/
theorem block_mem {m r S : Nat} (hrm : r < m) (hS : 2 ^ (r + 1) ∣ S) (hSm : S < 2 ^ m) :
    S + 2 ^ r ∈ forStep (2 ^ r) (2 ^ m) (2 * 2 ^ r) := by
  have hP : 2 ^ (r + 1) = 2 * 2 ^ r := by rw [pow_succ, mul_comm]
  have := add_le_of_dvd hS (Nat.pow_dvd_pow 2 hrm) hSm
  exact (mem_forStep (by omega)).2 ⟨by omega, by omega, by rw [Nat.add_sub_cancel, ← hP]; exact hS⟩

section Butterflies

variable (hT : SkewSpec T) {m r index S i : Nat} (hrm : r < m) (hm : m ≤ 16) (hidx : 2 ^ m ∣ index)
  (hle : index + 2 ^ m ≤ 65536) (hS : 2 ^ (r + 1) ∣ S) (hSm : S < 2 ^ m) (hi : i < 2 ^ r) {x : Buf}
  (hx : ∀ t, x t < 65536)

include hT hrm hm hidx hle hS hSm hi hx

/-- The butterfly of `FLT` stage `2^r` on the block at `S`, in field terms: with
`c = Ŵ_r(index + S)`, the low half becomes `X + c·Y` and the high half `X + (c + 1)·Y`. -/
theorem fltStage_bfly :
    fltStage T (2 ^ m) index x (2 ^ r) (S + i) =
        (sym (x (S + i)) + What r (sym (index + S)) * sym (x (S + 2 ^ r + i))).val ∧
      fltStage T (2 ^ m) index x (2 ^ r) (S + 2 ^ r + i) =
        (sym (x (S + i)) + (What r (sym (index + S)) + 1) * sym (x (S + 2 ^ r + i))).val := by
  have hend := add_le_of_dvd hS (Nat.pow_dvd_pow 2 hrm) hSm
  have hP : 2 ^ (r + 1) = 2 * 2 ^ r := by rw [pow_succ, mul_comm]
  have hj := block_mem hrm hS hSm
  have hskew := skewMul_block hT hrm hm hidx hle hS hSm (hx (S + 2 ^ r + i))
  constructor
  · rw [fltStage_apply T _ _ (Nat.two_pow_pos r) x hj ⟨by omega, by omega⟩, fltBlock_apply T index (by omega),
      if_pos ⟨by omega, by omega⟩, Nat.add_right_comm S i, hskew]
    refine eq_val_of_sym (Nat.xor_lt_two_pow (n := 16) (hx _) (GFSymbol.isLt _)) ?_
    rw [sym_xor, sym_val]; ring
  · rw [fltStage_apply T _ _ (Nat.two_pow_pos r) x hj ⟨by omega, by omega⟩, fltBlock_apply T index (by omega),
      if_neg (by omega), if_pos ⟨by omega, by omega⟩, show S + 2 ^ r + i - 2 ^ r = S + i by omega, hskew]
    refine eq_val_of_sym (Nat.xor_lt_two_pow (n := 16) (hx _)
      (Nat.xor_lt_two_pow (n := 16) (hx _) (GFSymbol.isLt _))) ?_
    rw [sym_xor, sym_xor, sym_val]; ring

/-- The butterfly of `IFLT` stage `2^r` on the block at `S`: the high half becomes `X + Y`, and
the low half `X + c·(X + Y)`. -/
theorem ifltStage_bfly :
    ifltStage T (2 ^ m) index x (2 ^ r) (S + i) =
        (sym (x (S + i)) + What r (sym (index + S)) * (sym (x (S + i)) + sym (x (S + 2 ^ r + i)))).val ∧
      ifltStage T (2 ^ m) index x (2 ^ r) (S + 2 ^ r + i) = (sym (x (S + i)) + sym (x (S + 2 ^ r + i))).val := by
  have hend := add_le_of_dvd hS (Nat.pow_dvd_pow 2 hrm) hSm
  have hP : 2 ^ (r + 1) = 2 * 2 ^ r := by rw [pow_succ, mul_comm]
  have hj := block_mem hrm hS hSm
  have hskew := skewMul_block hT hrm hm hidx hle hS hSm
    (Nat.xor_lt_two_pow (n := 16) (hx (S + 2 ^ r + i)) (hx (S + i)))
  constructor
  · rw [ifltStage_apply T _ _ (Nat.two_pow_pos r) x hj ⟨by omega, by omega⟩, ifltBlock_apply T index (by omega),
      if_pos ⟨by omega, by omega⟩, Nat.add_right_comm S i, hskew]
    refine eq_val_of_sym (Nat.xor_lt_two_pow (n := 16) (hx _) (GFSymbol.isLt _)) ?_
    rw [sym_xor, sym_val, sym_xor]; ring
  · rw [ifltStage_apply T _ _ (Nat.two_pow_pos r) x hj ⟨by omega, by omega⟩, ifltBlock_apply T index (by omega),
      if_neg (by omega), if_pos ⟨by omega, by omega⟩, show S + 2 ^ r + i - 2 ^ r = S + i by omega]
    refine eq_val_of_sym (Nat.xor_lt_two_pow (n := 16) (hx _) (hx _)) ?_
    rw [sym_xor, add_comm]

end Butterflies

section Stages

variable (hT : SkewSpec T) {m r index : Nat} (hrm : r < m) (hm : m ≤ 16) (hidx : 2 ^ m ∣ index)
  (hle : index + 2 ^ m ≤ 65536) {x : Buf} (hx : ∀ t, x t < 65536)

include hT hrm hm hidx hle hx

/-- An `FLT` stage keeps every cell a symbol. -/
theorem fltStage_lt (t : Nat) : fltStage T (2 ^ m) index x (2 ^ r) t < 65536 := by
  by_cases ht : t < 2 ^ m
  · obtain ⟨S, i, hS, hi, hSt, rfl | rfl⟩ := block_decomp r t
    · rw [(fltStage_bfly hT hrm hm hidx hle hS (by omega) hi hx).1]; exact GFSymbol.isLt _
    · rw [(fltStage_bfly hT hrm hm hidx hle hS (by omega) hi hx).2]; exact GFSymbol.isLt _
  · rw [(fltStage_localOn T index hrm).frame x t ht]; exact hx t

/-- An `IFLT` stage keeps every cell a symbol. -/
theorem ifltStage_lt (t : Nat) : ifltStage T (2 ^ m) index x (2 ^ r) t < 65536 := by
  by_cases ht : t < 2 ^ m
  · obtain ⟨S, i, hS, hi, hSt, rfl | rfl⟩ := block_decomp r t
    · rw [(ifltStage_bfly hT hrm hm hidx hle hS (by omega) hi hx).1]; exact GFSymbol.isLt _
    · rw [(ifltStage_bfly hT hrm hm hidx hle hS (by omega) hi hx).2]; exact GFSymbol.isLt _
  · rw [(ifltStage_localOn T index hrm).frame x t ht]; exact hx t

end Stages

/-- `IFLT` maps symbols to symbols. -/
theorem IFLT_lt (hT : SkewSpec T) {m index : Nat} (hm : m ≤ 16) (hidx : 2 ^ m ∣ index)
    (hle : index + 2 ^ m ≤ 65536) {x : Buf} (hx : ∀ t, x t < 65536) (t : Nat) :
    IFLT T x (2 ^ m) index t < 65536 := by
  rw [IFLT, doublings_two_pow]
  suffices ∀ l : List Nat, (∀ r ∈ l, r < m) → ∀ x : Buf, (∀ t, x t < 65536) →
      ∀ t, (l.map (2 ^ ·)).foldl (ifltStage T (2 ^ m) index) x t < 65536 from
    this _ (fun r hr => List.mem_range.1 hr) x hx t
  intro l
  induction l with
  | nil => exact fun _ x hx => hx
  | cons r l ih =>
    exact fun hl x hx => ih (fun r' hr' => hl r' (.tail _ hr')) _
      (ifltStage_lt hT (hl r (.head _)) hm hidx hle hx)

/-- After the `FLT` stages above `2^r`: every cell holds a symbol, and each block `[s, s + 2^r)`
holds the coefficients, in `X̂_0, …, X̂_{2^r - 1}`, of a polynomial that agrees with `P` on the
block's points `index + s + t`. -/
structure EvalInv (P : GFSymbol → GFSymbol) (m index r : Nat) (x : Buf) : Prop where
  lt : ∀ t, x t < 65536
  eval : ∀ s, 2 ^ r ∣ s → s < 2 ^ m → ∀ t < 2 ^ r,
    ∑ i ∈ range (2 ^ r), sym (x (s + i)) * Xhat i (sym (index + s + t)) = P (sym (index + s + t))

include hT in
/-- One `FLT` stage halves the blocks and keeps their polynomials: on each half of a block,
`Ŵ_r` is constant, so `∑_{i < 2^(r+1)} c_i X̂_i = ∑_{i < 2^r} (c_i + Ŵ_r · c_{2^r+i}) X̂_i` there. -/
theorem evalInv_step {P : GFSymbol → GFSymbol} {m index r : Nat} (hrm : r < m) (hm : m ≤ 16)
    (hidx : 2 ^ m ∣ index) (hle : index + 2 ^ m ≤ 65536) {x : Buf} (h : EvalInv P m index (r + 1) x) :
    EvalInv P m index r (fltStage T (2 ^ m) index x (2 ^ r)) := by
  have bfly := fun {S i} hS hSm hi => fltStage_bfly hT (S := S) (i := i) hrm hm hidx hle hS hSm hi h.lt
  have hr1 : 2 ^ (r + 1) ∣ index := Nat.dvd_trans (Nat.pow_dvd_pow 2 hrm) hidx
  refine ⟨fltStage_lt hT hrm hm hidx hle h.lt, ?_⟩
  · intro s hs hsm t ht
    obtain ⟨S, hS, hsS | hsS⟩ := block_start hs <;> subst s
    · rw [← h.eval S hS hsm t (by rw [pow_succ]; omega), sum_Xhat_split (by omega)]
      refine sum_congr rfl fun i hi => ?_
      rw [(bfly hS hsm (mem_range.1 hi)).1, sym_val, ← Nat.add_assoc,
        What_low (by omega) (Nat.dvd_add hr1 hS) ht]
    · have hSm : S < 2 ^ m := by omega
      rw [show index + (S + 2 ^ r) + t = index + S + (2 ^ r + t) by omega,
        ← h.eval S hS hSm (2 ^ r + t) (by rw [pow_succ]; omega), sum_Xhat_split (by omega)]
      refine sum_congr rfl fun i hi => ?_
      rw [(bfly hS hSm (mem_range.1 hi)).2, sym_val, ← Nat.add_assoc S,
        What_high (by omega) (Nat.dvd_add hr1 hS) ht]

include hT in
theorem evalInv_run {P : GFSymbol → GFSymbol} {m index : Nat} (hm : m ≤ 16) (hidx : 2 ^ m ∣ index)
    (hle : index + 2 ^ m ≤ 65536) : ∀ r ≤ m, ∀ x, EvalInv P m index r x →
      EvalInv P m index 0 (((List.range r).map (2 ^ ·)).reverse.foldl (fltStage T (2 ^ m) index) x)
  | 0, _, _, h => h
  | r + 1, hr, x, h => by
    rw [List.range_succ, List.map_append, List.reverse_append, List.map_singleton,
      List.reverse_singleton, List.singleton_append, List.foldl_cons]
    exact evalInv_run hm hidx hle r (by omega) _ (evalInv_step hT (by omega) hm hidx hle h)

include hT in
/-- `FLT` evaluates a coefficient block in the novel basis at the points `index + t`. -/
theorem FLT_eval {m index : Nat} (hm : m ≤ 16) (hidx : 2 ^ m ∣ index) (hle : index + 2 ^ m ≤ 65536)
    (D : Nat → GFSymbol) {t : Nat} (ht : t < 2 ^ m) :
    FLT T (fun i => (D i).val) (2 ^ m) index t = (∑ i ∈ range (2 ^ m), D i * Xhat i (sym (index + t))).val := by
  have hstart : EvalInv (fun y => ∑ i ∈ range (2 ^ m), D i * Xhat i y) m index m fun i => (D i).val :=
    ⟨fun i => (D i).isLt, fun s hs hsm t _ => by
      simp only [Nat.eq_zero_of_dvd_of_lt hs hsm, sym_val, Nat.zero_add, Nat.add_zero]⟩
  have hend := evalInv_run hT hm hidx hle m le_rfl _ hstart
  have := hend.eval t (Nat.one_dvd _) ht 0 Nat.one_pos
  rw [Nat.pow_zero, sum_range_one, Nat.add_zero, Xhat_zero, mul_one, Nat.add_zero] at this
  rw [FLT, halvings_two_pow]
  exact eq_val_of_sym (hend.lt t) this

end Evaluate

/-- After one `setup` from the zero state, `FLT` evaluates in the novel basis: for every block of
size `2^m ≤ 2^16` at an offset `index` that is a multiple of it, `FLT(D)[t] = ∑_i D[i] · X̂_i(index + t)`;
and `IFLT(V)` is the one coefficient block whose `FLT` is `V`. -/
theorem flt_novel_basis {m index : Nat} (hm : m ≤ 16) (hidx : 2 ^ m ∣ index) (hle : index + 2 ^ m ≤ 65536) :
    (∀ (D : Nat → GFSymbol) (t : Nat), t < 2 ^ m →
      FLT (setup Tables.zero) (fun i => (D i).val) (2 ^ m) index t =
        (∑ i ∈ range (2 ^ m), D i * Xhat i (sym (index + t))).val) ∧
    ∀ V D : Buf, (∀ t < 2 ^ m, FLT (setup Tables.zero) D (2 ^ m) index t = V t) ↔
      (∀ t < 2 ^ m, IFLT (setup Tables.zero) V (2 ^ m) index t = D t) :=
  ⟨fun D _ ht => FLT_eval (setup_skewSpec Tables.zero rfl) hm hidx hle D ht,
    FLT_eq_iff_IFLT_eq _ m index⟩

theorem flt_novel_basis_whole_field : 16 ≤ 16 ∧ 2 ^ 16 ∣ 0 ∧ 0 + 2 ^ 16 ≤ 65536 ∧
    ((∀ (D : Nat → GFSymbol) (t : Nat), t < 2 ^ 16 →
      FLT (setup Tables.zero) (fun i => (D i).val) (2 ^ 16) 0 t =
        (∑ i ∈ range (2 ^ 16), D i * Xhat i (sym (0 + t))).val) ∧
    ∀ V D : Buf, (∀ t < 2 ^ 16, FLT (setup Tables.zero) D (2 ^ 16) 0 t = V t) ↔
      (∀ t < 2 ^ 16, IFLT (setup Tables.zero) V (2 ^ 16) 0 t = D t)) :=
  ⟨le_rfl, Nat.dvd_zero _, le_rfl, flt_novel_basis le_rfl (Nat.dvd_zero _) le_rfl⟩

end NovelPoly
