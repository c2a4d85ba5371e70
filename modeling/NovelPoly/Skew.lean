import NovelPoly.Basis
import NovelPoly.InitDec
import NovelPoly.Transform

/-!
What `init_dec` computes: the skew factors of the transforms and the renormalised `base`.

`init_dec` builds the factors level by level. Level `m` owns the cells
`skewCell m b = 2^m - 1 + 2^(m+1)·b`, one per block start `β = 2^(m+1)·b`; its `i` loop fills them
by doubling, `skewVec[j + 2^(i+1)] = skewVec[j] ^ base[i]`, which is right because `Ŵ_m` is additive
and `base[i]` holds `Ŵ_m(2^(i+1))` (`levelInv_run`). It then renormalises `base` to the next level
through `Ŵ_{m+1} = Ŵ_m (Ŵ_m + 1) / renorm m`, reading the products off the tables
(`initDecStep_base`). Distinct levels own distinct cells (`skewCell_inj`), so after the loop every
cell of every level `l < 15` holds `Ŵ_l` of its block start (`loopInv_run`), and the final pass
takes logarithms (`initDec_skewVec_cell`). The one cell of level `15`, `skewVec[2^15 - 1]`, is never
written; it is right after `setup` exactly when it held `0` before (`setup_skewSpec`).

The first section reads the tables of `init` in field terms: `EXP_TABLE[e]` is the `e`-th power of
the generator `gen`, `LOG_TABLE` inverts it, and `mulE(v, LOG_TABLE[c])` is the product `v · c`.
-/
namespace NovelPoly

open Function

/-! ### The tables in field terms -/

/-- The generator `x` of the field, as the symbol `psi⁻¹(x)`. -/
def gen : GFSymbol := ⟨psiInv 2, psiInv_lt 2⟩

theorem gen_pow_val (e : Nat) : (gen ^ e).val = psiInv (xpow e) := by
  induction e with
  | zero => rfl
  | succ e ih =>
    rw [pow_succ, GFSymbol.val_mul, ih, GFSymbol.mul, psi_psiInv (xpow_lt e),
      show gen.val = psiInv (xpow 1) from rfl, psi_psiInv (xpow_lt 1), gfMul_xpow]

theorem gen_pow_modulo : gen ^ 65535 = 1 := GFSymbol.ext (by rw [gen_pow_val, xpow_modulo]; rfl)

theorem gen_pow_mod (e : Nat) : gen ^ (e % 65535) = gen ^ e := by
  conv_rhs => rw [← Nat.mod_add_div e 65535, pow_add, pow_mul, gen_pow_modulo, one_pow, mul_one]

theorem gen_ne_zero : gen ≠ 0 := fun h => zero_ne_one (by rw [← gen_pow_modulo, h, zero_pow (by decide)])

theorem gen_pow_sub {L : Nat} (hL : L ≤ 65535) : gen ^ (65535 - L) = (gen ^ L)⁻¹ :=
  eq_inv_of_mul_eq_one_left (by rw [← pow_add, Nat.sub_add_cancel hL, gen_pow_modulo])

section Init

variable (T : Tables)

theorem init_logTable_gen {v : Nat} (hv0 : v ≠ 0) (hv : v < 65536) :
    gen ^ (init T).logTable v = sym v :=
  GFSymbol.ext (by rw [gen_pow_val, (init_logTable_spec T hv0 hv).2, psiInv_psi hv, val_sym hv])

theorem init_mulE_gen {a e : Nat} (ha : a < 65536) (he : e ≤ 65535) :
    mulE (init T) a e = (sym a * gen ^ e).val := by
  refine psi_inj (mulE_lt T ha he) (GFSymbol.isLt _) ?_
  rw [psi_mulE T ha he, GFSymbol.val_mul, GFSymbol.psi_mul (GFSymbol.isLt _), val_sym ha, gen_pow_val,
    psi_psiInv (xpow_lt e)]

/-- `mulE(v, LOG_TABLE[c])` is the product `v · c`, for every nonzero symbol `c`. -/
theorem init_mulE_logTable {v : Nat} (hv : v < 65536) {c : GFSymbol} (hc : c ≠ 0) :
    mulE (init T) v ((init T).logTable c.val) = (sym v * c).val := by
  have hc0 : c.val ≠ 0 := fun h => hc (GFSymbol.ext h)
  rw [init_mulE_gen T hv (init_logTable_lt T c.isLt), init_logTable_gen T hc0 c.isLt, sym_val]

/-- The skew pass multiplies by the symbol whose logarithm it is given, and by zero for `MODULO`. -/
theorem skewMul_logTable (c : GFSymbol) {v : Nat} (hv : v < 65536) :
    skewMul (init T) ((init T).logTable c.val) v = (sym v * c).val := by
  by_cases hc : c = 0
  · subst hc; rw [skewMul, GFSymbol.val_zero, init_logTable_zero, if_pos rfl, mul_zero]; rfl
  · rw [skewMul, if_neg (init_logTable_spec T (fun h => hc (GFSymbol.ext h)) c.isLt).1.ne,
      init_mulE_logTable T hv hc]

theorem setup_mulE : mulE (setup T) = mulE (init T) := by
  funext a e; simp only [mulE, setup, initDec_logTable, initDec_expTable]

theorem setup_skewMul : skewMul (setup T) = skewMul (init T) := by
  funext s v; simp only [skewMul, setup_mulE]

end Init

/-! ### The cells of a level -/

/-- Cell `2^m - 1 + 2^(m+1)·b` of `skewVec`: the factor of level `m` at block start `2^(m+1)·b`. -/
def skewCell (m b : Nat) : Nat := 2 ^ m - 1 + 2 ^ (m + 1) * b

theorem skewCell_succ (m b : Nat) : skewCell m b + 1 = 2 ^ m * (2 * b + 1) := by
  have h : 2 ^ m * (2 * b + 1) = 2 ^ (m + 1) * b + 2 ^ m := by ring
  have := Nat.two_pow_pos m
  rw [h, skewCell]; omega

theorem two_pow_mul_odd_inj {l m b b' : Nat} (h : 2 ^ l * (2 * b + 1) = 2 ^ m * (2 * b' + 1)) :
    l = m ∧ b = b' := by
  wlog hlm : l ≤ m generalizing l m b b'
  · exact (this h.symm (by omega)).imp Eq.symm Eq.symm
  obtain ⟨k, rfl⟩ := Nat.exists_eq_add_of_le hlm
  rw [pow_add, mul_assoc] at h
  have h := Nat.eq_of_mul_eq_mul_left (Nat.two_pow_pos l) h
  cases k with
  | zero => rw [pow_zero, one_mul] at h; omega
  | succ k =>
    have : 2 * b + 1 = 2 * (2 ^ k * (2 * b' + 1)) := by rw [h]; ring
    omega

/-- Distinct levels, or distinct block starts, have distinct cells. -/
theorem skewCell_inj {l m b b' : Nat} (h : skewCell l b = skewCell m b') : l = m ∧ b = b' :=
  two_pow_mul_odd_inj (by rw [← skewCell_succ, ← skewCell_succ, h])

/-- The blocks of level `m` below `2^(m+k+1)`: `j = 2^m - 1 + 2^(m+1)·b` for `b < 2^k`. -/
theorem levelSteps_eq (m k : Nat) :
    forStep (2 ^ m - 1) (2 ^ (m + k + 1)) (2 ^ (m + 1)) = List.range' (2 ^ m - 1) (2 ^ k) (2 ^ (m + 1)) := by
  have hS : 2 ^ (m + k + 1) = 2 ^ (m + 1) * 2 ^ k := by rw [← pow_add]; congr 1; omega
  have hP : 2 ^ (m + 1) = 2 * 2 ^ m := by rw [pow_succ, mul_comm]
  have hle : 2 ^ (m + 1) ≤ 2 ^ (m + 1) * 2 ^ k := Nat.le_mul_of_pos_right _ (Nat.two_pow_pos _)
  have := Nat.two_pow_pos m
  rw [forStep, hS, show 2 ^ (m + 1) * 2 ^ k - (2 ^ m - 1) + 2 ^ (m + 1) - 1 =
    2 ^ m + 2 ^ (m + 1) * 2 ^ k by omega, Nat.add_mul_div_left _ _ (Nat.two_pow_pos _),
    Nat.div_eq_of_lt (by omega), Nat.zero_add]

/-! ### One level of the `m` loop -/

/-- The cells of level `m` whose block start is below `2^(m+1)·n` hold `Ŵ_m` of it, and every cell
of another level is as in `y`. -/
structure LevelInv (m n : Nat) (y x : Buf) : Prop where
  cells : ∀ b < n, x (skewCell m b) = (What m (sym (2 ^ (m + 1) * b))).val
  frame : ∀ v, (∀ b, v ≠ skewCell m b) → x v = y v

/-- `skewVec[(1<<m)-1] = 0` starts the level: `Ŵ_m(0) = 0`. -/
theorem levelInv_start {m : Nat} (hm : m < 16) (y : Buf) : LevelInv m 1 y (update y (2 ^ m - 1) 0) where
  cells b hb := by
    rw [show b = 0 by omega, skewCell, Nat.mul_zero, Nat.add_zero, update_same,
      What_of_lt hm (Nat.two_pow_pos m)]; rfl
  frame v hv := update_noteq (by simpa [skewCell] using hv 0) _ _

/-- The `i = m + k` iteration of level `m` doubles the block starts it knows: it writes the cells of
the starts `2^(i+1) + β` from those of `β`, XORing `base[i] = Ŵ_m(2^(i+1))`. -/
theorem levelInv_step {m k : Nat} {y x : Buf} (h : LevelInv m (2 ^ k) y x) :
    LevelInv m (2 ^ (k + 1)) y ((forStep (2 ^ m - 1) (2 ^ (m + k + 1)) (2 ^ (m + 1))).foldl
      (fun skew j => update skew (j + 2 ^ (m + k + 1)) (skew j ^^^ (What m (sym (2 ^ (m + k + 1)))).val)) x) := by
  have hS : 2 ^ (m + k + 1) = 2 ^ (m + 1) * 2 ^ k := by rw [← pow_add]; congr 1; omega
  have hP : 2 ^ (m + 1) = 2 * 2 ^ m := by rw [pow_succ, mul_comm]
  have hm := Nat.two_pow_pos m
  have hstep := @foldl_shift_copy (forStep (2 ^ m - 1) (2 ^ (m + k + 1)) (2 ^ (m + 1))) (2 ^ (m + k + 1))
    (forStep_nodup (Nat.two_pow_pos (m + 1)))
    (fun j hj => ((mem_forStep (Nat.two_pow_pos (m + 1))).1 hj).2.1) (· ^^^ (What m (sym (2 ^ (m + k + 1)))).val) x
  rw [levelSteps_eq] at hstep ⊢
  constructor
  · intro b hb
    rw [hstep, skewCell]
    by_cases hbK : b < 2 ^ k
    · have : 2 ^ (m + 1) * (b + 1) ≤ 2 ^ (m + 1) * 2 ^ k := Nat.mul_le_mul_left _ hbK
      rw [if_neg (by rw [Nat.mul_succ] at this; omega)]; exact h.cells b hbK
    · obtain ⟨c, rfl⟩ := Nat.exists_eq_add_of_le (Nat.le_of_not_lt hbK)
      have hlt : c < 2 ^ k := by rw [pow_succ] at hb; omega
      have hsub : 2 ^ m - 1 + 2 ^ (m + 1) * (2 ^ k + c) - 2 ^ (m + k + 1) = 2 ^ m - 1 + 2 ^ (m + 1) * c := by
        rw [hS, Nat.mul_add]; omega
      rw [if_pos ⟨by rw [hS, Nat.mul_add]; omega, by rw [hsub]; exact List.mem_range'.2 ⟨c, hlt, rfl⟩⟩,
        hsub, ← skewCell, h.cells c hlt, ← GFSymbol.val_add, ← What_add, add_comm, ← sym_add_of_dvd
          (Nat.dvd_refl _) (by rw [hS]; exact Nat.mul_lt_mul_of_pos_left hlt (Nat.two_pow_pos _)), hS, Nat.mul_add]
  · intro v hv
    rw [hstep, if_neg, h.frame v hv]
    rintro ⟨hle, hmem⟩
    obtain ⟨c, -, hc⟩ := List.mem_range'.1 hmem
    exact hv (2 ^ k + c) (by rw [skewCell, Nat.mul_add, ← hS]; omega)

/-- The `i` loop of level `m`, with `base[i] = Ŵ_m(2^(i+1))`, after the iterations `i < m + k`. -/
theorem levelInv_run {m : Nat} (hm : m < 16) (c : Nat → Nat)
    (hc : ∀ i, m ≤ i → i < 15 → c i = (What m (sym (2 ^ (i + 1)))).val) (y : Buf) :
    ∀ k, m + k ≤ 15 → LevelInv m (2 ^ k) y ((List.range' m k).foldl (fun skew i =>
      (forStep (2 ^ m - 1) (2 ^ (i + 1)) (2 ^ (m + 1))).foldl
        (fun skew j => update skew (j + 2 ^ (i + 1)) (skew j ^^^ c i)) skew) (update y (2 ^ m - 1) 0))
  | 0, _ => levelInv_start hm y
  | k + 1, hk => by
    simp only [List.range'_concat, List.foldl_append, List.foldl_cons, List.foldl_nil, Nat.one_mul]
    rw [hc (m + k) (by omega) (by omega)]
    exact levelInv_step (levelInv_run hm c hc y k (by omega))

/-- The skew part of level `m` of `init_dec`: every level-`m` cell below `2^16` holds `Ŵ_m` of its
block start, every other cell is as before. -/
theorem initDecStep_skew (T : Tables) (p : Buf × Buf) {m : Nat} (hm : m < 15)
    (hbase : ∀ i, m ≤ i → i < 15 → p.2 i = (What m (sym (2 ^ (i + 1)))).val) :
    LevelInv m (2 ^ (15 - m)) p.1 (initDecStep T p m).1 :=
  levelInv_run (by omega) p.2 hbase p.1 (15 - m) (by omega)

/-! ### The renormalisation of `base` -/

theorem val_xor_one (a : GFSymbol) : a.val ^^^ 1 = (a + 1).val := rfl

/-- The `base` part of level `m`: `base[m]` becomes the logarithm of `renorm m`'s inverse, and every
later `base[i]` becomes `Ŵ_{m+1}(2^(i+1))`. -/
theorem initDecStep_base (T : Tables) (p : Buf × Buf) {m : Nat} (hm : m < 15)
    (hbase : ∀ i, m ≤ i → i < 15 → p.2 i = (What m (sym (2 ^ (i + 1)))).val) (i : Nat) :
    (initDecStep (init T) p m).2 i =
      if i = m then 65535 - (init T).logTable (renorm m).val
      else if m < i ∧ i < 15 then (What (m + 1) (sym (2 ^ (i + 1)))).val else p.2 i := by
  have hE : 65535 - (init T).logTable (mulE (init T) (p.2 m) ((init T).logTable (p.2 m ^^^ 1))) =
      65535 - (init T).logTable (renorm m).val := by
    rw [hbase m le_rfl hm, val_xor_one,
      init_mulE_logTable T (GFSymbol.isLt _) (What_two_pow_add_one_ne_zero le_rfl hm), sym_val, renorm]
  dsimp only [initDecStep]
  rw [@foldl_pointwise_with (forRange (m + 1) 15) (forRange_nodup _ _) m (by simp [mem_forRange])
    (fun _ a v => mulE (init T) v (((init T).logTable (v ^^^ 1) + a) % 65535)), hE]
  by_cases him : i = m
  · subst him; simp [mem_forRange]
  · simp only [mem_forRange, update_noteq him, update_same, if_neg him]
    split_ifs with h1 h2 h2
    · rw [hbase i (by omega) h1.2, val_xor_one,
        init_mulE_gen T (GFSymbol.isLt _) (Nat.le_of_lt (Nat.mod_lt _ (by decide))), sym_val, gen_pow_mod,
        pow_add gen,
        init_logTable_gen T (fun h => What_two_pow_add_one_ne_zero (by omega) h1.2 (GFSymbol.ext h)) (GFSymbol.isLt _),
        sym_val, gen_pow_sub (init_logTable_lt T (GFSymbol.isLt _)),
        init_logTable_gen T (fun h => renorm_ne_zero hm (GFSymbol.ext h)) (GFSymbol.isLt _), sym_val,
        What_succ_renorm (by omega), div_eq_mul_inv, mul_assoc]
    · omega
    · omega
    · rfl

/-! ### The whole `m` loop -/

/-- What `init_dec`'s `m` loop leaves after the levels below `M`, from `skewVec = s₀`: the cells of
those levels hold `Ŵ_l` of their block starts, no other cell has changed, `base[i]` holds
`Ŵ_M(2^(i+1))` for the levels still to come and the logarithm of `renorm i`'s inverse for the
levels done. -/
structure LoopInv (T : Tables) (M : Nat) (s₀ : Buf) (p : Buf × Buf) : Prop where
  skew : ∀ l < M, ∀ b < 2 ^ (15 - l), p.1 (skewCell l b) = (What l (sym (2 ^ (l + 1) * b))).val
  frame : ∀ v, (∀ l < M, ∀ b, v ≠ skewCell l b) → p.1 v = s₀ v
  base_hi : ∀ i, M ≤ i → i < 15 → p.2 i = (What M (sym (2 ^ (i + 1)))).val
  base_lo : ∀ i < M, p.2 i = 65535 - (init T).logTable (renorm i).val

/-- `base[i-1] = 1 << i` starts the loop: `Ŵ_0` is the identity. -/
theorem loopInv_start (T : Tables) (s₀ : Buf) :
    LoopInv T 0 s₀ (s₀, (forRange 1 16).foldl (fun base i => update base (i - 1) (2 ^ i)) (fun _ => 0 : Buf)) where
  skew _ h := absurd h (Nat.not_lt_zero _)
  frame _ _ := rfl
  base_hi i _ hi := by
    have hv : ∀ i < 15, (forRange 1 16).foldl (fun base i => update base (i - 1) (2 ^ i)) (fun _ => 0 : Buf) i =
        2 ^ (i + 1) := by decide
    dsimp only; rw [hv i hi, What_zero_left, val_sym (Nat.pow_lt_pow_right (by decide) (show i + 1 < 16 by omega))]
  base_lo _ h := absurd h (Nat.not_lt_zero _)

theorem loopInv_step (T : Tables) {M : Nat} (hM : M < 15) {s₀ : Buf} {p : Buf × Buf}
    (h : LoopInv T M s₀ p) : LoopInv T (M + 1) s₀ (initDecStep (init T) p M) := by
  have hlev := initDecStep_skew (init T) p hM h.base_hi
  have hbase := initDecStep_base T p hM h.base_hi
  have hother : ∀ {l b}, l ≠ M → ∀ b', skewCell l b ≠ skewCell M b' := fun hl _ he => hl (skewCell_inj he).1
  refine ⟨fun l hl b hb => ?_, fun v hv => ?_, fun i hi hi' => ?_, fun i hi => ?_⟩
  · rcases Nat.lt_succ_iff_lt_or_eq.1 hl with hl | rfl
    · rw [hlev.frame _ (hother hl.ne), h.skew l hl b hb]
    · exact hlev.cells b hb
  · rw [hlev.frame v (hv M (Nat.lt_succ_self M)), h.frame v fun l hl => hv l (by omega)]
  · rw [hbase, if_neg (by omega), if_pos ⟨by omega, hi'⟩]
  · rw [hbase]
    rcases Nat.lt_succ_iff_lt_or_eq.1 hi with hi | rfl
    · rw [if_neg hi.ne, if_neg (by omega), h.base_lo i hi]
    · rw [if_pos rfl]

theorem loopInv_run (T : Tables) (s₀ : Buf) : ∀ M ≤ 15,
    LoopInv T M s₀ ((List.range' 0 M).foldl (initDecStep (init T))
      (s₀, (forRange 1 16).foldl (fun base i => update base (i - 1) (2 ^ i)) (fun _ => 0 : Buf)))
  | 0, _ => loopInv_start T s₀
  | M + 1, hM => by
    rw [List.range'_concat, List.foldl_append, List.foldl_cons, List.foldl_nil, Nat.zero_add, Nat.one_mul]
    exact loopInv_step T (by omega) (loopInv_run T s₀ M (by omega))

/-- After `init_dec`, every cell of a level `l < 15` holds `LOG_TABLE[Ŵ_l(β)]` for its block start
`β = 2^(l+1)·b`. -/
theorem initDec_skewVec_cell (T : Tables) {l b : Nat} (hl : l < 15) (hb : b < 2 ^ (15 - l)) :
    (initDec (init T)).skewVec (skewCell l b) = (init T).logTable (What l (sym (2 ^ (l + 1) * b))).val := by
  have hlt : skewCell l b < 65536 := by
    have h1 : b + 1 ≤ 2 ^ (15 - l) := hb
    have h2 := Nat.mul_le_mul_left (2 ^ (l + 1)) h1
    rw [← pow_add, show l + 1 + (15 - l) = 16 by omega, Nat.mul_succ] at h2
    have h3 : 2 ^ l < 2 ^ (l + 1) := Nat.pow_lt_pow_right (by decide) (by omega)
    rw [skewCell]; omega
  dsimp only [initDec]
  rw [foldl_pointwise (forRange_nodup 0 65536) (fun _ => (init T).logTable),
    if_pos (mem_forRange.2 ⟨Nat.zero_le _, hlt⟩), init_skewVec]
  exact congrArg _ ((loopInv_run T T.skewVec 15 le_rfl).skew l hl b hb)

/-! ### The skew factors after `setup` -/

/-- The skew factors the transforms read are `LOG_TABLE[Ŵ_r(β)]`: the skew pass of level `r` at the
block start `β = 2^(r+1)·b` multiplies by `Ŵ_r(β)`, the sentinel `MODULO` standing for `0`. -/
def SkewSpec (T : Tables) : Prop :=
  ∀ r < 16, ∀ b < 2 ^ (15 - r), ∀ v < 65536,
    skewMul T (T.skewVec (skewCell r b)) v = (sym v * What r (sym (2 ^ (r + 1) * b))).val

/-- After `setup` from a state with `skewVec[2^15 - 1] = 0`, every cell of a level `r ≤ 15` holds
`LOG_TABLE[Ŵ_r(β)]`; the top level's one cell keeps `LOG_TABLE[0] = MODULO`. -/
theorem setup_skewVec_cell (T : Tables) (h0 : T.skewVec 32767 = 0) {r b : Nat} (hr : r < 16)
    (hb : b < 2 ^ (15 - r)) :
    (setup T).skewVec (skewCell r b) = (init T).logTable (What r (sym (2 ^ (r + 1) * b))).val := by
  rcases Nat.lt_succ_iff_lt_or_eq.1 hr with hr | rfl
  · exact initDec_skewVec_cell T hr hb
  · rw [show b = 0 by simpa using hb, Nat.mul_zero, What_of_lt hr (Nat.two_pow_pos _),
      setup, show skewCell 15 0 = 32767 from rfl, initDec_skewVec_top, init_skewVec, h0, GFSymbol.val_zero]

theorem setup_skewSpec (T : Tables) (h0 : T.skewVec 32767 = 0) : SkewSpec (setup T) :=
  fun r hr b hb v hv => by rw [setup_skewVec_cell T h0 hr hb, setup_skewMul, skewMul_logTable T _ hv]

end NovelPoly
