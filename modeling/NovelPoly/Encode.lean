import NovelPoly.Evaluate
import NovelPoly.Interpolate

/-!
`encodeL`, the encoder for rates `k/n ≤ 1/2`, and what it computes.

The model follows the source: `memcpy` is a loop of stores, and a call on `&codeword[i]` hands the
callee the cells from `i` on (`atOffset`). Each parity step reads only the coefficient block
`[0, k)`, which no step writes, and writes only its own block, so the loop is a row of disjoint
copies of `FLT(IFLT(data, k, 0), k, i)` (`encodeL_apply`). With `FLT` evaluating and `IFLT`
inverting it, the coefficients are those of the one polynomial of degree below `k` through the
message, and every block of the codeword holds its values (`encodeL_systematic`).
-/

namespace NovelPoly

open Function Finset Polynomial

/-! ### The model -/

/-- `memcpy(dst + off, src, len * sizeof(GFSymbol))`. -/
def memcpy (dst : Buf) (off : Nat) (src : Buf) (len : Nat) : Buf :=
  (forRange 0 len).foldl (fun d j => update d (off + j) (src j)) dst

/-- A call on the array `&a[off]`: the callee sees the cells from `off` on, and its stores land there. -/
def atOffset (f : Buf → Buf) (a : Buf) (off : Nat) : Buf :=
  fun t => if off ≤ t then f (fun u => a (off + u)) (t - off) else a t

/-- `encodeL(data, k, codeword, n)`: the coefficients of the message, one `FLT` of them per parity
block `i = k, 2k, … < n`, then the message copied back. -/
def encodeL (T : Tables) (data : Buf) (k : Nat) (codeword : Buf) (n : Nat) : Buf :=
  let c := IFLT T (memcpy codeword 0 data k) k 0
  let c := (forStep k n k).foldl (fun c i => atOffset (fun v => FLT T v k i) (memcpy c i c k) i) c
  memcpy c 0 data k

/-! ### `encodeL` in closed form -/

theorem memcpy_apply (dst : Buf) (off : Nat) (src : Buf) (len t : Nat) :
    memcpy dst off src len t = if off ≤ t ∧ t < off + len then src (t - off) else dst t := by
  split_ifs with h
  · have := foldl_scatter (off + ·) src ((forRange_nodup 0 len).imp fun hab h => hab (Nat.add_left_cancel h))
      dst (mem_forRange.2 ⟨Nat.zero_le _, show t - off < len by omega⟩)
    simpa only [Nat.add_sub_cancel' h.1] using this
  · exact foldl_fix_cell _ (fun j hj x => update_noteq (by have := mem_forRange.1 hj; omega) _ _) dst

/-- A copy into `[off, off + len)` changes only that block and reads nothing of the target. -/
theorem memcpy_localOn (off : Nat) (src : Buf) (len : Nat) :
    LocalOn (fun c => memcpy c off src len) (fun t => off ≤ t ∧ t < off + len) :=
  ⟨fun c t ht => by rw [memcpy_apply, if_neg ht], fun c c' _ t ht => by rw [memcpy_apply, memcpy_apply,
    if_pos ht, if_pos ht]⟩

/-! ### What `encodeL` stores and reads

The subscript lists of `Bounds` are the footprint of `encodeL`: it stores only into the cells of
`encodeLCodeword`, reads `data` only at `encodeLData` and `skewVec` only at `encodeLSkew`. -/

/-- A parity step on the block at `i` stores only into `[i, i + k)` and the cells `i + u` of `FLT`'s
subscript list. -/
theorem encodeL_step_fix (T : Tables) {k i t : Nat} (hcopy : t ∉ forRange i (i + k))
    (hflt : ∀ u ∈ transformCells (halvings k) k, i + u ≠ t) (c : Buf) :
    atOffset (fun v => FLT T v k i) (memcpy c i c k) i t = c t := by
  simp only [atOffset]
  split_ifs with hit
  · rw [FLT_frame T i (fun hu => hflt _ hu (Nat.add_sub_cancel' hit))]
    simp only [Nat.add_sub_cancel' hit, memcpy_apply, if_neg fun h => hcopy (mem_forRange.2 h)]
  · rw [memcpy_apply, if_neg fun h => hit h.1]

theorem encodeL_frame (T : Tables) {k n t : Nat} (ht : t ∉ encodeLCodeword k n) (data codeword : Buf) :
    encodeL T data k codeword n t = codeword t := by
  simp only [encodeLCodeword, List.mem_append, List.mem_flatMap, List.mem_map, not_or, not_exists,
    not_and] at ht
  obtain ⟨⟨⟨hcopy, hifft⟩, hblocks⟩, hcopy'⟩ := ht
  have hmsg : ∀ x : Buf, t ∉ forRange 0 k → memcpy x 0 data k t = x t := fun x h => by
    rw [memcpy_apply, if_neg fun h' => h (mem_forRange.2 ⟨h'.1, by omega⟩)]
  dsimp only [encodeL]
  rw [hmsg _ hcopy', foldl_fix_cell _ (fun i hi c => encodeL_step_fix T (hblocks i hi).1.1 (hblocks i hi).2 c),
    IFLT_frame T 0 hifft, hmsg _ hcopy]

theorem encodeL_data_reads (T : Tables) {k : Nat} {data data' : Buf} (h : ∀ s ∈ encodeLData k, data s = data' s)
    (codeword : Buf) (n : Nat) : encodeL T data k codeword n = encodeL T data' k codeword n := by
  have hcopy : ∀ x : Buf, memcpy x 0 data k = memcpy x 0 data' k := fun x => funext fun t => by
    rw [memcpy_apply, memcpy_apply]
    split_ifs with ht
    · exact h _ (List.mem_append_left _ (mem_forRange.2 ⟨Nat.zero_le _, by omega⟩))
    · rfl
  simp only [encodeL, hcopy]

theorem encodeL_skew_reads {T T' : Tables} (hmul : mulE T = mulE T') {k n : Nat}
    (hskew : ∀ s ∈ encodeLSkew k n, T.skewVec s = T'.skewVec s) (data codeword : Buf) :
    encodeL T data k codeword n = encodeL T' data k codeword n := by
  have hflt : ∀ i ∈ forStep k n k, ∀ v, FLT T v k i = FLT T' v k i := fun i hi =>
    FLT_skew_reads hmul i fun s hs => hskew s (List.mem_append_right _ (List.mem_flatMap.2 ⟨i, hi, hs⟩))
  dsimp only [encodeL]
  rw [IFLT_skew_reads hmul 0 fun s hs => hskew s (List.mem_append_left _ hs)]
  exact congrArg (memcpy · 0 data k) (List.foldl_ext _ _ _ fun c i hi => by simp only [hflt i hi])

section Encode

variable (T : Tables) {a : Nat} (D : Buf)

/-- A parity step of `encodeL` on a buffer that still holds the coefficients `D` in `[0, k)`:
it writes `FLT(D, k, i)` into the block `[i, i + k)`. -/
theorem encodeL_step {c : Buf} (hc : ∀ t < 2 ^ a, c t = D t) (i : Nat) :
    atOffset (fun v => FLT T v (2 ^ a) i) (memcpy c i c (2 ^ a)) i =
      memcpy c i (FLT T D (2 ^ a) i) (2 ^ a) := by
  funext t
  simp only [atOffset]
  rw [memcpy_apply c i (FLT T D (2 ^ a) i) (2 ^ a) t]
  by_cases hit : i ≤ t
  · rw [if_pos hit]
    by_cases htk : t < i + 2 ^ a
    · rw [if_pos ⟨hit, htk⟩, (FLT_localOn T a i).reads _ D (fun u hu => by
        rw [memcpy_apply, if_pos ⟨by omega, by omega⟩, Nat.add_sub_cancel_left, hc u hu]) _ (by omega)]
    · rw [if_neg (by omega), (FLT_localOn T a i).frame _ _ (by omega), memcpy_apply,
        if_neg (by omega), Nat.add_sub_cancel' hit]
  · rw [if_neg hit, if_neg (by omega), memcpy_apply, if_neg (by omega)]

theorem encodeL_loop : ∀ (L : List Nat), (∀ i ∈ L, 2 ^ a ≤ i) → ∀ c : Buf, (∀ t < 2 ^ a, c t = D t) →
    L.foldl (fun c i => atOffset (fun v => FLT T v (2 ^ a) i) (memcpy c i c (2 ^ a)) i) c =
      L.foldl (fun c i => memcpy c i (FLT T D (2 ^ a) i) (2 ^ a)) c
  | [], _, _, _ => rfl
  | i :: L, hL, c, hc => by
    have hi := hL i (.head _)
    rw [List.foldl_cons, List.foldl_cons, encodeL_step T D hc i]
    exact encodeL_loop L (fun j hj => hL j (.tail _ hj)) _ fun t ht => by
      rw [memcpy_apply, if_neg (by omega), hc t ht]

/-- `encodeL` leaves the message in `[0, k)` and, in every block `[i, i + k)` below `n`, the `FLT` at
offset `i` of the message's coefficients `IFLT(data, k, 0)`. -/
theorem encodeL_apply {n t : Nat} (data codeword : Buf) (ht : t < n) :
    encodeL T data (2 ^ a) codeword n t =
      if t < 2 ^ a then data t
      else FLT T (IFLT T data (2 ^ a) 0) (2 ^ a) (2 ^ a * (t / 2 ^ a)) (t % 2 ^ a) := by
  have hk := Nat.two_pow_pos a
  have hD : ∀ t < 2 ^ a, IFLT T (memcpy codeword 0 data (2 ^ a)) (2 ^ a) 0 t = IFLT T data (2 ^ a) 0 t :=
    (IFLT_localOn T a 0).reads _ _ fun u hu => by rw [memcpy_apply, if_pos ⟨Nat.zero_le _, by omega⟩, Nat.sub_zero]
  dsimp only [encodeL]
  rw [encodeL_loop T _ _ (fun i hi => ((mem_forStep hk).1 hi).1) _ hD, memcpy_apply]
  by_cases htk : t < 2 ^ a
  · rw [if_pos ⟨Nat.zero_le _, by omega⟩, if_pos htk, Nat.sub_zero]
  · rw [if_neg (by omega), if_neg htk]
    have hq := Nat.div_add_mod t (2 ^ a)
    have hm := Nat.mod_lt t hk
    have hq1 : 1 ≤ t / 2 ^ a := (Nat.one_le_div_iff hk).2 (by omega)
    have hle : 2 ^ a ≤ 2 ^ a * (t / 2 ^ a) := Nat.le_mul_of_pos_right _ hq1
    have hmem : 2 ^ a * (t / 2 ^ a) ∈ forStep (2 ^ a) n (2 ^ a) :=
      (mem_forStep hk).2 ⟨hle, by omega, by rw [← Nat.mul_sub_one]; exact Dvd.intro _ rfl⟩
    have hloc : ∀ i ∈ forStep (2 ^ a) n (2 ^ a), LocalOn (fun c => memcpy c i (FLT T
        (IFLT T data (2 ^ a) 0) (2 ^ a) i) (2 ^ a)) (fun t => i ≤ t ∧ t < i + 2 ^ a) :=
      fun i _ => memcpy_localOn _ _ _
    have hdisj := pairwise_disjoint_of_nodup (fun i t => i ≤ t ∧ t < i + 2 ^ a) (@forStep_nodup (2 ^ a) n _ hk)
      fun i hi j hj hij t ⟨h1, h2⟩ ⟨h3, h4⟩ => by have := forStep_apart hk hi hj hij; omega
    rw [foldl_apply _ _ _ hloc hdisj _ hmem ⟨by omega, by omega⟩, memcpy_apply, if_pos ⟨by omega, by omega⟩,
      show t - 2 ^ a * (t / 2 ^ a) = t % 2 ^ a by omega]

end Encode

/-! ### `IFLT` interpolates -/

/-- `IFLT(x, 2^m, 0)` holds the novel-basis coefficients of a polynomial of degree below `2^m` through
the values `x[0], …, x[2^m - 1]`. -/
theorem IFLT_interp {T : Tables} (hT : SkewSpec T) {m : Nat} (hm : m ≤ 16) {x : Buf} (hx : ∀ t, x t < 65536) :
    ∃ Q : GFSymbol[X], Q.degree < ↑(2 ^ m) ∧
      (∀ y, Q.eval y = ∑ i ∈ range (2 ^ m), sym (IFLT T x (2 ^ m) 0 i) * Xhat i y) ∧
      ∀ t < 2 ^ m, (Q.eval (sym t)).val = x t := by
  have hk : 2 ^ m ≤ 65536 := Nat.pow_le_pow_right two_pos hm
  obtain ⟨Q, hQdeg, hQ⟩ := exists_poly_of_coeffs hk fun u => sym (IFLT T x (2 ^ m) 0 u)
  refine ⟨Q, hQdeg, hQ, fun t ht => ?_⟩
  have hflt := FLT_eval hT hm (Nat.dvd_zero _) (by omega) (fun u => sym (IFLT T x (2 ^ m) 0 u)) ht
  rw [show (fun u => (sym (IFLT T x (2 ^ m) 0 u)).val) = IFLT T x (2 ^ m) 0 from
      funext fun u => val_sym (IFLT_lt hT hm (Nat.dvd_zero _) (by omega) hx u),
    FLT_IFLT, Nat.zero_add] at hflt
  rw [hQ, hflt]

/-- On the values below `2^m` of a polynomial `G` of degree below `2^m`, `IFLT` yields the
novel-basis coefficients of `G` itself. -/
theorem IFLT_coeffs {T : Tables} (hT : SkewSpec T) {m : Nat} (hm : m ≤ 16) {x : Buf} (hx : ∀ t, x t < 65536)
    {G : GFSymbol[X]} (hG : G.degree < ↑(2 ^ m)) (hGx : ∀ t < 2 ^ m, (G.eval (sym t)).val = x t) (y : GFSymbol) :
    G.eval y = ∑ i ∈ range (2 ^ m), sym (IFLT T x (2 ^ m) 0 i) * Xhat i y := by
  obtain ⟨Q, hQdeg, hQ, hQv⟩ := IFLT_interp hT hm hx
  rw [← hQ, poly_eq_of_eval_eq (Nat.pow_le_pow_right two_pos hm) hG hQdeg fun t ht =>
    GFSymbol.ext (by rw [hGx t ht, hQv t ht])]

/-! ### `encodeL` produces the systematic Reed-Solomon codeword -/

/-- For `k = 2^a` and `n = c·k ≤ 2^16`, the codeword `encodeL` leaves below `n` is the values at
`0, …, n-1` of a polynomial of degree below `k` through the message. -/
theorem encodeL_interp {a c : Nat} (hc : 0 < c) (hn : c * 2 ^ a ≤ 65536) (data : Nat → GFSymbol)
    (codeword : Buf) :
    ∃ Q : GFSymbol[X], Q.degree < ↑(2 ^ a) ∧ (∀ i < 2 ^ a, Q.eval (sym i) = data i) ∧
      ∀ t < c * 2 ^ a, encodeL (setup Tables.zero) (fun i => (data i).val) (2 ^ a) codeword (c * 2 ^ a) t =
        (Q.eval (sym t)).val := by
  have hT := setup_skewSpec Tables.zero rfl
  have hk : 2 ^ a ≤ 65536 := le_trans (Nat.le_mul_of_pos_left _ hc) hn
  have ha : a ≤ 16 := (Nat.pow_le_pow_iff_right (by decide)).1 (hk.trans_eq (by norm_num))
  have hdata : ∀ i, (data i).val < 65536 := fun i => (data i).isLt
  obtain ⟨Q, hQdeg, hQ, hinterp⟩ := IFLT_interp hT ha hdata
  refine ⟨Q, hQdeg, fun i hi => GFSymbol.ext (hinterp i hi), fun t ht => ?_⟩
  rw [encodeL_apply _ _ _ ht]
  split_ifs with htk
  · exact (hinterp t htk).symm
  · have hlt : t / 2 ^ a < c := (Nat.div_lt_iff_lt_mul (Nat.two_pow_pos a)).2 ht
    have hend : 2 ^ a * (t / 2 ^ a) + 2 ^ a ≤ 65536 := calc
      2 ^ a * (t / 2 ^ a) + 2 ^ a = 2 ^ a * (t / 2 ^ a + 1) := by ring
      _ ≤ 2 ^ a * c := Nat.mul_le_mul_left _ hlt
      _ ≤ 65536 := by rw [Nat.mul_comm]; exact hn
    rw [show IFLT (setup Tables.zero) (fun i => (data i).val) (2 ^ a) 0 =
        fun u => (sym (IFLT (setup Tables.zero) (fun i => (data i).val) (2 ^ a) 0 u)).val from
        funext fun u => (val_sym (IFLT_lt hT ha (Nat.dvd_zero _) (by omega) hdata u)).symm,
      FLT_eval hT ha (Dvd.intro _ rfl) hend _ (Nat.mod_lt _ (Nat.two_pow_pos a)), ← hQ, Nat.div_add_mod]

/-- After one `setup` from the zero state, for `k = 2^a` and every multiple `n = c·k ≤ 2^16`, the
message `data` has exactly one interpolating polynomial of degree below `k`, and `encodeL` leaves
its values at `0, …, n-1` in the codeword. -/
theorem encodeL_systematic {a c : Nat} (hc : 0 < c) (hn : c * 2 ^ a ≤ 65536) (data : Nat → GFSymbol)
    (codeword : Buf) :
    (∃! P : GFSymbol[X], P.degree < ↑(2 ^ a) ∧ ∀ i < 2 ^ a, P.eval (sym i) = data i) ∧
    ∀ P : GFSymbol[X], P.degree < ↑(2 ^ a) → (∀ i < 2 ^ a, P.eval (sym i) = data i) →
      ∀ t < c * 2 ^ a, encodeL (setup Tables.zero) (fun i => (data i).val) (2 ^ a) codeword (c * 2 ^ a) t =
        (P.eval (sym t)).val := by
  obtain ⟨Q, hQdeg, hinterp, henc⟩ := encodeL_interp hc hn data codeword
  have hk : 2 ^ a ≤ 65536 := le_trans (Nat.le_mul_of_pos_left _ hc) hn
  have huniq : ∀ P : GFSymbol[X], P.degree < ↑(2 ^ a) → (∀ i < 2 ^ a, P.eval (sym i) = data i) → P = Q :=
    fun P hP hPi => poly_eq_of_eval_eq hk hP hQdeg fun i hi => by rw [hPi i hi, hinterp i hi]
  exact ⟨⟨Q, ⟨hQdeg, hinterp⟩, fun P ⟨hP, hPi⟩ => huniq P hP hPi⟩,
    fun P hP hPi t ht => by rw [huniq P hP hPi]; exact henc t ht⟩

theorem encodeL_systematic_two_blocks : 0 < 2 ∧ 2 * 2 ^ 1 ≤ 65536 ∧
    ((∃! P : GFSymbol[X], P.degree < ↑(2 ^ 1) ∧ ∀ i < 2 ^ 1, P.eval (sym i) = (0 : Nat → GFSymbol) i) ∧
    ∀ P : GFSymbol[X], P.degree < ↑(2 ^ 1) → (∀ i < 2 ^ 1, P.eval (sym i) = (0 : Nat → GFSymbol) i) →
      ∀ t < 2 * 2 ^ 1, encodeL (setup Tables.zero) (fun i => ((0 : Nat → GFSymbol) i).val) (2 ^ 1) 0 (2 * 2 ^ 1) t =
        (P.eval (sym t)).val) :=
  ⟨by decide, by decide, encodeL_systematic (by decide) (by decide) 0 0⟩

end NovelPoly
