import NovelPoly.Decode

/-!
The array subscripts that `encodeL` and `decode_main` use, with the `IFLT`, `FLT` and
`formal_derivative` calls they make.

No subscript in these functions depends on the data: each is an expression in the loop counters,
`k`, `n` and `index`. So the subscripts each function uses into each array form a list that the same
loops compute (`transformCells`, `derivativeCells`, `encodeLCodeword`, `decodeMainCodeword`, …).
Each list is the footprint of its function in the value model: a cell outside the `codeword` list
keeps its value, and the tables are read only at the `skewVec` and `B` lists (`decodeMain_frame`,
`decodeMain_table_reads`; for `encodeL`, `encodeL_frame`, `encodeL_data_reads` and
`encodeL_skew_reads` beside its definition).
For a power-of-two `k` and any multiple `n` of it, `encodeL` stays inside its arrays
(`encodeL_bounds`), while for an `n > k` that `k` does not divide its last parity block runs past
`codeword[n-1]` (`encodeL_overrun`); `decode_main` does when `n` is a power of two of at least `2`
(`decodeMain_bounds`; the two together are `subscripts_in_bounds`), but its pair loop touches
`codeword[1]` when `n = 1`, and its transforms step past the end when `n` is not a power of two
(`decodeMain_out_of_bounds`).
-/

namespace NovelPoly

/-! ### The subscripts -/

/-- The `data` subscripts of a transform with the given stages: `data[i]` and
`data[i+depart_no]` of every butterfly of every block `j`. -/
def transformCells (stages : List Nat) (size : Nat) : List Nat :=
  stages.flatMap fun d => (forStep d size (2 * d)).flatMap fun j =>
    (forRange (j - d) j).flatMap fun i => [i, i + d]

/-- The `skewVec` subscripts `j + index - 1` of a transform with the given stages. -/
def transformSkew (stages : List Nat) (size index : Nat) : List Nat :=
  stages.flatMap fun d => (forStep d size (2 * d)).map fun j => j + index - 1

/-- The `cos` subscripts `cos[j]`, `cos[j+leng]` of `formal_derivative(cos, size)`. -/
def derivativeCells (size : Nat) : List Nat :=
  (forRange 1 size).flatMap fun i =>
    let leng := ((i ^^^ (i - 1)) + 1) >>> 1
    (forRange (i - leng) i).flatMap fun j => [j, j + leng]

/-- The `codeword` subscripts of `encodeL(data, k, codeword, n)`: the message copy,
`IFLT(codeword, k, 0)`, and for each parity block `i` the copy into `codeword[i..i+k)` from
`codeword[0..k)` and `FLT(&codeword[i], k, i)`; then the message copy again. -/
def encodeLCodeword (k n : Nat) : List Nat :=
  forRange 0 k ++ transformCells (doublings k) k ++
    (forStep k n k).flatMap (fun i =>
      forRange i (i + k) ++ forRange 0 k ++ (transformCells (halvings k) k).map (i + ·)) ++
    forRange 0 k

/-- The `data` subscripts of `encodeL`: its two copies of the message. -/
def encodeLData (k : Nat) : List Nat := forRange 0 k ++ forRange 0 k

/-- The `skewVec` subscripts of `encodeL`: `IFLT(codeword, k, 0)` and each `FLT(…, k, i)`. -/
def encodeLSkew (k n : Nat) : List Nat :=
  transformSkew (doublings k) k 0 ++ (forStep k n k).flatMap (fun i => transformSkew (halvings k) k i)

/-- The `codeword` subscripts of `decode_main(codeword, k, erasure, log_walsh2, n)`: the masking
loop, `IFLT(codeword, n, 0)`, the two pair loops around `formal_derivative(codeword, n)`,
`FLT(codeword, n, 0)` and the final loop over `k`. -/
def decodeMainCodeword (k n : Nat) : List Nat :=
  forRange 0 n ++ transformCells (doublings n) n ++ (forStep 0 n 2).flatMap (fun i => [i, i + 1]) ++
    derivativeCells n ++ (forStep 0 n 2).flatMap (fun i => [i, i + 1]) ++
    transformCells (halvings n) n ++ forRange 0 k

/-- The `skewVec` subscripts of `decode_main`: `IFLT(codeword, n, 0)` and `FLT(codeword, n, 0)`. -/
def decodeMainSkew (n : Nat) : List Nat := transformSkew (doublings n) n 0 ++ transformSkew (halvings n) n 0

/-- The `B` subscripts `i >> 1` of the two pair loops of `decode_main`. -/
def decodeMainB (n : Nat) : List Nat := (forStep 0 n 2).map (· >>> 1) ++ (forStep 0 n 2).map (· >>> 1)

/-! ### The lists are the footprints

Each list is tied to the value model: a cell outside a function's `codeword` list keeps its value
(`IFLT_frame`, `FLT_frame`, `formalDerivative_frame`, `decodeMain_frame`), and two table states that
agree on a function's `skewVec` and `B` lists give the same result (`IFLT_skew_reads`,
`FLT_skew_reads`, `decodeMain_table_reads`). -/

section Footprint

open Function

variable (T : Tables)

theorem xorPass_fix {d j t : Nat} (h : ∀ i ∈ forRange (j - d) j, t ≠ i + d) (x : Buf) : xorPass x d j t = x t :=
  foldl_fix_cell _ (fun i hi _ => update_noteq (h i hi) _ _) x

theorem mulPass_fix {d j t : Nat} (skew : Nat) (h : ∀ i ∈ forRange (j - d) j, t ≠ i) (x : Buf) :
    mulPass T x d j skew t = x t :=
  foldl_fix_cell _ (fun i hi _ => update_noteq (h i hi) _ _) x

/-- A cell outside `transformCells` is neither cell of any butterfly. -/
theorem not_mem_transformCells {stages : List Nat} {size t : Nat} (ht : t ∉ transformCells stages size) :
    ∀ d ∈ stages, ∀ j ∈ forStep d size (2 * d), ∀ i ∈ forRange (j - d) j, t ≠ i ∧ t ≠ i + d := by
  simpa only [transformCells, List.mem_flatMap, List.mem_cons, List.mem_singleton, List.not_mem_nil, or_false,
    not_exists, not_and, not_or, ne_eq] using ht

theorem ifltBlock_fix (index : Nat) {d j t : Nat} (h : ∀ i ∈ forRange (j - d) j, t ≠ i ∧ t ≠ i + d) (x : Buf) :
    ifltBlock T index d x j t = x t := by
  have hx := xorPass_fix (fun i hi => (h i hi).2) x
  dsimp only [ifltBlock]
  split_ifs
  · rw [mulPass_fix T _ (fun i hi => (h i hi).1), hx]
  · exact hx

theorem fltBlock_fix (index : Nat) {d j t : Nat} (h : ∀ i ∈ forRange (j - d) j, t ≠ i ∧ t ≠ i + d) (x : Buf) :
    fltBlock T index d x j t = x t := by
  dsimp only [fltBlock]
  rw [xorPass_fix (fun i hi => (h i hi).2)]
  split_ifs
  · exact mulPass_fix T _ (fun i hi => (h i hi).1) x
  · rfl

/-- `IFLT(data, size, index)` stores only into cells of its subscript list. -/
theorem IFLT_frame (index : Nat) {size t : Nat} (ht : t ∉ transformCells (doublings size) size) (x : Buf) :
    IFLT T x size index t = x t :=
  have h := not_mem_transformCells ht
  foldl_fix_cell _ (fun d hd y => foldl_fix_cell _ (fun j hj z => ifltBlock_fix T index (h d hd j hj) z) y) x

/-- `FLT(data, size, index)` stores only into cells of its subscript list. -/
theorem FLT_frame (index : Nat) {size t : Nat} (ht : t ∉ transformCells (halvings size) size) (x : Buf) :
    FLT T x size index t = x t :=
  have h := not_mem_transformCells ht
  foldl_fix_cell _ (fun d hd y => foldl_fix_cell _ (fun j hj z => fltBlock_fix T index (h d hd j hj) z) y) x

/-- `formal_derivative(cos, size)` stores only into cells of its subscript list. -/
theorem formalDerivative_frame {size t : Nat} (ht : t ∉ derivativeCells size) (x : Buf) :
    formalDerivative x size t = x t := by
  simp only [derivativeCells, List.mem_flatMap, List.mem_cons, List.mem_singleton, List.not_mem_nil, or_false,
    not_exists, not_and, not_or] at ht
  exact foldl_fix_cell _ (fun i hi y =>
    foldl_fix_cell _ (fun j hj _ => update_noteq (ht i hi j hj).1 _ _) y) x

/-- The pair loops of `decode_main` store only into `codeword[i]` and `codeword[i+1]` for even `i`. -/
theorem scalePairs_frame {n t : Nat} (ht : t ∉ (forStep 0 n 2).flatMap fun i => [i, i + 1]) (w : Nat → Nat)
    (x : Buf) : scalePairs T x n w t = x t := by
  simp only [List.mem_flatMap, List.mem_cons, List.mem_singleton, List.not_mem_nil, or_false, not_exists,
    not_and, not_or] at ht
  exact foldl_fix_cell _ (fun i hi y => by rw [update_noteq (ht i hi).2, update_noteq (ht i hi).1]) x

/-- `decode_main` stores only into cells of its subscript list. -/
theorem decodeMain_frame {k n t : Nat} (ht : t ∉ decodeMainCodeword k n) (erasure : Nat → Int) (log_walsh2 c : Buf) :
    decodeMain T c k erasure log_walsh2 n t = c t := by
  simp only [decodeMainCodeword, List.mem_append, not_or] at ht
  obtain ⟨⟨⟨⟨⟨⟨hmask, hifft⟩, hpre⟩, hderiv⟩, hpost⟩, hfft⟩, hlast⟩ := ht
  have hloop : ∀ (l : List Nat), t ∉ l → ∀ (F : Nat → Buf → Nat) (x : Buf),
      l.foldl (fun c i => update c i (F i c)) x t = x t := fun l hl F x =>
    foldl_fix_cell _ (fun i hi _ => update_noteq (fun (h : t = i) => hl (h ▸ hi)) _ _) x
  dsimp only [decodeMain, derivSandwich]
  rw [hloop _ hlast, FLT_frame T 0 hfft, scalePairs_frame T hpost, formalDerivative_frame hderiv,
    scalePairs_frame T hpre, IFLT_frame T 0 hifft, hloop _ hmask]

/-- `IFLT` reads `skewVec` only at its subscript list: two table states with the same products that
agree there transform alike. -/
theorem IFLT_skew_reads {T T' : Tables} (hmul : mulE T = mulE T') (index : Nat) {size : Nat}
    (hskew : ∀ s ∈ transformSkew (doublings size) size index, T.skewVec s = T'.skewVec s) (x : Buf) :
    IFLT T x size index = IFLT T' x size index :=
  List.foldl_ext _ _ _ fun _ d hd => List.foldl_ext _ _ _ fun _ j hj => by
    simp only [ifltBlock, mulPass, hmul, hskew _ (List.mem_flatMap.2 ⟨d, hd, List.mem_map.2 ⟨j, hj, rfl⟩⟩)]

/-- `FLT` reads `skewVec` only at its subscript list. -/
theorem FLT_skew_reads {T T' : Tables} (hmul : mulE T = mulE T') (index : Nat) {size : Nat}
    (hskew : ∀ s ∈ transformSkew (halvings size) size index, T.skewVec s = T'.skewVec s) (x : Buf) :
    FLT T x size index = FLT T' x size index :=
  List.foldl_ext _ _ _ fun _ d hd => List.foldl_ext _ _ _ fun _ j hj => by
    simp only [fltBlock, mulPass, hmul, hskew _ (List.mem_flatMap.2 ⟨d, hd, List.mem_map.2 ⟨j, hj, rfl⟩⟩)]

/-- A pair loop reads its weights `w(i/2)` only at even `i < n`. -/
theorem scalePairs_congr {T T' : Tables} (hmul : mulE T = mulE T') {n : Nat} (w w' : Nat → Nat)
    (hw : ∀ i ∈ forStep 0 n 2, w (i / 2) = w' (i / 2)) (x : Buf) : scalePairs T x n w = scalePairs T' x n w' :=
  List.foldl_ext _ _ _ fun _ i hi => by simp only [hmul, hw i hi]

/-- `decode_main` reads `skewVec` and `B` only at its subscript lists. -/
theorem decodeMain_table_reads {T T' : Tables} (hmul : mulE T = mulE T') {n : Nat}
    (hskew : ∀ s ∈ decodeMainSkew n, T.skewVec s = T'.skewVec s) (hB : ∀ s ∈ decodeMainB n, T.B s = T'.B s)
    (c : Buf) (k : Nat) (erasure : Nat → Int) (log_walsh2 : Buf) :
    decodeMain T c k erasure log_walsh2 n = decodeMain T' c k erasure log_walsh2 n := by
  have hB' : ∀ i ∈ forStep 0 n 2, T.B (i / 2) = T'.B (i / 2) := fun i hi => by
    simpa only [Nat.shiftRight_eq_div_pow, pow_one] using hB _ (List.mem_append_left _ (List.mem_map_of_mem _ hi))
  dsimp only [decodeMain, derivSandwich]
  rw [IFLT_skew_reads hmul 0 (fun s hs => hskew s (List.mem_append_left _ hs)),
    scalePairs_congr hmul (fun t => 65535 - T.B t) (fun t => 65535 - T'.B t) (fun i hi => by simp only [hB' i hi]),
    scalePairs_congr hmul T.B T'.B hB', FLT_skew_reads hmul 0 (fun s hs => hskew s (List.mem_append_right _ hs)), hmul]

end Footprint

/-! ### Bounds -/

section Transform

variable {stages : List Nat} {size : Nat}

/-- A block `j` of half-width `d` in a buffer whose length is a multiple of `2d` ends by `size`. -/
theorem block_end_le {d j : Nat} (hd : 0 < d) (hsize : 2 * d ∣ size) (hj : j ∈ forStep d size (2 * d)) :
    d ≤ j ∧ j + d ≤ size := by
  obtain ⟨hlo, hhi, hdvd⟩ := (mem_forStep (by omega)).1 hj
  have := add_le_of_dvd hdvd hsize (by omega)
  exact ⟨hlo, by omega⟩

theorem transformCells_lt (hst : ∀ d ∈ stages, 0 < d ∧ 2 * d ∣ size) :
    ∀ t ∈ transformCells stages size, t < size := by
  intro t ht
  simp only [transformCells, List.mem_flatMap, List.mem_cons, List.mem_singleton, List.not_mem_nil,
    or_false] at ht
  obtain ⟨d, hd, j, hj, i, hi, rfl | rfl⟩ := ht <;>
  · have := block_end_le (hst d hd).1 (hst d hd).2 hj
    rw [mem_forRange] at hi; omega

theorem transformSkew_lt (hst : ∀ d ∈ stages, 0 < d ∧ 2 * d ∣ size) (index : Nat) :
    ∀ t ∈ transformSkew stages size index, t + 2 ≤ size + index := by
  intro t ht
  simp only [transformSkew, List.mem_flatMap, List.mem_map] at ht
  obtain ⟨d, hd, j, hj, rfl⟩ := ht
  have := block_end_le (hst d hd).1 (hst d hd).2 hj
  have := (hst d hd).1
  omega

end Transform

/-- The stages of `IFLT` and `FLT` on a power-of-two size `2^m` split it into blocks. -/
theorem stages_two_pow (m : Nat) :
    ∀ d ∈ doublings (2 ^ m) ++ halvings (2 ^ m), 0 < d ∧ 2 * d ∣ 2 ^ m := by
  intro d hd
  rw [doublings_two_pow, halvings_two_pow, List.mem_append, List.mem_reverse, or_self,
    List.mem_map] at hd
  obtain ⟨r, hr, rfl⟩ := hd
  refine ⟨Nat.two_pow_pos r, ?_⟩
  rw [← Nat.pow_succ']
  exact Nat.pow_dvd_pow 2 (List.mem_range.1 hr)

theorem exists_two_pow_mul_odd (i : Nat) (hi : i ≠ 0) : ∃ v q, i = 2 ^ v * (2 * q + 1) := by
  induction i using Nat.strong_induction_on with
  | _ i ih =>
    obtain ⟨h, rfl | rfl⟩ := Nat.even_or_odd' i
    · obtain ⟨v, q, hq⟩ := ih h (by omega) (by omega)
      exact ⟨v + 1, q, by rw [hq, Nat.pow_succ]; ring⟩
    · exact ⟨0, h, by simp⟩

/-- Iteration `i` of `formal_derivative(cos, 2^m)` reads no further than `i + leng ≤ 2^m`: `leng` is the
lowest set bit `2^v` of `i`, which divides both `i` and `2^m`. -/
theorem add_leng_le {i m : Nat} (hi0 : 0 < i) (hi : i < 2 ^ m) : i + (((i ^^^ (i - 1)) + 1) >>> 1) ≤ 2 ^ m := by
  obtain ⟨v, q, hio⟩ := exists_two_pow_mul_odd i (by omega)
  have h2v : 2 ^ v ≤ i := by rw [hio]; exact Nat.le_mul_of_pos_right _ (by omega)
  have hv : v < m := (Nat.pow_lt_pow_iff_right (by decide)).1 (lt_of_le_of_lt h2v hi)
  rw [hio, lowbit_eq, ← hio]
  exact add_le_of_dvd ⟨2 * q + 1, hio⟩ (Nat.pow_dvd_pow 2 hv.le) hi

/-- In `formal_derivative(cos, 2^m)` every subscript stays below `2^m`. -/
theorem derivativeCells_lt (m : Nat) : ∀ t ∈ derivativeCells (2 ^ m), t < 2 ^ m := by
  intro t ht
  simp only [derivativeCells, List.mem_flatMap, List.mem_cons, List.mem_singleton, List.not_mem_nil,
    or_false] at ht
  obtain ⟨i, hi, j, hj, hji⟩ := ht
  rw [mem_forRange] at hi hj
  have := add_leng_le (by omega) hi.2
  omega

/-! ### `encodeL` and `decode_main` -/

/-- For `k = 2^a` and `n` a positive multiple of `k` up to `2^16`, `encodeL` uses `codeword` below
`n`, `data` below `k` and `skewVec` below `MODULO`. -/
theorem encodeL_bounds {a c : Nat} (hc : 0 < c) (hn : c * 2 ^ a ≤ 65536) :
    (∀ t ∈ encodeLCodeword (2 ^ a) (c * 2 ^ a), t < c * 2 ^ a) ∧
      (∀ t ∈ encodeLData (2 ^ a), t < 2 ^ a) ∧
      (∀ t ∈ encodeLSkew (2 ^ a) (c * 2 ^ a), t < 65535) := by
  have hk := Nat.two_pow_pos a
  have hkn : 2 ^ a ≤ c * 2 ^ a := Nat.le_mul_of_pos_left _ hc
  have hst := stages_two_pow a
  have hcells := transformCells_lt fun d hd => hst d (List.mem_append_left _ hd)
  have hcells' := transformCells_lt fun d hd => hst d (List.mem_append_right _ hd)
  have hblock : ∀ i ∈ forStep (2 ^ a) (c * 2 ^ a) (2 ^ a), i + 2 ^ a ≤ c * 2 ^ a := fun i hi => by
    obtain ⟨hlo, hhi, hdvd⟩ := (mem_forStep hk).1 hi
    have hi' : 2 ^ a ∣ i := by
      have := Nat.dvd_add hdvd (Nat.dvd_refl (2 ^ a)); rwa [Nat.sub_add_cancel hlo] at this
    exact add_le_of_dvd hi' (Dvd.intro_left c rfl) hhi
  refine ⟨fun t ht => ?_, fun t ht => ?_, fun t ht => ?_⟩
  · simp only [encodeLCodeword, List.mem_append, List.mem_flatMap, List.mem_map, mem_forRange] at ht
    rcases ht with ((⟨-, h⟩ | h) | ⟨i, hi, (⟨-, h⟩ | ⟨-, h⟩) | ⟨u, hu, rfl⟩⟩) | ⟨-, h⟩
    · omega
    · have := hcells t h; omega
    · have := hblock i hi; omega
    · omega
    · have := hblock i hi; have := hcells' u hu; omega
    · omega
  · simp only [encodeLData, List.mem_append, mem_forRange] at ht; omega
  · simp only [encodeLSkew, List.mem_append, List.mem_flatMap] at ht
    rcases ht with h | ⟨i, hi, h⟩
    · have := transformSkew_lt (fun d hd => hst d (List.mem_append_left _ hd)) 0 t h; omega
    · have := transformSkew_lt (fun d hd => hst d (List.mem_append_right _ hd)) i t h
      have := hblock i hi; omega

/-- For `n = 2^b` with `1 ≤ b ≤ 16` and `k ≤ n`, `decode_main` uses `codeword` below `n`,
`skewVec` below `MODULO` and `B` below `2^15`. -/
theorem decodeMain_bounds {k b : Nat} (hk : k ≤ 2 ^ b) (hb : 1 ≤ b) (hb16 : b ≤ 16) :
    (∀ t ∈ decodeMainCodeword k (2 ^ b), t < 2 ^ b) ∧ (∀ t ∈ decodeMainSkew (2 ^ b), t < 65535) ∧
      (∀ t ∈ decodeMainB (2 ^ b), t < 32768) := by
  have hn : 2 ^ b ≤ 65536 := Nat.pow_le_pow_right (by decide) hb16
  have hst := stages_two_pow b
  have h2 : 2 ∣ 2 ^ b := by simpa using Nat.pow_dvd_pow 2 hb
  have hpair : ∀ i ∈ forStep 0 (2 ^ b) 2, i + 2 ≤ 2 ^ b := fun i hi => by
    obtain ⟨-, hhi, hdvd⟩ := (mem_forStep (by decide)).1 hi
    exact add_le_of_dvd (by simpa using hdvd) h2 hhi
  refine ⟨fun t ht => ?_, fun t ht => ?_, fun t ht => ?_⟩
  · simp only [decodeMainCodeword, List.mem_append, List.mem_flatMap, mem_forRange, List.mem_cons,
      List.mem_singleton, List.not_mem_nil, or_false] at ht
    rcases ht with (((((⟨-, h⟩ | h) | ⟨i, hi, h⟩) | h) | ⟨i, hi, h⟩) | h) | ⟨-, h⟩
    · exact h
    · exact transformCells_lt (fun d hd => hst d (List.mem_append_left _ hd)) t h
    · have := hpair i hi; omega
    · exact derivativeCells_lt b t h
    · have := hpair i hi; omega
    · exact transformCells_lt (fun d hd => hst d (List.mem_append_right _ hd)) t h
    · omega
  · simp only [decodeMainSkew, List.mem_append] at ht
    rcases ht with h | h
    · have := transformSkew_lt (fun d hd => hst d (List.mem_append_left _ hd)) 0 t h; omega
    · have := transformSkew_lt (fun d hd => hst d (List.mem_append_right _ hd)) 0 t h; omega
  · simp only [decodeMainB, List.mem_append, or_self, List.mem_map, Nat.shiftRight_eq_div_pow] at ht
    obtain ⟨i, hi, rfl⟩ := ht
    have := hpair i hi
    omega

/-- The subscripts stay in bounds once `decode_main` is restricted to power-of-two lengths of at
least `2`: `encodeL` for every power-of-two `k` and positive multiple `n ≤ 2^16` of it, and
`decode_main` for `k ≤ n = 2^b` with `1 ≤ b ≤ 16`. -/
theorem subscripts_in_bounds :
    (∀ a c, 0 < c → c * 2 ^ a ≤ 65536 →
      (∀ t ∈ encodeLCodeword (2 ^ a) (c * 2 ^ a), t < c * 2 ^ a) ∧
        (∀ t ∈ encodeLData (2 ^ a), t < 2 ^ a) ∧ (∀ t ∈ encodeLSkew (2 ^ a) (c * 2 ^ a), t < 65535)) ∧
    (∀ a b, a ≤ b → 1 ≤ b → b ≤ 16 →
      (∀ t ∈ decodeMainCodeword (2 ^ a) (2 ^ b), t < 2 ^ b) ∧
        (∀ t ∈ decodeMainSkew (2 ^ b), t < 65535) ∧ (∀ t ∈ decodeMainB (2 ^ b), t < 32768)) :=
  ⟨fun _ _ hc hn => encodeL_bounds hc hn,
    fun _ _ hab hb hb16 => decodeMain_bounds (Nat.pow_le_pow_right (by decide) hab) hb hb16⟩

/-- `encodeL` needs `k ∣ n`: for every `k < n` that `k` does not divide, the last parity block
`i = k·⌊n/k⌋` copies into `codeword[i .. i+k)`, past `codeword[n-1]`. -/
theorem encodeL_overrun {k n : Nat} (hk : 0 < k) (hkn : k < n) (hdvd : ¬ k ∣ n) :
    ∃ t ∈ encodeLCodeword k n, n ≤ t := by
  have hmod : 0 < n % k := Nat.pos_of_ne_zero fun h => hdvd (Nat.dvd_of_mod_eq_zero h)
  have hq : 1 ≤ n / k := (Nat.one_le_div_iff hk).2 hkn.le
  have hn := Nat.div_add_mod n k
  have hlo : k ≤ k * (n / k) := Nat.le_mul_of_pos_right _ hq
  have hmem : k * (n / k) ∈ forStep k n k :=
    (mem_forStep hk).2 ⟨hlo, by omega, by rw [← Nat.mul_sub_one]; exact Dvd.intro _ rfl⟩
  refine ⟨k * (n / k) + (k - 1), ?_, by have := Nat.mod_lt n hk; omega⟩
  simp only [encodeLCodeword, List.mem_append, List.mem_flatMap]
  exact Or.inl (Or.inr ⟨_, hmem, Or.inl (Or.inl (mem_forRange.2 ⟨by omega, by omega⟩))⟩)

theorem encodeL_overrun_two_three : 0 < 2 ∧ 2 < 3 ∧ ¬ 2 ∣ 3 ∧ ∃ t ∈ encodeLCodeword 2 3, 3 ≤ t :=
  ⟨by decide, by decide, by decide, encodeL_overrun (by decide) (by decide) (by decide)⟩

/-- `decode_main` steps past the end of `codeword` for `k = n = 1` (its pair loop touches
`codeword[1]`) and for `k = 1, n = 3` (`IFLT` of size `3` touches `codeword[3]`). -/
theorem decodeMain_out_of_bounds : 1 ∈ decodeMainCodeword 1 1 ∧ 3 ∈ decodeMainCodeword 1 3 := by
  decide

end NovelPoly
