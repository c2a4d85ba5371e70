import NovelPoly.Transform
import NovelPoly.Walsh

/-!
The decoder of `RSErasureCode.c`: `decode_init` evaluates the error locator in the log domain,
`decode_main` recovers the erased symbols, and `formal_derivative` is the XOR derivative in the
novel basis that `decode_main` uses between two rescalings by `B`.

The erasure mask is an `int` array (`typedef int Boolean`): the seed loop of `decode_init` stores
`erasure[i]` into a `GFSymbol`, which keeps it modulo `2^16`, while every other use tests it for
truth.
-/

namespace NovelPoly

open Function

/-- `decode_init(erasure, log_walsh2, n)`: seed with the mask, transform, multiply pointwise by
`log_walsh` modulo `MODULO`, transform again, and negate at the erased positions. -/
def decodeInit (T : Tables) (erasure : Nat → Int) (log_walsh2 : Buf) (n : Nat) : Buf :=
  let lw := (forRange 0 n).foldl (fun lw i => update lw i (erasure i % 65536).toNat) log_walsh2
  let lw := walsh lw 65536
  let lw := (forRange 0 n).foldl (fun lw i => update lw i (lw i * T.logWalsh i % 65535)) lw
  let lw := walsh lw 65536
  (forRange 0 n).foldl (fun lw i => if erasure i ≠ 0 then update lw i (65535 - lw i) else lw) lw

/-! ### `decode_init` in closed form -/

/-- The negation loop stores into cell `i` only, the value it already holds when `erasure[i] = 0`. -/
theorem negStep_eq (erasure : Nat → Int) :
    (fun (lw : Buf) i => if erasure i ≠ 0 then update lw i (65535 - lw i) else lw) =
      fun lw i => update lw i (if erasure i ≠ 0 then 65535 - lw i else lw i) := by
  funext lw i; split <;> simp [*]

/-- `decode_init`: the seed and the product loops touch `[0, n)`, both transforms the whole field,
and the negation loop the erased cells of `[0, n)`. -/
theorem decodeInit_apply (T : Tables) (erasure : Nat → Int) (lw : Buf) (n t : Nat) :
    decodeInit T erasure lw n t =
      let seed : Buf := fun u => if u < n then (erasure u % 65536).toNat else lw u
      let prod : Buf := fun u =>
        if u < n then walsh seed 65536 u * T.logWalsh u % 65535 else walsh seed 65536 u
      if t < n ∧ erasure t ≠ 0 then 65535 - walsh prod 65536 t else walsh prod 65536 t := by
  have hpt : ∀ (F : Nat → Nat → Nat) (x : Buf),
      (forRange 0 n).foldl (fun x i => update x i (F i (x i))) x =
        fun u => if u < n then F u (x u) else x u := fun F x => funext fun u => by
    rw [foldl_pointwise (forRange_nodup 0 n)]; simp only [mem_forRange, Nat.zero_le, true_and]
  dsimp only [decodeInit]
  rw [negStep_eq, hpt (fun i _ => (erasure i % 65536).toNat), hpt (fun i v => v * T.logWalsh i % 65535),
    hpt (fun i v => if erasure i ≠ 0 then 65535 - v else v)]
  dsimp only
  by_cases ht : t < n <;> simp only [ht, true_and, false_and, if_true, if_false]

/-- `formal_derivative(cos, size)`: for each `i < size`, with `leng = ((i ^ (i-1)) + 1) >> 1` the
lowest set bit of `i`, `cos[j] ^= cos[j+leng]` for `j ∈ [i-leng, i)`. -/
def formalDerivative (cos : Buf) (size : Nat) : Buf :=
  (forRange 1 size).foldl (fun cos i =>
    let leng := ((i ^^^ (i - 1)) + 1) >>> 1
    (forRange (i - leng) i).foldl (fun cos j => update cos j (cos j ^^^ cos (j + leng))) cos) cos

/-- `leng = ((i ^ (i-1)) + 1) >> 1` is the lowest set bit of `i = 2^v · (2q + 1)`. -/
theorem lowbit_eq (v q : Nat) : (((2 ^ v * (2 * q + 1)) ^^^ (2 ^ v * (2 * q + 1) - 1)) + 1) >>> 1 = 2 ^ v := by
  have hv := Nat.two_pow_pos v
  have hsplit : 2 ^ v * (2 * q + 1) = 2 ^ (v + 1) * q + 2 ^ v := by rw [Nat.pow_succ]; ring
  have hxor : (2 ^ (v + 1) * q + 2 ^ v) ^^^ (2 ^ (v + 1) * q + (2 ^ v - 1)) = 2 ^ (v + 1) - 1 :=
    Nat.eq_of_testBit_eq fun j => by
      have h1 : 2 ^ v < 2 ^ (v + 1) := Nat.pow_lt_pow_right (by decide) (by omega)
      rw [Nat.testBit_xor, Nat.testBit_mul_pow_two_add _ h1, Nat.testBit_mul_pow_two_add _ (by omega),
        Nat.testBit_two_pow_sub_one]
      split_ifs with hj
      · rw [Nat.testBit_two_pow, Nat.testBit_two_pow_sub_one]
        rcases Nat.lt_or_ge j v with h | h
        · simp [h, hj, show v ≠ j by omega]
        · simp [show v = j by omega, hj]
      · simp [hj]
  rw [hsplit, show 2 ^ (v + 1) * q + 2 ^ v - 1 = 2 ^ (v + 1) * q + (2 ^ v - 1) by omega, hxor,
    Nat.sub_add_cancel (Nat.one_le_two_pow), Nat.shiftRight_eq_div_pow, Nat.pow_succ, Nat.pow_one,
    Nat.mul_div_cancel _ (by decide)]

/-- The two rescaling loops of `decode_main`: `codeword[i] = mulE(codeword[i], w[i>>1])` and the
same for `i + 1`, for `i = 0, 2, 4, … < n`; the exponent `w` is `MODULO - B[·]` before the
derivative and `B[·]` after it. -/
def scalePairs (T : Tables) (codeword : Buf) (n : Nat) (w : Nat → Nat) : Buf :=
  (forStep 0 n 2).foldl (fun c i =>
    let c := update c i (mulE T (c i) (w (i / 2)))
    update c (i + 1) (mulE T (c (i + 1)) (w (i / 2)))) codeword

/-- The derivative step of `decode_main`: rescale the pairs by `MODULO - B[i>>1]`, run
`formal_derivative(codeword, n)`, rescale them by `B[i>>1]`. -/
def derivSandwich (T : Tables) (codeword : Buf) (n : Nat) : Buf :=
  scalePairs T (formalDerivative (scalePairs T codeword n (fun t => 65535 - T.B t)) n) n T.B

/-- `decode_main(codeword, k, erasure, log_walsh2, n)`. -/
def decodeMain (T : Tables) (codeword : Buf) (k : Nat) (erasure : Nat → Int) (log_walsh2 : Buf)
    (n : Nat) : Buf :=
  let c := (forRange 0 n).foldl (fun c i =>
    update c i (if erasure i ≠ 0 then 0 else mulE T (c i) (log_walsh2 i))) codeword
  let c := IFLT T c n 0
  let c := derivSandwich T c n
  let c := FLT T c n 0
  (forRange 0 k).foldl (fun c i =>
    update c i (if erasure i ≠ 0 then mulE T (c i) (log_walsh2 i) else 0)) c

end NovelPoly
