import NovelPoly.Walsh

/-!
The one-time setup of `RSErasureCode.c`: `init` builds `LOG_TABLE` / `EXP_TABLE`, `init_dec`
builds `skewVec`, `B` and `log_walsh`, and `setup` runs both. Each is a function from the tables
before the call to the tables after it, so that a run of `setup` from any earlier state (the
zero-initialised one, or the state a previous `setup` left) can be followed.

`init` walks the powers of `x` modulo `x^16 + x^5 + x^3 + x^2 + 1` (`nextState`), recording
`EXP_TABLE[x^i] = i`; it fills `LOG_TABLE` with the Cantor-basis images `⊕_{bits i of v} Base[i]`,
turns them into logarithms through that table, and inverts the result into `EXP_TABLE`.
-/

namespace NovelPoly

open Function

/-- `mask = 0x2D`: the low bits of `x^16 + x^5 + x^3 + x^2 + 1`. -/
def mask : Nat := 45

/-- The Cantor basis `Base[FIELD_BITS]`. -/
def Base (i : Nat) : Nat :=
  [1, 44234, 15374, 5694, 50562, 60718, 37196, 16402, 27800, 4312, 27250, 47360, 64952, 64308,
    65336, 39198].getD i 0

/-- The body of `init`'s first loop after the store: `state &= mas; state = state<<1 ^ mask` when
the top bit is set, `state <<= 1` otherwise (`mas = (1 << 15) - 1`). -/
def nextState (state : Nat) : Nat :=
  if state >>> 15 ≠ 0 then ((state &&& 32767) <<< 1) ^^^ mask else state <<< 1

/-- `init`'s first loop: `for (i = 0; i < MODULO; i++) EXP_TABLE[state] = i, …` from `state = 1`. -/
def expWalk (exp : Buf) : Buf × Nat :=
  (forRange 0 65535).foldl (fun p i => (update p.1 p.2 i, nextState p.2)) (exp, 1)

/-- `LOG_TABLE[0] = 0; for (i < FIELD_BITS) for (j < 1<<i) LOG_TABLE[j+(1<<i)] = LOG_TABLE[j] ^ Base[i];` -/
def logBasis (log : Buf) : Buf :=
  (forRange 0 16).foldl (fun log i =>
    (forRange 0 (2 ^ i)).foldl (fun log j => update log (j + 2 ^ i) (log j ^^^ Base i)) log)
    (update log 0 0)

/-- `init()`: the walk, `EXP_TABLE[0] = MODULO`, `LOG_TABLE[i] = EXP_TABLE[LOG_TABLE[i]]`,
`EXP_TABLE[LOG_TABLE[i]] = i`, `EXP_TABLE[MODULO] = EXP_TABLE[0]`. -/
def init (T : Tables) : Tables :=
  let exp := update (expWalk T.expTable).1 0 65535
  let log := (forRange 0 65536).foldl (fun log i => update log i (exp (log i))) (logBasis T.logTable)
  let exp := (forRange 0 65536).foldl (fun exp i => update exp (log i) i) exp
  { T with logTable := log, expTable := update exp 65535 (exp 0) }

/-- One pass of `init_dec`'s `m` loop on `(skewVec, base)`: the skew factors of level `m`
(`skewVec[(1<<m)-1] = 0`, then `skewVec[j+s] = skewVec[j] ^ base[i]`), then the renormalised
`base` (`base[m] = MODULO - LOG[mulE(base[m], LOG[base[m]^1])]`, and for `i > m`
`base[i] = mulE(base[i], (LOG[base[i]^1] + base[m]) % MODULO)`). -/
def initDecStep (T : Tables) (p : Buf × Buf) (m : Nat) : Buf × Buf :=
  let skew := update p.1 (2 ^ m - 1) 0
  let skew := (forRange m 15).foldl (fun skew i =>
    (forStep (2 ^ m - 1) (2 ^ (i + 1)) (2 ^ (m + 1))).foldl
      (fun skew j => update skew (j + 2 ^ (i + 1)) (skew j ^^^ p.2 i)) skew) skew
  let base := update p.2 m (65535 - T.logTable (mulE T (p.2 m) (T.logTable (p.2 m ^^^ 1))))
  let base := (forRange (m + 1) 15).foldl (fun base i =>
    update base i (mulE T (base i) ((T.logTable (base i ^^^ 1) + base m) % 65535))) base
  (skew, base)

/-- `base[0] = MODULO-base[0]; for (i = 1; i < FIELD_BITS-1; i++) base[i] = (MODULO-base[i]+base[i-1])%MODULO;` -/
def baseSums (base : Buf) : Buf :=
  (forRange 1 15).foldl (fun base i => update base i ((65535 - base i + base (i - 1)) % 65535))
    (update base 0 (65535 - base 0))

/-- `B[0] = 0; for (i < FIELD_BITS-1) for (j < 1<<i) B[j+(1<<i)] = (B[j] + base[i])%MODULO;` -/
def fillB (B base : Buf) : Buf :=
  (forRange 0 15).foldl (fun B i =>
    (forRange 0 (2 ^ i)).foldl (fun B j => update B (j + 2 ^ i) ((B j + base i) % 65535)) B)
    (update B 0 0)

/-- `init_dec()`. The local `base[FIELD_BITS-1]` is written (`base[i-1] = 1<<i`) before it is read;
the final skew pass `skewVec[i] = LOG_TABLE[skewVec[i]]` runs to `FIELD_SIZE`, as in the source. -/
def initDec (T : Tables) : Tables :=
  let base : Buf := (forRange 1 16).foldl (fun base i => update base (i - 1) (2 ^ i)) (fun _ => 0)
  let p := (forRange 0 15).foldl (initDecStep T) (T.skewVec, base)
  let skew := (forRange 0 65536).foldl (fun skew i => update skew i (T.logTable (skew i))) p.1
  { T with skewVec := skew, B := fillB T.B (baseSums p.2), logWalsh := walsh (update T.logTable 0 0) 65536 }

/-- `setup()`: `init(); init_dec();`. -/
def setup (T : Tables) : Tables := initDec (init T)

@[simp] theorem initDec_logTable (T : Tables) : (initDec T).logTable = T.logTable := by
  cases T; rfl

@[simp] theorem initDec_expTable (T : Tables) : (initDec T).expTable = T.expTable := by
  cases T; rfl

@[simp] theorem initDec_logWalsh (T : Tables) :
    (initDec T).logWalsh = walsh (update T.logTable 0 0) 65536 := by
  dsimp only [initDec]

end NovelPoly
