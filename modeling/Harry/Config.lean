/-
The configuration phase of a matrix (hmatrix.c): `hmatrix_init`, then
the calls `main` makes before allocation — `hmatrix_xrange`,
`hmatrix_yrange`, `hmatrix_split` — as a state machine over `hmatrix_t`
whose only failure is the fatal error of a bad split.

# The invariant of a configured matrix

`ConfigInv N` is what every configuration run from `hmatrix_init N`
keeps: the x range is valid (`0 ≤ i < n ≤ N`), and the y range stays
within `[0, N]` at both ends. It does not stay valid: a split whose block
starts at or past the end of the y range passes every sanity check of
`hmatrix_split` and leaves an empty or inverted range
(`hmatrix_split_empty_block`). The weaker bounds are what allocation and
the compute loop need (Packing.lean, Compute.lean).

# Sharding

`hmatrix_split` with `b:k` for `k < b` cuts the y range into blocks of
height `⌈h/b⌉`, the last ones clipped to the range. Read as sets they
partition the range (`hmatrix_split_partition`), so an orchestrator that
runs every block loses and duplicates no row, even when the clipped
blocks come out empty. The split is written once, `splitWithHeight`, over
a reading of its height: the exact ceiling here, the source's binary32
value in `Binary32.lean`; and a run of calls once, `configRunWith`, over
a reading of one call.
-/
import Harry.Range

namespace Harry

variable {V : Type}

-- ================================================================ state

/-- `hmatrix_t`, without the labels and sources it copies for output: the
number of strings, the x and y ranges, whether the triangle alone is
stored, and the value buffer (`size` floats once allocated). -/
structure HMatrix (V : Type) where
  num : Int
  x : Range
  y : Range
  triangular : Bool
  size : Int
  values : List V

/-- `hmatrix_init(s, n)`: full ranges, triangular, nothing allocated
(`size` is not computed before `hmatrix_alloc`). -/
def hmatrix_init (n : Int) : HMatrix V :=
  { num := n, x := ⟨0, n⟩, y := ⟨0, n⟩, triangular := true, size := 0, values := [] }

-- ================================================================ ranges

/-- `m->r = parse_range(m->r, str, m->num)` for the range that `get`
reads and `set` writes. -/
def setRangeFrom (get : HMatrix V → Range) (set : HMatrix V → Range → HMatrix V)
    (m : HMatrix V) (str : CStr) : HMatrix V :=
  set m (parse_range (get m) str m.num).1

/-- `hmatrix_xrange(m, x)`. -/
def hmatrix_xrange (m : HMatrix V) (x : CStr) : HMatrix V :=
  setRangeFrom HMatrix.x (fun m r => { m with x := r }) m x

/-- `hmatrix_yrange(m, y)`. -/
def hmatrix_yrange (m : HMatrix V) (y : CStr) : HMatrix V :=
  setRangeFrom HMatrix.y (fun m r => { m with y := r }) m y

@[simp] theorem hmatrix_xrange_x (m : HMatrix V) (str : CStr) :
    (hmatrix_xrange m str).x = (parse_range m.x str m.num).1 := rfl

@[simp] theorem hmatrix_xrange_y (m : HMatrix V) (str : CStr) : (hmatrix_xrange m str).y = m.y :=
  rfl

@[simp] theorem hmatrix_xrange_num (m : HMatrix V) (str : CStr) :
    (hmatrix_xrange m str).num = m.num := rfl

@[simp] theorem hmatrix_yrange_y (m : HMatrix V) (str : CStr) :
    (hmatrix_yrange m str).y = (parse_range m.y str m.num).1 := rfl

@[simp] theorem hmatrix_yrange_x (m : HMatrix V) (str : CStr) : (hmatrix_yrange m str).x = m.x :=
  rfl

@[simp] theorem hmatrix_yrange_num (m : HMatrix V) (str : CStr) :
    (hmatrix_yrange m str).num = m.num := rfl

-- ================================================================ split

/-- The fatal errors of `hmatrix_split`, with the text each prints. -/
inductive SplitFatal where
  /-- `"Invalid split string '%s'."` -/
  | invalidSplitString (str : List UInt8)
  /-- `"Invalid number of blocks (%d)."` -/
  | invalidBlocks (blocks : Int)
  /-- `"Block height too small (%d)."` -/
  | heightTooSmall (height : Int)
  /-- `"Block index out of range (%d)."` -/
  | indexOutOfRange (index : Int)
  deriving DecidableEq, Repr

/-- `ceil(h / (float) blocks)`, read exactly: `⌈h / blocks⌉` for
`blocks > 0`. The source's binary32 value is `blockHeightF`
(Binary32.lean), equal to this one up to `h = 2^24`; for `blocks ≤ 0` the
value is never used. -/
def blockHeight (h blocks : Int) : Int := (h + blocks - 1) / blocks

/-- The update that ends `hmatrix_split`: block `index` of height
`height`, starting from `y.i` and clipped to `y.n`, over the integers.
`Range.blockIn` (Int32.lean) reads it in `int`; the two agree on every
range over at most `2^30` strings (`Range.blockIn_split`). -/
def Range.block (y : Range) (index height : Int) : Range :=
  ⟨y.i + index * height, if y.n > y.i + index * height + height then y.i + index * height + height
    else y.n⟩

/-- `hmatrix_split(m, str)` with the block height computed from
`h = y.n - y.i` and `blocks` by `heightOf`: an empty string changes
nothing; otherwise `blocks:index` narrows the y range to one block, or
stops the program. -/
def splitWithHeight (heightOf : Int → Int → Int) (m : HMatrix V) (str : CStr) :
    Except SplitFatal (HMatrix V) :=
  if str.bytes.length = 0 then .ok m
  else match scanSplit str.bytes with
    | none => .error (.invalidSplitString str.bytes)
    | some (blocks, index) =>
      let height := heightOf (m.y.n - m.y.i) blocks
      if blocks ≤ 0 ∨ blocks > m.y.n - m.y.i then .error (.invalidBlocks blocks)
      else if height ≤ 0 ∨ height > m.y.n - m.y.i then .error (.heightTooSmall height)
      else if index < 0 ∨ index > blocks - 1 then .error (.indexOutOfRange index)
      else .ok { m with y := m.y.block index height }

/-- `hmatrix_split(m, str)` with the height read as the exact ceiling;
`hmatrix_split_f32` (Binary32.lean) is the source's binary32 height. -/
def hmatrix_split (m : HMatrix V) (str : CStr) : Except SplitFatal (HMatrix V) :=
  splitWithHeight blockHeight m str

/-- Everything a successful split can do: nothing (an empty string), or
narrow the y range to block `index` of `blocks`, every check passed. -/
theorem splitWithHeight_ok {heightOf : Int → Int → Int} {m m' : HMatrix V} {str : CStr}
    (h : splitWithHeight heightOf m str = .ok m') :
    m' = m ∨ ∃ blocks index : Int, 0 < blocks ∧ blocks ≤ m.y.n - m.y.i ∧
      0 < heightOf (m.y.n - m.y.i) blocks ∧ 0 ≤ index ∧ index < blocks ∧
      m' = { m with y := m.y.block index (heightOf (m.y.n - m.y.i) blocks) } := by
  unfold splitWithHeight at h
  split at h
  · exact .inl (Except.ok.inj h).symm
  split at h
  · cases h
  next blocks index _ =>
  dsimp only at h
  split_ifs at h with h₁ h₂ h₃
  exact .inr ⟨blocks, index, by omega, by omega, by omega, by omega, by omega,
    (Except.ok.inj h).symm⟩

/-- Two readings of the height that agree whenever `1 ≤ blocks ≤ h` give
the same split: the height is used only once the block count passed its
check. -/
theorem splitWithHeight_congr {H₁ H₂ : Int → Int → Int} (m : HMatrix V) (str : CStr)
    (hH : ∀ b, 1 ≤ b → b ≤ m.y.n - m.y.i → H₁ (m.y.n - m.y.i) b = H₂ (m.y.n - m.y.i) b) :
    splitWithHeight H₁ m str = splitWithHeight H₂ m str := by
  unfold splitWithHeight
  split
  · rfl
  rcases scanSplit str.bytes with _ | ⟨blocks, index⟩
  · rfl
  dsimp only
  by_cases hb : blocks ≤ 0 ∨ blocks > m.y.n - m.y.i
  · rw [if_pos hb, if_pos hb]
  · rw [if_neg hb, if_neg hb, hH blocks (by omega) (by omega)]

-- ======================================================== block geometry

/-- The block height is `⌈h / b⌉`: `b` blocks cover `h` rows, with less
than one block to spare. -/
theorem blockHeight_spec (h : Int) {b : Int} (hb : 0 < b) :
    h ≤ b * blockHeight h b ∧ b * blockHeight h b < h + b := by
  unfold blockHeight
  have h₁ := Int.ediv_add_emod (h + b - 1) b
  have h₂ := Int.emod_nonneg (h + b - 1) (ne_of_gt hb)
  have h₃ := Int.emod_lt_of_pos (h + b - 1) hb
  omega

/-- With `1 ≤ b ≤ h` the height passes the split's own check,
`0 < height ≤ h`. -/
theorem blockHeight_pos_le {h b : Int} (hb : 0 < b) (hbh : b ≤ h) :
    0 < blockHeight h b ∧ blockHeight h b ≤ h := by
  obtain ⟨h₁, h₂⟩ := blockHeight_spec h hb
  constructor <;> nlinarith

theorem Range.mem_block {y : Range} {index height z : Int} :
    (y.block index height).Mem z ↔
      y.i + index * height ≤ z ∧ z < y.i + index * height + height ∧ z < y.n := by
  unfold Range.block Range.Mem
  split_ifs <;> dsimp only <;> omega

/-- A block with a non-negative index lies within the range it cuts. -/
theorem Range.block_within (y : Range) {index height : Int} (hi : 0 ≤ index) (hh : 0 < height) :
    y.i ≤ (y.block index height).i ∧ (y.block index height).n ≤ y.n := by
  have : 0 ≤ index * height := Int.mul_nonneg hi hh.le
  unfold Range.block
  split_ifs <;> dsimp only <;> omega

-- ================================================================ sharding

/-- With `1 ≤ b ≤ h`, block `k < b` of the split argument `b:k` passes
every check. -/
theorem hmatrix_split_splitStr (m : HMatrix V) {b k : Nat} (hb : 1 ≤ b)
    (hbh : (b : Int) ≤ m.y.n - m.y.i) (hh : m.y.n - m.y.i ≤ INT_MAX) (hk : k < b) :
    hmatrix_split m (splitStr b k)
      = .ok { m with y := m.y.block k (blockHeight (m.y.n - m.y.i) b) } := by
  have hlen : (splitStr b k).bytes.length ≠ 0 := by
    simp [splitStr, splitArg]
  obtain ⟨hpos, hle⟩ := blockHeight_pos_le (by omega) hbh
  unfold hmatrix_split splitWithHeight
  rw [if_neg hlen, splitStr, scanSplit_splitArg (by omega) (by omega)]
  dsimp only
  rw [if_neg (by omega), if_neg (by omega), if_neg (by omega)]

/-- The blocks are where the rows are: row `z` lies in block `k` exactly
when it lies in the range and `k = ⌊(z - y.i) / height⌋`. -/
theorem Range.mem_block_iff {y : Range} {height z : Int} (hh : 0 < height) (k : Nat) :
    (y.block k height).Mem z ↔ y.Mem z ∧ (k : Int) = (z - y.i) / height := by
  rw [Range.mem_block]
  unfold Range.Mem
  have hkH : 0 ≤ (k : Int) * height := Int.mul_nonneg (Int.ofNat_nonneg k) hh.le
  constructor
  · rintro ⟨h₁, h₂, h₃⟩
    have hq := (Int.ediv_emod_unique hh).2
      (⟨by rw [Int.mul_comm]; omega, by omega, by omega⟩ :
        (z - y.i - k * height) + height * k = z - y.i ∧ 0 ≤ z - y.i - k * height ∧
          z - y.i - k * height < height)
    exact ⟨⟨by omega, h₃⟩, hq.1.symm⟩
  · rintro ⟨⟨h₁, h₃⟩, hk⟩
    have hlo := Int.ediv_mul_le (z - y.i) hh.ne'
    have hhi := Int.lt_ediv_add_one_mul_self (z - y.i) hh
    rw [← hk, Int.add_mul, Int.one_mul] at *
    omega

example : (hmatrix_init 10 : HMatrix Unit).y.block 1 (blockHeight 10 2) = ⟨5, 10⟩ := by decide

/-- A configuration call `main` makes before allocation. -/
inductive ConfigOp where
  | xrange (str : CStr)
  | yrange (str : CStr)
  | split (str : CStr)

/-- One configuration call; only a split can fail. -/
def configStep (m : HMatrix V) : ConfigOp → Except SplitFatal (HMatrix V)
  | .xrange str => .ok (hmatrix_xrange m str)
  | .yrange str => .ok (hmatrix_yrange m str)
  | .split str => hmatrix_split m str

/-- A sequence of configuration calls made by `step`, stopped by the
first fatal error. -/
def configRunWith (step : HMatrix V → ConfigOp → Except SplitFatal (HMatrix V)) (m : HMatrix V) :
    List ConfigOp → Except SplitFatal (HMatrix V)
  | [] => .ok m
  | op :: ops => match step m op with
    | .ok m' => configRunWith step m' ops
    | .error e => .error e

/-- A sequence of configuration calls with the exact split. -/
def configRun (m : HMatrix V) (ops : List ConfigOp) : Except SplitFatal (HMatrix V) :=
  configRunWith configStep m ops

theorem configRunWith_append (step : HMatrix V → ConfigOp → Except SplitFatal (HMatrix V))
    (m : HMatrix V) (ops ops' : List ConfigOp) :
    configRunWith step m (ops ++ ops') =
      (configRunWith step m ops).bind fun m' => configRunWith step m' ops' := by
  induction ops generalizing m with
  | nil => rfl
  | cons op ops ih =>
    simp only [List.cons_append, configRunWith]
    cases step m op with
    | ok m' => exact ih m'
    | error e => rfl

-- ============================================================ the invariant

/-- The invariant of a matrix configured over `N` strings: the x range
valid, the y range within `[0, N]` at both ends. -/
structure ConfigInv (N : Int) (m : HMatrix V) : Prop where
  num_eq : m.num = N
  x_valid : m.x.Valid N
  y_lo : 0 ≤ m.y.i
  y_hi : m.y.n ≤ N

theorem configInv_init {N : Int} (hN : 1 ≤ N) : ConfigInv N (hmatrix_init N : HMatrix V) :=
  ⟨rfl, ⟨le_refl 0, show (0 : Int) < N by omega, le_refl N⟩, le_refl 0, le_refl N⟩

/-- A split keeps the invariant, whatever its height: a block with a
non-negative index and a positive height lies within the range. -/
theorem splitWithHeight_inv {heightOf : Int → Int → Int} {N : Int} {m m' : HMatrix V}
    {str : CStr} (hm : ConfigInv N m) (h : splitWithHeight heightOf m str = .ok m') :
    ConfigInv N m' := by
  rcases splitWithHeight_ok h with rfl | ⟨blocks, index, -, -, hH, hi, -, rfl⟩
  · exact hm
  · obtain ⟨hlo, hhi⟩ := m.y.block_within hi hH
    exact ⟨hm.num_eq, hm.x_valid, le_trans hm.y_lo hlo, le_trans hhi hm.y_hi⟩

/-- Each configuration call keeps the invariant. -/
theorem configStep_inv {N : Int} {m m' : HMatrix V} {op : ConfigOp} (hm : ConfigInv N m)
    (h : configStep m op = .ok m') : ConfigInv N m' := by
  obtain ⟨rfl, hx, hylo, hyhi⟩ := hm
  have hN : 0 < m.num := by unfold Range.Valid at hx; omega
  cases op with
  | xrange str =>
    cases h
    exact ⟨rfl, by simpa using parse_range_valid hx str, hylo, hyhi⟩
  | yrange str =>
    cases h
    rcases parse_range_cases m.y str hN with hy | hy
    · exact ⟨rfl, hx, by simpa [hy] using hylo, by simpa [hy] using hyhi⟩
    · exact ⟨rfl, hx, by simpa using hy.1, by simpa using hy.2.2⟩
  | split str => exact splitWithHeight_inv ⟨rfl, hx, hylo, hyhi⟩ h

/-- Every run of calls that each keep the invariant keeps it. -/
theorem configRunWith_inv {step : HMatrix V → ConfigOp → Except SplitFatal (HMatrix V)} {N : Int}
    (hstep : ∀ {m m' : HMatrix V} {op : ConfigOp}, ConfigInv N m → step m op = .ok m' →
      ConfigInv N m')
    {m m' : HMatrix V} {ops : List ConfigOp} (hm : ConfigInv N m)
    (h : configRunWith step m ops = .ok m') : ConfigInv N m' := by
  induction ops generalizing m with
  | nil => cases h; exact hm
  | cons op ops ih =>
    simp only [configRunWith] at h
    split at h
    · exact ih (hstep hm ‹_›) h
    · cases h

/-- The matrices a configuration run from `hmatrix_init N` reaches keep the
x range valid and the y range within `[0, N]`. -/
theorem configRun_init_inv {N : Int} (hN : 1 ≤ N) {ops : List ConfigOp} {m : HMatrix V}
    (h : configRun (hmatrix_init N) ops = .ok m) : ConfigInv N m :=
  configRunWith_inv configStep_inv (configInv_init hN) h

end Harry
