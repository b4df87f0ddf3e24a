/-
The arithmetic of hmatrix.c read in 32-bit `int`s.

# Two readings of an `int` operation

`Packing` computes `hmatrix_alloc`'s size and the accessors' indices over
the integers, and `Config` the bounds of a split's block. The source
computes them in `int`, where a result outside `[INT_MIN, INT_MAX]` is
undefined behaviour. `allocSizeIn`, `packedIndexIn` and `Range.blockIn`
evaluate the source's expressions operation by operation, in the order C
evaluates them, through a reading `op` of one operation: `intOp` is C's
(`none` on overflow), `wrapOp` what two's-complement hardware leaves (the
low 32 bits). `hmatrix_alloc32`, `hmatrix_set32` and `hmatrix_get32` are
the three functions with their arithmetic in C's `int`s.

# When the `int`s are exact

The triangle's size is computed as `xl * (xl - 1) / 2 + xl`, so the
product `xl·(xl − 1)` must fit, not only the size `xl·(xl + 1)/2`: from
`xl = 46342` on the size fits and the product does not
(`hmatrix_alloc_size_overflows`). `AllocFits` is the product's bound (the
rectangle's product is its size). The bridge to the integer layer:

- `allocSize32_some`: a defined size computation is the size, and the
  product met its bound; so a defined allocation meets it
  (`hmatrix_alloc32_fits`);
- `hmatrix_alloc32_eq`: under the bound the `int` allocation is the
  integer one;
- `index32_exact`: under the bound every index of the rectangle of an
  allocated matrix is exact (with the size: `int_arith_exact`), so
  `hmatrix_set32` and `hmatrix_get32` are `hmatrix_set` and `hmatrix_get`
  there (`hmatrix_set32_eq`, `hmatrix_get32_eq`).

On every matrix the source allocates the packed buffer is then a map
from cells to values (`hmatrix_get_set`).

# The split's update

`m->y.i + index * height` and `m->y.i + height` are exact when
`y.n + blocks − 1 ≤ INT_MAX`, so on every matrix configured over at most
`2^30` strings (`Range.blockIn_split`). On the range `[INT_MAX − 7,
INT_MAX)` the split `2:1` passes its checks and its update overflows
(`hmatrix_split_update_overflows`).
-/
import Harry.Packing

namespace Harry

variable {V : Type}

-- ======================================================== int operations

/-- An `int` operation as C defines it: the value, or `none` when it
overflows. -/
def intOp (v : Int) : Option Int := if InInt v then some v else none

/-- An `int` operation as two's-complement hardware computes it. -/
def wrapOp (v : Int) : Option Int := some (castInt v)

theorem intOp_of_inInt {v : Int} (h : InInt v) : intOp v = some v := if_pos h

theorem intOp_bind {β : Type} {v : Int} (h : InInt v) (f : Int → Option β) : (intOp v >>= f) = f v := by
  rw [intOp_of_inInt h]
  rfl

/-- A defined `int` operation returns the value itself, within the range. -/
theorem intOp_eq_some {v w : Int} (h : intOp v = some w) : InInt v ∧ w = v := by
  unfold intOp at h
  split_ifs at h with hv
  exact ⟨hv, (Option.some.inj h).symm⟩

theorem INT_MAX_nonneg : 0 ≤ INT_MAX := by decide

theorem inInt_of_bounds {v : Int} (h₀ : -INT_MAX ≤ v) (h₁ : v ≤ INT_MAX) : InInt v := by
  unfold InInt INT_MIN; unfold INT_MAX at h₀; omega

-- ============================================================ the size

/-- The size `hmatrix_alloc` computes, operation by operation: `xl`,
`yl`, then `xl * (xl - 1)`, its half (C's truncating `/`) and `+ xl` for
the triangle, or `xl * yl`. -/
def allocSizeIn (op : Int → Option Int) (m : HMatrix V) : Option Int := do
  let xl ← op (m.x.n - m.x.i)
  let yl ← op (m.y.n - m.y.i)
  if m.x.n = m.y.n ∧ m.x.i = m.y.i then
    let a ← op (xl - 1)
    let p ← op (xl * a)
    op (p.tdiv 2 + xl)
  else op (xl * yl)

/-- `m->size` in C's `int`s. -/
def allocSize32 (m : HMatrix V) : Option Int := allocSizeIn intOp m

/-- For 46342 strings the triangle's size fits an `int` and the product
it is computed from does not; wrapped, the size is negative. -/
theorem hmatrix_alloc_size_overflows :
    let m : HMatrix Unit := hmatrix_init 46342
    InInt m.num ∧ InInt ((m.x.n - m.x.i) * (m.x.n - m.x.i + 1) / 2) ∧
      allocSize32 m = none ∧ allocSizeIn wrapOp m = some (-1073669995) :=
  ⟨by decide, by decide, by rfl, by rfl⟩

-- ======================================================= the index

/-- The triangle's `(j - i) + i * rowLen - i * (i - 1) / 2`, operation by
operation. -/
def triIndexIn (op : Int → Option Int) (i j rowLen : Int) : Option Int := do
  let d ← op (j - i)
  let L ← op rowLen
  let e ← op (i * L)
  let f ← op (d + e)
  let g ← op (i - 1)
  let h ← op (i * g)
  op (f - h.tdiv 2)

/-- The index of `hmatrix_set` / `hmatrix_get`, operation by operation,
with `rowLen` the row length's expression (`x.n - x.i` or `x.n - y.i`),
evaluated where the triangle's branch evaluates it. -/
def packedIndexIn (op : Int → Option Int) (m : HMatrix V) (rowLen x y : Int) : Option Int := do
  let a ← op (x - m.x.i)
  let b ← op (y - m.y.i)
  if m.triangular then
    let (i, j) := if a > b then (b, a) else (a, b)
    triIndexIn op i j rowLen
  else
    let L ← op (m.x.n - m.x.i)
    let e ← op (b * L)
    op (a + e)

/-- The index `hmatrix_set` computes in C's `int`s. -/
def setIndex32 (m : HMatrix V) (x y : Int) : Option Int :=
  packedIndexIn intOp m (m.x.n - m.x.i) x y

/-- The index `hmatrix_get` computes in C's `int`s. -/
def getIndex32 (m : HMatrix V) (x y : Int) : Option Int :=
  packedIndexIn intOp m (m.x.n - m.y.i) x y

-- ============================================================ exactness

/-- A row length whose `L·(L − 1)` fits an `int` fits itself. -/
theorem le_INT_MAX_of_mul_pred {L : Int} (h₁ : 1 ≤ L) (hL : L * (L - 1) ≤ INT_MAX) : L ≤ INT_MAX := by
  rcases h₁.eq_or_lt with rfl | h₂
  · decide
  · exact (le_mul_of_one_le_right (by omega) (by omega)).trans hL

/-- With `0 ≤ i ≤ j < L` and `L·(L − 1)` within `INT_MAX`, each operation
of the triangle's index is exact. -/
theorem triIndexIn_intOp {i j L : Int} (hi : 0 ≤ i) (hij : i ≤ j) (hj : j < L)
    (hL : L * (L - 1) ≤ INT_MAX) :
    triIndexIn intOp i j L = some ((j - i) + i * L - i * (i - 1) / 2) := by
  have hLmax := le_INT_MAX_of_mul_pred (by omega) hL
  have he₀ : 0 ≤ i * L := Int.mul_nonneg hi (by omega)
  have he : i * L ≤ L * (L - 1) := by
    rw [Int.mul_comm L]
    exact Int.mul_le_mul_of_nonneg_right (by omega) (by omega)
  have hf : j - i + i * L ≤ L * (L - 1) := by
    have hrow := Int.mul_le_mul_of_nonneg_right (show i + 1 ≤ L by omega) (show 0 ≤ L - 1 by omega)
    have hexp : (i + 1) * (L - 1) = i * L - i + (L - 1) := by ring
    omega
  have hh₀ : 0 ≤ i * (i - 1) := by
    rcases hi.eq_or_lt with rfl | hi
    · simp
    · exact Int.mul_nonneg hi.le (by omega)
  have hh : i * (i - 1) ≤ L * (L - 1) :=
    calc i * (i - 1) ≤ i * (L - 1) := Int.mul_le_mul_of_nonneg_left (by omega) hi
      _ ≤ L * (L - 1) := Int.mul_le_mul_of_nonneg_right (by omega) (by omega)
  have := INT_MAX_nonneg
  simp only [triIndexIn, intOp_bind (inInt_of_bounds (by omega) (by omega) : InInt (j - i)),
    intOp_bind (inInt_of_bounds (by omega) hLmax : InInt L),
    intOp_bind (inInt_of_bounds (by omega) (he.trans hL) : InInt (i * L)),
    intOp_bind (inInt_of_bounds (by omega) (hf.trans hL) : InInt (j - i + i * L)),
    intOp_bind (inInt_of_bounds (by omega) (by omega) : InInt (i - 1)),
    intOp_bind (inInt_of_bounds (by omega) (hh.trans hL) : InInt (i * (i - 1))),
    Int.tdiv_eq_ediv hh₀ (by decide : (0 : Int) ≤ 2)]
  rw [intOp_of_inInt (inInt_of_bounds (by omega) (by omega))]

/-- The triangle's branch with both offsets below `L`. -/
theorem packedIndexIn_tri {m : HMatrix V} (ht : m.triangular = true) {L x y : Int}
    (ha : 0 ≤ x - m.x.i ∧ x - m.x.i < L) (hb : 0 ≤ y - m.y.i ∧ y - m.y.i < L)
    (hL : L * (L - 1) ≤ INT_MAX) :
    packedIndexIn intOp m L x y = some (packedIndex m L x y) := by
  have hLmax := le_INT_MAX_of_mul_pred (by omega) hL
  have := INT_MAX_nonneg
  simp only [packedIndexIn, packedIndex, ht, if_true,
    intOp_bind (inInt_of_bounds (by omega) (by omega) : InInt (x - m.x.i)),
    intOp_bind (inInt_of_bounds (by omega) (by omega) : InInt (y - m.y.i))]
  split_ifs with h
  · exact triIndexIn_intOp hb.1 (by omega) ha.2 hL
  · exact triIndexIn_intOp ha.1 (by omega) hb.2 hL

/-- The rectangle's branch with the offsets inside `xl × yl`. -/
theorem packedIndexIn_rect {m : HMatrix V} (ht : m.triangular = false) {L x y : Int}
    (hxl : m.x.n - m.x.i ≤ INT_MAX) (hyl : m.y.n - m.y.i ≤ INT_MAX)
    (ha : 0 ≤ x - m.x.i ∧ x - m.x.i < m.x.n - m.x.i)
    (hb : 0 ≤ y - m.y.i ∧ y - m.y.i < m.y.n - m.y.i)
    (hfit : (m.x.n - m.x.i) * (m.y.n - m.y.i) ≤ INT_MAX) :
    packedIndexIn intOp m L x y = some (packedIndex m L x y) := by
  have he₀ : 0 ≤ (y - m.y.i) * (m.x.n - m.x.i) := Int.mul_nonneg hb.1 (by omega)
  have he := rect_row_end (show 0 ≤ m.x.n - m.x.i by omega) hb.2
  have := INT_MAX_nonneg
  simp only [packedIndexIn, packedIndex, ht, Bool.false_eq_true, if_false,
    intOp_bind (inInt_of_bounds (by omega) (by omega) : InInt (x - m.x.i)),
    intOp_bind (inInt_of_bounds (by omega) (by omega) : InInt (y - m.y.i)),
    intOp_bind (inInt_of_bounds (by omega) hxl : InInt (m.x.n - m.x.i)),
    intOp_bind (inInt_of_bounds (by omega) (by omega) : InInt ((y - m.y.i) * (m.x.n - m.x.i)))]
  exact intOp_of_inInt (inInt_of_bounds (by omega) (by omega))


-- =================================================== the size, exactly

/-- The size `hmatrix_alloc` computes, over the integers. -/
def allocSize (m : HMatrix V) : Int :=
  if m.x.n = m.y.n ∧ m.x.i = m.y.i then (m.x.n - m.x.i) * (m.x.n - m.x.i - 1) / 2 + (m.x.n - m.x.i)
  else (m.x.n - m.x.i) * (m.y.n - m.y.i)

/-- The product the size is computed from fits an `int`: `xl·(xl − 1)` for
equal ranges, `xl·yl` otherwise. -/
def AllocFits (m : HMatrix V) : Prop :=
  if m.x.n = m.y.n ∧ m.x.i = m.y.i then (m.x.n - m.x.i) * (m.x.n - m.x.i - 1) ≤ INT_MAX
  else (m.x.n - m.x.i) * (m.y.n - m.y.i) ≤ INT_MAX

/-- The bound reads only the ranges. -/
theorem AllocFits.of_ranges {m m' : HMatrix V} (h : AllocFits m) (hx : m'.x = m.x)
    (hy : m'.y = m.y) : AllocFits m' := by
  unfold AllocFits at h ⊢
  rwa [hx, hy]

/-- The product of two consecutive integers is never negative, so C's
truncating halving of it is Lean's. -/
theorem mul_pred_nonneg (a : Int) : 0 ≤ a * (a - 1) := by
  rcases le_or_lt 1 a with h | h
  · exact Int.mul_nonneg (by omega) (by omega)
  · exact Int.mul_nonneg_of_nonpos_of_nonpos (by omega) (by omega)

/-- A length whose `L·(L − 1)` fits an `int` is at most 46341. -/
theorem le_46341_of_mul_pred {L : Int} (hL : L * (L - 1) ≤ INT_MAX) : L ≤ 46341 := by
  by_contra h
  have := Int.mul_le_mul (show (46342 : Int) ≤ L by omega) (show (46341 : Int) ≤ L - 1 by omega)
    (by decide) (by omega)
  unfold INT_MAX at hL
  omega

/-- Everything a defined computation of the size says: its value is the
size, and the product it went through fits. -/
theorem allocSize32_some {m : HMatrix V} {v : Int} (h : allocSize32 m = some v) :
    v = allocSize m ∧ AllocFits m := by
  unfold allocSize32 allocSizeIn at h
  obtain ⟨xl, hxl, h⟩ := Option.bind_eq_some.1 h
  obtain ⟨yl, hyl, h⟩ := Option.bind_eq_some.1 h
  obtain ⟨-, rfl⟩ := intOp_eq_some hxl
  obtain ⟨-, rfl⟩ := intOp_eq_some hyl
  unfold allocSize AllocFits
  split_ifs at h ⊢
  · obtain ⟨a, ha, h⟩ := Option.bind_eq_some.1 h
    obtain ⟨p, hp, hv⟩ := Option.bind_eq_some.1 h
    obtain ⟨-, rfl⟩ := intOp_eq_some ha
    obtain ⟨hfit, rfl⟩ := intOp_eq_some hp
    rw [(intOp_eq_some hv).2, Int.tdiv_eq_ediv (mul_pred_nonneg _) (by decide)]
    exact ⟨rfl, hfit.2⟩
  · obtain ⟨hfit, rfl⟩ := intOp_eq_some h
    exact ⟨rfl, hfit.2⟩

/-- Under the product's bound, on a configured matrix whose size is not
negative, every operation of the size is exact. -/
theorem allocSize32_complete {N : Int} {m : HMatrix V} (hm : ConfigInv N m) (hN : N ≤ INT_MAX)
    (hfit : AllocFits m) (h₀ : 0 ≤ allocSize m) : allocSize32 m = some (allocSize m) := by
  obtain ⟨hxi, hxn, hxN⟩ := hm.x_valid
  have := hm.y_lo; have := hm.y_hi; have := INT_MAX_nonneg
  have hxl : InInt (m.x.n - m.x.i) := inInt_of_bounds (by omega) (by omega)
  unfold AllocFits at hfit
  unfold allocSize at h₀ ⊢
  split_ifs at hfit h₀ ⊢ with hc
  · have hyl : InInt (m.y.n - m.y.i) := inInt_of_bounds (by omega) (by omega)
    have hsmall := le_46341_of_mul_pred hfit
    have hp₀ := mul_pred_nonneg (m.x.n - m.x.i)
    simp only [allocSize32, allocSizeIn, intOp_bind hxl, intOp_bind hyl, if_pos hc,
      intOp_bind (inInt_of_bounds (by omega) (by omega) : InInt (m.x.n - m.x.i - 1)),
      intOp_bind (inInt_of_bounds (by omega) hfit), Int.tdiv_eq_ediv hp₀ (by decide : (0 : Int) ≤ 2)]
    exact intOp_of_inInt (inInt_of_bounds (by omega) (by unfold INT_MAX at *; omega))
  · have hyl₀ : 0 ≤ m.y.n - m.y.i := nonneg_of_mul_nonneg_right h₀ (by omega)
    have hyl : InInt (m.y.n - m.y.i) := inInt_of_bounds (by omega) (by omega)
    simp only [allocSize32, allocSizeIn, intOp_bind hxl, intOp_bind hyl, if_neg hc]
    exact intOp_of_inInt (inInt_of_bounds (by omega) hfit)

theorem Allocated.cond_iff {N : Int} {m : HMatrix V} (hm : Allocated N m) :
    (m.x.n = m.y.n ∧ m.x.i = m.y.i) ↔ m.triangular = true :=
  Range.eq_iff.symm.trans hm.triangular_iff.symm

/-- On an allocated matrix the size it holds is the size. -/
theorem Allocated.allocSize_eq {N : Int} {m : HMatrix V} (hm : Allocated N m) :
    allocSize m = m.size := by
  unfold allocSize
  cases ht : m.triangular
  · rw [if_neg (fun h => Bool.false_ne_true (ht ▸ hm.cond_iff.1 h)), hm.size_rect ht]
  · rw [if_pos (hm.cond_iff.2 ht), hm.size_tri ht]

/-- With the product's bound, every index of the rectangle of an allocated
matrix comes out of the `int`s exact. -/
theorem index32_exact {N : Int} {m : HMatrix V} (hm : Allocated N m) (hN : N ≤ INT_MAX)
    (hfit : AllocFits m) {x y : Int} (hx : m.x.Mem x) (hy : m.y.Mem y) :
    setIndex32 m x y = some (setIndex m x y) ∧ getIndex32 m x y = some (getIndex m x y) := by
  obtain ⟨hxi, hxn, hxN⟩ := hm.config.x_valid
  have := hm.config.y_lo; have := hm.config.y_hi; have := hm.yl_nonneg; have := INT_MAX_nonneg
  unfold Range.Mem at hx hy
  unfold AllocFits at hfit
  cases ht : m.triangular
  · rw [if_neg (fun h => Bool.false_ne_true (ht ▸ hm.cond_iff.1 h))] at hfit
    exact ⟨packedIndexIn_rect ht (by omega) (by omega) (by omega) (by omega) hfit,
      packedIndexIn_rect ht (by omega) (by omega) (by omega) (by omega) hfit⟩
  · rw [if_pos (hm.cond_iff.2 ht)] at hfit
    obtain ⟨hi, hn⟩ := hm.ranges_eq ht
    exact ⟨packedIndexIn_tri ht (by omega) (by omega) hfit,
      packedIndexIn_tri ht (by omega) (by omega) (by rw [← hi]; exact hfit)⟩

/-- On an allocated matrix over `N ≤ INT_MAX` strings whose triangle's
`xl·(xl − 1)` (or rectangle's `xl·yl`) fits an `int`, the size and the
index of every pair of the rectangle come out of the `int`s exact. -/
theorem int_arith_exact {N : Int} {m : HMatrix V} (hm : Allocated N m) (hN : N ≤ INT_MAX)
    (hfit : if m.triangular then (m.x.n - m.x.i) * (m.x.n - m.x.i - 1) ≤ INT_MAX
      else (m.x.n - m.x.i) * (m.y.n - m.y.i) ≤ INT_MAX) :
    allocSize32 m = some m.size ∧
      ∀ x y, m.x.Mem x → m.y.Mem y →
        setIndex32 m x y = some (setIndex m x y) ∧ getIndex32 m x y = some (getIndex m x y) := by
  have hfit' : AllocFits m := by
    unfold AllocFits
    simp only [hm.cond_iff]
    exact hfit
  rw [← hm.allocSize_eq]
  exact ⟨allocSize32_complete hm.config hN hfit' (hm.allocSize_eq ▸ hm.size_nonneg),
    fun x y hx hy => index32_exact hm hN hfit' hx hy⟩

theorem int_arith_exact_three :
    let m : HMatrix Nat := ⟨3, ⟨0, 3⟩, ⟨0, 3⟩, true, 6, List.replicate 6 0⟩
    Allocated 3 m ∧ (3 : Int) ≤ INT_MAX ∧
      (if m.triangular then (m.x.n - m.x.i) * (m.x.n - m.x.i - 1) ≤ INT_MAX
        else (m.x.n - m.x.i) * (m.y.n - m.y.i) ≤ INT_MAX) ∧
      (allocSize32 m = some m.size ∧ ∀ x y, m.x.Mem x → m.y.Mem y →
        setIndex32 m x y = some (setIndex m x y) ∧ getIndex32 m x y = some (getIndex m x y)) :=
  have hA : Allocated 3 (⟨3, ⟨0, 3⟩, ⟨0, 3⟩, true, 6, List.replicate 6 0⟩ : HMatrix Nat) :=
    hmatrix_alloc_allocated (configInv_init (by decide)) rfl
  ⟨hA, by decide, by decide, int_arith_exact hA (by decide) (by decide)⟩

/-- The last triangle whose product fits: 46341 strings. -/
example : allocSize32 (hmatrix_init 46341 : HMatrix Unit) = some (46341 * 46342 / 2) := by rfl

-- ================================================== the accessors in int

/-- `calloc` on the size `hmatrix_alloc` computed: a buffer of `size`
zeros, or `none` for a negative size. -/
def allocWith [Zero V] (m : HMatrix V) (size : Int) : Option (HMatrix V) :=
  if size < 0 then none
  else some { m with
    triangular := decide (m.x.n = m.y.n ∧ m.x.i = m.y.i), size := size,
    values := List.replicate size.toNat 0 }

/-- `hmatrix_alloc(m)` with its size computed through `op`. -/
def hmatrix_allocIn [Zero V] (op : Int → Option Int) (m : HMatrix V) : Option (HMatrix V) :=
  (allocSizeIn op m).bind (allocWith m)

/-- `hmatrix_alloc(m)` in C's `int`s: `none` when the size's computation
overflows or `calloc` refuses the size. -/
def hmatrix_alloc32 [Zero V] (m : HMatrix V) : Option (HMatrix V) := hmatrix_allocIn intOp m

/-- `hmatrix_set(m, x, y, f)` in C's `int`s: `none` when the index's
computation overflows or the store leaves the buffer. -/
def hmatrix_set32 (m : HMatrix V) (x y : Int) (f : V) : Option (HMatrix V) :=
  (setIndex32 m x y).bind fun idx =>
    if 0 ≤ idx ∧ idx < m.values.length then some { m with values := m.values.set idx.toNat f }
    else none

/-- `hmatrix_get(m, x, y)` in C's `int`s. -/
def hmatrix_get32 (m : HMatrix V) (x y : Int) : Option V :=
  (getIndex32 m x y).bind fun idx => if 0 ≤ idx then m.values[idx.toNat]? else none

theorem hmatrix_alloc_eq_allocWith [Zero V] (m : HMatrix V) :
    hmatrix_alloc m = allocWith m (allocSize m) := by
  unfold hmatrix_alloc allocWith allocSize
  by_cases hc : m.x.n = m.y.n ∧ m.x.i = m.y.i <;> simp [hc]

/-- A defined allocation meets the product's bound. -/
theorem hmatrix_alloc32_fits [Zero V] {m ma : HMatrix V} (h : hmatrix_alloc32 m = some ma) :
    AllocFits m := by
  obtain ⟨v, hv, -⟩ := Option.bind_eq_some.1 h
  exact (allocSize32_some hv).2

/-- Under the product's bound the `int` allocation is the integer one: the
same matrix, or a refusal on both sides. -/
theorem hmatrix_alloc32_eq [Zero V] {N : Int} {m : HMatrix V} (hm : ConfigInv N m)
    (hN : N ≤ INT_MAX) (hfit : AllocFits m) : hmatrix_alloc32 m = hmatrix_alloc m := by
  rw [hmatrix_alloc_eq_allocWith]
  show (allocSize32 m).bind (allocWith m) = _
  cases h : allocSize32 m with
  | some v => rw [(allocSize32_some h).1]; rfl
  | none =>
    have hneg : allocSize m < 0 := by
      by_contra h₀
      rw [allocSize32_complete hm hN hfit (not_lt.1 h₀)] at h
      cases h
    rw [allocWith, if_pos hneg]
    rfl

/-- A configured matrix the source allocates is allocated over the
integers too, to the same matrix, and meets the product's bound. -/
theorem hmatrix_alloc32_spec [Zero V] {N : Int} {m ma : HMatrix V} (hm : ConfigInv N m)
    (hN : N ≤ INT_MAX) (h : hmatrix_alloc32 m = some ma) :
    hmatrix_alloc m = some ma ∧ Allocated N ma ∧ AllocFits ma := by
  have hfit := hmatrix_alloc32_fits h
  have halloc : hmatrix_alloc m = some ma := hmatrix_alloc32_eq hm hN hfit ▸ h
  obtain ⟨-, hx, hy⟩ := hmatrix_alloc_ranges halloc
  exact ⟨halloc, hmatrix_alloc_allocated hm halloc, hfit.of_ranges hx hy⟩

theorem hmatrix_set32_eq {N : Int} {m : HMatrix V} (hm : Allocated N m) (hN : N ≤ INT_MAX)
    (hfit : AllocFits m) {x y : Int} (hs : m.Stored x y) (v : V) :
    hmatrix_set32 m x y v = hmatrix_set m x y v := by
  rw [hmatrix_set32, (index32_exact hm hN hfit hs.1 hs.2.1).1]
  rfl

theorem hmatrix_get32_eq {N : Int} {m : HMatrix V} (hm : Allocated N m) (hN : N ≤ INT_MAX)
    (hfit : AllocFits m) {x y : Int} (hx : m.x.Mem x) (hy : m.y.Mem y) :
    hmatrix_get32 m x y = hmatrix_get m x y := by
  rw [hmatrix_get32, (index32_exact hm hN hfit hx hy).2]
  rfl

/-- On every configured matrix the source allocates, the packed buffer is
a map from cells to values: after `hmatrix_set` at a stored pair, a read
of the rectangle sees the written value exactly when its cell is that
pair (the pair itself, and in a triangle its mirror too), and what it saw
before otherwise; the store stays in the buffer. -/
theorem hmatrix_get_set [Zero V] {N : Int} (hN : N ≤ INT_MAX) {m₀ m : HMatrix V}
    (hcfg : ConfigInv N m₀) (halloc : hmatrix_alloc32 m₀ = some m) {x y : Int}
    (hs : m.Stored x y) (v : V) :
    ∃ m', hmatrix_set32 m x y v = some m' ∧ Allocated N m' ∧
      ∀ x' y', m.x.Mem x' → m.y.Mem y' →
        hmatrix_get32 m' x' y' = if m.cell x' y' = (x, y) then some v else hmatrix_get32 m x' y' := by
  obtain ⟨-, hm, hfit⟩ := hmatrix_alloc32_spec hcfg hN halloc
  refine ⟨_, (hmatrix_set32_eq hm hN hfit hs v).trans (hmatrix_set_stored hm hs v), hm.set _ v,
    fun x' y' hx hy => ?_⟩
  rw [hmatrix_get32_eq (hm.set _ v) hN hfit hx hy, hmatrix_get32_eq hm hN hfit hx hy]
  exact hmatrix_get_after_set hm hs v hx hy

/-- Two strings, the default ranges: the write to `(1, 0)` is read back at
`(1, 0)` and at its mirror `(0, 1)`. -/
theorem hmatrix_get_set_two :
    let ma : HMatrix Nat := ⟨2, ⟨0, 2⟩, ⟨0, 2⟩, true, 3, [0, 0, 0]⟩
    (2 : Int) ≤ INT_MAX ∧ ConfigInv 2 (hmatrix_init 2 : HMatrix Nat) ∧
      hmatrix_alloc32 (hmatrix_init 2 : HMatrix Nat) = some ma ∧ ma.Stored 1 0 ∧
      ∃ m', hmatrix_set32 ma 1 0 9 = some m' ∧ Allocated 2 m' ∧
        ∀ x' y', ma.x.Mem x' → ma.y.Mem y' →
          hmatrix_get32 m' x' y' = if ma.cell x' y' = (1, 0) then some 9 else hmatrix_get32 ma x' y' :=
  ⟨by decide, configInv_init (by decide), by rfl, by decide,
    @hmatrix_get_set Nat _ 2 (by decide) (hmatrix_init 2) ⟨2, ⟨0, 2⟩, ⟨0, 2⟩, true, 3, [0, 0, 0]⟩
      (configInv_init (by decide)) (by rfl) 1 0 (by decide) 9⟩

-- ================================================== the split's update

/-- The update that ends `hmatrix_split`, operation by operation:
`m->y.i + index * height`, then `m->y.i + height`, computed for the test
and again for the store. -/
def Range.blockIn (op : Int → Option Int) (y : Range) (index height : Int) : Option Range := do
  let p ← op (index * height)
  let i ← op (y.i + p)
  let e ← op (i + height)
  pure ⟨i, if y.n > e then e else y.n⟩

/-- With a non-negative start, index and height, the update is exact when
the block's end fits. -/
theorem Range.blockIn_intOp {y : Range} {index height : Int} (hy : 0 ≤ y.i) (hi : 0 ≤ index)
    (hh : 0 < height) (hfit : y.i + index * height + height ≤ INT_MAX) :
    Range.blockIn intOp y index height = some (y.block index height) := by
  have := Int.mul_nonneg hi hh.le
  have := INT_MAX_nonneg
  simp only [Range.blockIn, intOp_bind (inInt_of_bounds (by omega) (by omega) : InInt (index * height)),
    intOp_bind (inInt_of_bounds (by omega) (by omega) : InInt (y.i + index * height)),
    intOp_bind (inInt_of_bounds (by omega) hfit)]
  rfl

/-- On a matrix configured over at most `2^30` strings, the update of every
split that passes `hmatrix_split`'s checks is exact in `int`: the block
ends before `y.n + blocks ≤ 2^31`. -/
theorem Range.blockIn_split {N : Int} {m : HMatrix V} (hm : ConfigInv N m) (hN : N ≤ 2 ^ 30)
    {blocks index : Int} (hb : 0 < blocks) (hbh : blocks ≤ m.y.n - m.y.i) (hi : 0 ≤ index)
    (hib : index < blocks) :
    Range.blockIn intOp m.y index (blockHeight (m.y.n - m.y.i) blocks)
      = some (m.y.block index (blockHeight (m.y.n - m.y.i) blocks)) := by
  obtain ⟨-, hcover⟩ := blockHeight_spec (m.y.n - m.y.i) hb
  obtain ⟨hpos, -⟩ := blockHeight_pos_le hb hbh
  have hrow := Int.mul_le_mul_of_nonneg_right (show index + 1 ≤ blocks by omega) hpos.le
  have := hm.y_lo; have := hm.y_hi
  refine Range.blockIn_intOp hm.y_lo hi hpos ?_
  rw [Int.add_mul, Int.one_mul] at hrow
  unfold INT_MAX
  omega

/-- On the range `[INT_MAX - 7, INT_MAX)` the split `2:1` passes every
check and narrows the range to `[INT_MAX - 3, INT_MAX)` over the
integers, but its `int` update overflows: `m->y.i + height` is
`INT_MAX + 1`. -/
theorem hmatrix_split_update_overflows :
    let m : HMatrix Unit := { hmatrix_init INT_MAX with y := ⟨INT_MAX - 7, INT_MAX⟩ }
    hmatrix_split m (splitStr 2 1) = .ok { m with y := ⟨INT_MAX - 3, INT_MAX⟩ } ∧
      Range.blockIn intOp m.y 1 (blockHeight (m.y.n - m.y.i) 2) = none :=
  ⟨(hmatrix_split_splitStr _ (by decide) (by decide) (by decide) (by decide)).trans (by rfl),
    by rfl⟩

end Harry
