/-
Allocation and the packed index (hmatrix.c): `hmatrix_alloc` chooses
between the triangle and the rectangle and sizes the buffer,
`hmatrix_set` and `hmatrix_get` send a coordinate pair to an index of it.

# The packing

With `a = x − x.i`, `b = y − y.i` and `xl = x.n − x.i`, the rectangle
stores `(a, b)` at `a + b·xl`. The triangle first orders the offsets,
`i = min`, `j = max`, and stores the pair at `(j − i) + i·xl − i(i−1)/2`:
row `i` of a packed lower triangle starts at `rowBase xl i`, the sum of
the row lengths `xl, xl − 1, …` before it, and the source's expression is
that sum in closed form (`rowBase_eq`). Over the pairs a matrix stores
(`HMatrix.Stored`) the index is a bijection onto `[0, size)`
(`setIndex_lt_size`, `setIndex_inj`, `setIndex_surj`).

# The two accessors

`hmatrix_get` builds the row base from `x.n − y.i` where `hmatrix_set`
has `x.n − x.i`. The two agree because `hmatrix_alloc` makes the matrix
triangular only when the x and y ranges are equal (`Allocated`), so every
read lands on the cell the matching write filled (`getIndex_eq_setIndex`). On top
of that, a write is seen by exactly the reads of its cell, its mirror
included (`hmatrix_get_after_set`): the packed buffer behaves as a map
from cells to values.
-/
import Harry.Config

namespace Harry

variable {V : Type}

-- ============================================================ allocation

/-- `hmatrix_alloc(m)`: the triangle when the ranges are equal, the
rectangle otherwise; `calloc` zero-fills the buffer. A negative size
converted to `size_t` is beyond any allocation, so `calloc` fails; a zero
size gets a buffer of no floats, as glibc's `calloc` returns one. The size
is computed over the integers here; `hmatrix_alloc32` (Int32.lean)
computes it in `int` as the source does, and the two agree exactly when
that computation is defined (`hmatrix_alloc32_eq`). -/
def hmatrix_alloc [Zero V] (m : HMatrix V) : Option (HMatrix V) :=
  let xl := m.x.n - m.x.i
  let yl := m.y.n - m.y.i
  let (triangular, size) :=
    if m.x.n = m.y.n ∧ m.x.i = m.y.i then (true, xl * (xl - 1) / 2 + xl) else (false, xl * yl)
  if size < 0 then none
  else some { m with triangular := triangular, size := size, values := List.replicate size.toNat 0 }

-- ======================================================= the packed index

/-- The index both accessors compute, with `rowLen` the row length the
triangle's row base is built from. The product `i·(i−1)` of two
consecutive integers is even and never negative, so C's truncating
division by two and Lean's agree on it. -/
def packedIndex (m : HMatrix V) (rowLen x y : Int) : Int :=
  if m.triangular then
    let (i, j) := if x - m.x.i > y - m.y.i then (y - m.y.i, x - m.x.i) else (x - m.x.i, y - m.y.i)
    (j - i) + i * rowLen - i * (i - 1) / 2
  else (x - m.x.i) + (y - m.y.i) * (m.x.n - m.x.i)

/-- The index `hmatrix_set` writes: row length `x.n − x.i`. -/
def setIndex (m : HMatrix V) (x y : Int) : Int := packedIndex m (m.x.n - m.x.i) x y

/-- The index `hmatrix_get` reads: row length `x.n − y.i`. -/
def getIndex (m : HMatrix V) (x y : Int) : Int := packedIndex m (m.x.n - m.y.i) x y

/-- `hmatrix_set(m, x, y, f)`, the index over the integers; a store
outside the buffer fails the `assert`, or is undefined behaviour under
`NDEBUG`: `none` here. `hmatrix_set32` computes the index in `int`. -/
def hmatrix_set (m : HMatrix V) (x y : Int) (f : V) : Option (HMatrix V) :=
  let idx := setIndex m x y
  if 0 ≤ idx ∧ idx < m.values.length then some { m with values := m.values.set idx.toNat f }
  else none

/-- `hmatrix_get(m, x, y)`, the index over the integers; a load outside
the buffer is `none`. `hmatrix_get32` computes the index in `int`. -/
def hmatrix_get (m : HMatrix V) (x y : Int) : Option V :=
  let idx := getIndex m x y
  if 0 ≤ idx then m.values[idx.toNat]? else none

-- ===================================================== triangle geometry

/-- The start of row `i` of a packed lower triangle whose rows hold
`xl, xl − 1, …` cells. -/
def rowBase (xl : Nat) : Nat → Nat
  | 0 => 0
  | i + 1 => rowBase xl i + (xl - i)

/-- The row base as the source spells it, `i·xl − i(i−1)/2`. -/
theorem rowBase_eq {xl : Nat} : ∀ {i : Nat}, i ≤ xl + 1 →
    (rowBase xl i : Int) = i * xl - i * (i - 1) / 2
  | 0, _ => by simp [rowBase]
  | i + 1, h => by
    have ih := rowBase_eq (show i ≤ xl + 1 by omega)
    have hsq : ((i : Int) + 1) * (i + 1 - 1) = i * (i - 1) + 2 * i := by ring
    have hlin : ((i : Int) + 1) * xl = i * xl + xl := by ring
    simp only [rowBase, Nat.cast_add, Nat.cast_succ]
    rw [Nat.cast_sub (by omega), ih, hsq, hlin]
    omega

theorem rowBase_mono (xl : Nat) {i j : Nat} (h : i ≤ j) : rowBase xl i ≤ rowBase xl j := by
  induction h with
  | refl => exact le_refl _
  | step _ ih => exact le_trans ih (Nat.le_add_right _ _)

/-- The whole triangle is the size `hmatrix_alloc` computes. -/
theorem rowBase_total (xl : Nat) : (rowBase xl xl : Int) = xl * (xl - 1) / 2 + xl := by
  rw [rowBase_eq (by omega)]
  have hsq : (xl : Int) * xl = xl * (xl - 1) + xl := by ring
  have heven : (xl : Int) * (xl - 1) % 2 = 0 := by
    have := Int.even_mul_succ_self ((xl : Int) - 1)
    rw [Int.even_iff, show ((xl : Int) - 1) * (xl - 1 + 1) = xl * (xl - 1) by ring] at this
    exact this
  omega

/-- Cells `(b, c)` of row `b` at offset `c` with `b + c < xl` sit at
distinct indices: row `b` ends where row `b + 1` starts. -/
theorem rowBase_cell_inj {xl b c b' c' : Nat} (h : b + c < xl) (h' : b' + c' < xl)
    (he : rowBase xl b + c = rowBase xl b' + c') : b = b' ∧ c = c' := by
  have below : ∀ {b c b' c' : Nat}, b + c < xl → b < b' →
      rowBase xl b + c < rowBase xl b' + c' := fun h hb => by
    have := rowBase_mono xl (Nat.succ_le_of_lt hb)
    simp only [rowBase] at this
    omega
  rcases Nat.lt_trichotomy b b' with hb | rfl | hb
  · exact absurd he (below h hb).ne
  · exact ⟨rfl, by omega⟩
  · exact absurd he.symm (below h' hb).ne

/-- Every index below `rowBase xl n` is a cell of one of the first `n`
rows. -/
theorem rowBase_cell_surj {xl k : Nat} : ∀ {n : Nat}, n ≤ xl → k < rowBase xl n →
    ∃ b c, b + c < xl ∧ rowBase xl b + c = k
  | 0, _, hk => absurd hk (Nat.not_lt_zero _)
  | n + 1, hn, hk => by
    by_cases hlt : k < rowBase xl n
    · exact rowBase_cell_surj (by omega) hlt
    · simp only [rowBase] at hk
      exact ⟨n, k - rowBase xl n, by omega, by omega⟩

-- ===================================================== allocated matrices

theorem Range.eq_iff {r s : Range} : r = s ↔ r.n = s.n ∧ r.i = s.i := by
  cases r; cases s; simp [and_comm]

/-- What `hmatrix_alloc` leaves of a configured matrix over `N` strings:
triangular exactly for equal ranges, the size of the triangle or the
rectangle, and a buffer of that many values. -/
structure Allocated (N : Int) (m : HMatrix V) : Prop where
  config : ConfigInv N m
  triangular_iff : m.triangular = true ↔ m.x = m.y
  size_tri : m.triangular = true →
    m.size = (m.x.n - m.x.i) * (m.x.n - m.x.i - 1) / 2 + (m.x.n - m.x.i)
  size_rect : m.triangular = false → m.size = (m.x.n - m.x.i) * (m.y.n - m.y.i)
  size_nonneg : 0 ≤ m.size
  values_length : (m.values.length : Int) = m.size

/-- A successful allocation of a configured matrix is `Allocated`. -/
theorem hmatrix_alloc_allocated [Zero V] {N : Int} {m m' : HMatrix V} (hm : ConfigInv N m)
    (h : hmatrix_alloc m = some m') : Allocated N m' := by
  unfold hmatrix_alloc at h
  have hcfg : ∀ t sz (vs : List V), ConfigInv N { m with triangular := t, size := sz, values := vs } :=
    fun _ _ _ => ⟨hm.num_eq, hm.x_valid, hm.y_lo, hm.y_hi⟩
  have hlen : ∀ sz : Int, 0 ≤ sz → ((List.replicate sz.toNat (0 : V)).length : Int) = sz := by
    intro sz hsz
    simp [hsz]
  split at h <;> dsimp only at h <;> split at h <;> cases h
  · next hxy hsize =>
    exact ⟨hcfg _ _ _, by simpa [Range.eq_iff] using hxy, fun _ => rfl, nofun, not_lt.1 hsize,
      hlen _ (not_lt.1 hsize)⟩
  · next hxy hsize =>
    exact ⟨hcfg _ _ _, by simpa [Range.eq_iff] using hxy, nofun, fun _ => rfl, not_lt.1 hsize,
      hlen _ (not_lt.1 hsize)⟩

/-- Allocation keeps the configuration it allocates for. -/
theorem hmatrix_alloc_ranges [Zero V] {m ma : HMatrix V} (h : hmatrix_alloc m = some ma) :
    ma.num = m.num ∧ ma.x = m.x ∧ ma.y = m.y := by
  unfold hmatrix_alloc at h
  split at h <;> dsimp only at h <;> split at h <;> cases h <;> exact ⟨rfl, rfl, rfl⟩

theorem Allocated.xl_pos {N : Int} {m : HMatrix V} (hm : Allocated N m) :
    0 < m.x.n - m.x.i := by
  have := hm.config.x_valid; unfold Range.Valid at this; omega

theorem Allocated.ranges_eq {N : Int} {m : HMatrix V} (hm : Allocated N m)
    (ht : m.triangular = true) : m.x.i = m.y.i ∧ m.x.n = m.y.n := by
  have := Range.eq_iff.1 (hm.triangular_iff.1 ht); exact ⟨this.2, this.1⟩

/-- Allocation succeeds only with the y range in order, `y.i ≤ y.n`. -/
theorem Allocated.yl_nonneg {N : Int} {m : HMatrix V} (hm : Allocated N m) :
    0 ≤ m.y.n - m.y.i := by
  cases ht : m.triangular
  · have hs := hm.size_rect ht
    have := hm.size_nonneg
    exact nonneg_of_mul_nonneg_right (hs ▸ this) hm.xl_pos
  · have := hm.ranges_eq ht; have := hm.xl_pos; omega

-- ============================================================ stored pairs

/-- The pairs a matrix stores a value for: the rectangle `x × y`, only
its lower half `y ≤ x` when triangular. -/
def HMatrix.Stored (m : HMatrix V) (x y : Int) : Prop :=
  m.x.Mem x ∧ m.y.Mem y ∧ (m.triangular = true → y ≤ x)

instance (m : HMatrix V) (x y : Int) : Decidable (m.Stored x y) :=
  inferInstanceAs (Decidable (_ ∧ _ ∧ _))

/-- The stored pair a read of `(x, y)` lands on: the pair itself, or in a
triangle the pair ordered `(max, min)`. -/
def HMatrix.cell (m : HMatrix V) (x y : Int) : Int × Int :=
  if m.triangular then (max x y, min x y) else (x, y)

/-- Below the diagonal of the offsets both branches of the triangle's
ordering give `i = b`, `j = a`. -/
theorem packedIndex_lower {m : HMatrix V} {L x y : Int} (ht : m.triangular = true)
    (hle : y - m.y.i ≤ x - m.x.i) :
    packedIndex m L x y = (x - m.x.i) - (y - m.y.i) + (y - m.y.i) * L
      - (y - m.y.i) * (y - m.y.i - 1) / 2 := by
  unfold packedIndex
  rw [if_pos ht]
  split_ifs with h
  · rfl
  · have hab : x - m.x.i = y - m.y.i := by omega
    simp only [hab]

/-- With equal range starts the triangle's index is symmetric. -/
theorem packedIndex_comm {m : HMatrix V} {L : Int} (ht : m.triangular = true)
    (hi : m.x.i = m.y.i) (x y : Int) : packedIndex m L x y = packedIndex m L y x := by
  unfold packedIndex
  rw [if_pos ht, hi]
  split_ifs with h₁ h₂ h₂
  · omega
  · rfl
  · rfl
  · obtain rfl : x = y := by omega
    rfl

/-- On an allocated matrix the two accessors compute the same index: the
rectangle's formula is the same in both, and the triangle's row lengths
`x.n − x.i` and `x.n − y.i` agree because its ranges are equal. -/
theorem getIndex_eq_setIndex {N : Int} {m : HMatrix V} (hm : Allocated N m) (x y : Int) :
    getIndex m x y = setIndex m x y := by
  unfold getIndex setIndex
  cases ht : m.triangular
  · simp [packedIndex, ht]
  · rw [(hm.ranges_eq ht).1]

/-- Reading `(x, y)` reads the index of its cell. -/
theorem setIndex_cell {N : Int} {m : HMatrix V} (hm : Allocated N m) (x y : Int) :
    setIndex m (m.cell x y).1 (m.cell x y).2 = setIndex m x y := by
  unfold HMatrix.cell
  cases ht : m.triangular
  · rfl
  · simp only [if_true]
    rcases le_total y x with h | h
    · rw [max_eq_left h, min_eq_right h]
    · rw [max_eq_right h, min_eq_left h]
      exact packedIndex_comm ht (hm.ranges_eq ht).1 y x

/-- The cell of a pair of the rectangle is stored. -/
theorem cell_stored {N : Int} {m : HMatrix V} (hm : Allocated N m) {x y : Int}
    (hx : m.x.Mem x) (hy : m.y.Mem y) : m.Stored (m.cell x y).1 (m.cell x y).2 := by
  unfold HMatrix.cell HMatrix.Stored
  cases ht : m.triangular
  · exact ⟨hx, hy, nofun⟩
  · obtain ⟨hi, hn⟩ := hm.ranges_eq ht
    unfold Range.Mem at *
    simp only [if_true]
    omega

/-- A stored pair of the triangle, as row `y − y.i` and offset `x − y` in
it. -/
theorem setIndex_tri {N : Int} {m : HMatrix V} (hm : Allocated N m) (ht : m.triangular = true)
    {x y : Int} (hs : m.Stored x y) :
    setIndex m x y = rowBase (m.x.n - m.x.i).toNat (y - m.y.i).toNat + (x - y).toNat ∧
      (y - m.y.i).toNat + (x - y).toNat < (m.x.n - m.x.i).toNat := by
  obtain ⟨hi, -⟩ := hm.ranges_eq ht
  obtain ⟨⟨hx₁, hx₂⟩, ⟨hy₁, hy₂⟩, hle⟩ := hs
  have hle := hle ht
  refine ⟨?_, by omega⟩
  rw [setIndex, packedIndex_lower ht (by omega), rowBase_eq (by omega),
    Int.toNat_of_nonneg (by omega : 0 ≤ y - m.y.i), Int.toNat_of_nonneg hm.xl_pos.le,
    Int.toNat_of_nonneg (by omega : 0 ≤ x - y)]
  omega

/-- The triangle's size is its last row's end. -/
theorem size_tri_rowBase {N : Int} {m : HMatrix V} (hm : Allocated N m) (ht : m.triangular = true) :
    m.size = rowBase (m.x.n - m.x.i).toNat (m.x.n - m.x.i).toNat := by
  rw [rowBase_total, Int.toNat_of_nonneg hm.xl_pos.le, hm.size_tri ht]

/-- Row `b < yl` of an `xl`-wide rectangle ends within it. -/
theorem rect_row_end {xl yl b : Int} (hxl : 0 ≤ xl) (hb : b < yl) : b * xl + xl ≤ xl * yl := by
  have h := Int.mul_le_mul_of_nonneg_right (show b + 1 ≤ yl by omega) hxl
  rwa [Int.add_mul, Int.one_mul, Int.mul_comm yl] at h

/-- Every stored pair's index lies in the buffer. -/
theorem setIndex_lt_size {N : Int} {m : HMatrix V} (hm : Allocated N m) {x y : Int}
    (hs : m.Stored x y) : 0 ≤ setIndex m x y ∧ setIndex m x y < m.size := by
  cases ht : m.triangular
  · obtain ⟨⟨hx₁, hx₂⟩, ⟨hy₁, hy₂⟩, -⟩ := hs
    have hrow := rect_row_end hm.xl_pos.le (show y - m.y.i < m.y.n - m.y.i by omega)
    have h0 := Int.mul_nonneg (show 0 ≤ y - m.y.i by omega) hm.xl_pos.le
    simp only [setIndex, packedIndex, ht, hm.size_rect ht, Bool.false_eq_true, if_false]
    omega
  · obtain ⟨hidx, hlt⟩ := setIndex_tri hm ht hs
    have hrow := rowBase_mono (m.x.n - m.x.i).toNat
      (show (y - m.y.i).toNat + 1 ≤ (m.x.n - m.x.i).toNat by omega)
    simp only [rowBase] at hrow
    rw [hidx, size_tri_rowBase hm ht]
    omega

/-- Distinct stored pairs have distinct indices: no two writes of the
compute loop meet. -/
theorem setIndex_inj {N : Int} {m : HMatrix V} (hm : Allocated N m) {x y x' y' : Int}
    (hs : m.Stored x y) (hs' : m.Stored x' y') (he : setIndex m x y = setIndex m x' y') :
    x = x' ∧ y = y' := by
  cases ht : m.triangular
  · obtain ⟨⟨hx₁, hx₂⟩, ⟨hy₁, hy₂⟩, -⟩ := hs
    obtain ⟨⟨hx₁', hx₂'⟩, ⟨hy₁', hy₂'⟩, -⟩ := hs'
    simp only [setIndex, packedIndex, ht, Bool.false_eq_true, if_false] at he
    have row : ∀ a b : Int, 0 ≤ a → a < m.x.n - m.x.i →
        (a + b * (m.x.n - m.x.i)) / (m.x.n - m.x.i) = b := fun a b h₀ h₁ => by
      rw [Int.add_mul_ediv_right _ _ hm.xl_pos.ne', Int.ediv_eq_zero_of_lt h₀ h₁, Int.zero_add]
    have hb := row (x - m.x.i) (y - m.y.i) (by omega) (by omega)
    rw [he, row (x' - m.x.i) (y' - m.y.i) (by omega) (by omega)] at hb
    obtain rfl : y = y' := by omega
    omega
  · obtain ⟨hidx, hlt⟩ := setIndex_tri hm ht hs
    obtain ⟨hidx', hlt'⟩ := setIndex_tri hm ht hs'
    rw [hidx, hidx'] at he
    obtain ⟨hb, hc⟩ := rowBase_cell_inj hlt hlt' (by omega)
    have := hs.2.2 ht; have := hs'.2.2 ht; have := hs.2.1.1; have := hs'.2.1.1
    omega

/-- Every index of the buffer is a stored pair's. -/
theorem setIndex_surj {N : Int} {m : HMatrix V} (hm : Allocated N m) {k : Int} (hk₀ : 0 ≤ k)
    (hk : k < m.size) : ∃ x y, m.Stored x y ∧ setIndex m x y = k := by
  have hxl := hm.xl_pos
  cases ht : m.triangular
  · rw [hm.size_rect ht] at hk
    have hq : k / (m.x.n - m.x.i) < m.y.n - m.y.i :=
      Int.ediv_lt_of_lt_mul hxl (by rwa [Int.mul_comm] at hk)
    have hq₀ := Int.ediv_nonneg hk₀ hxl.le
    have hr₀ := Int.emod_nonneg k hxl.ne'
    have hr := Int.emod_lt_of_pos k hxl
    have hkr := Int.emod_add_ediv k (m.x.n - m.x.i)
    refine ⟨m.x.i + k % (m.x.n - m.x.i), m.y.i + k / (m.x.n - m.x.i),
      ⟨⟨by omega, by omega⟩, ⟨by omega, by omega⟩, by simp [ht]⟩, ?_⟩
    simp only [setIndex, packedIndex, ht, Bool.false_eq_true, if_false]
    rw [Int.mul_comm] at hkr
    rw [show m.y.i + k / (m.x.n - m.x.i) - m.y.i = k / (m.x.n - m.x.i) by omega]
    omega
  · obtain ⟨hi, hn⟩ := hm.ranges_eq ht
    rw [size_tri_rowBase hm ht] at hk
    obtain ⟨b, c, hbc, hbk⟩ := rowBase_cell_surj (le_refl _)
      (show k.toNat < rowBase (m.x.n - m.x.i).toNat (m.x.n - m.x.i).toNat by omega)
    have hs : m.Stored (m.x.i + b + c) (m.y.i + b) :=
      ⟨⟨by omega, by omega⟩, ⟨by omega, by omega⟩, fun _ => by omega⟩
    refine ⟨_, _, hs, ?_⟩
    rw [(setIndex_tri hm ht hs).1]
    have e₁ : (m.y.i + b - m.y.i).toNat = b := by omega
    have e₂ : (m.x.i + b + c - (m.y.i + b)).toNat = c := by omega
    rw [e₁, e₂]
    omega

-- ============================================================ set and get

/-- A write to a stored pair of an allocated matrix lands in the buffer. -/
theorem hmatrix_set_stored {N : Int} {m : HMatrix V} (hm : Allocated N m) {x y : Int}
    (hs : m.Stored x y) (v : V) :
    hmatrix_set m x y v = some { m with values := m.values.set (setIndex m x y).toNat v } := by
  obtain ⟨h₀, h₁⟩ := setIndex_lt_size hm hs
  unfold hmatrix_set
  rw [if_pos ⟨h₀, by rw [hm.values_length]; exact h₁⟩]

/-- A new buffer of the same length keeps the matrix allocated. -/
theorem Allocated.values {N : Int} {m : HMatrix V} (hm : Allocated N m) {vs : List V}
    (hvs : vs.length = m.values.length) : Allocated N { m with values := vs } :=
  ⟨⟨hm.config.num_eq, hm.config.x_valid, hm.config.y_lo, hm.config.y_hi⟩, hm.triangular_iff,
    hm.size_tri, hm.size_rect, hm.size_nonneg, by rw [← hm.values_length, ← hvs]⟩

/-- A write keeps the matrix allocated. -/
theorem Allocated.set {N : Int} {m : HMatrix V} (hm : Allocated N m) (k : Nat) (v : V) :
    Allocated N { m with values := m.values.set k v } :=
  hm.values (List.length_set _ _ _)

/-- A read of the rectangle reads its cell's index. -/
theorem hmatrix_get_eq {N : Int} {m : HMatrix V} (hm : Allocated N m) {x y : Int}
    (hx : m.x.Mem x) (hy : m.y.Mem y) :
    hmatrix_get m x y = m.values[(setIndex m (m.cell x y).1 (m.cell x y).2).toNat]? := by
  unfold hmatrix_get
  rw [getIndex_eq_setIndex hm, ← setIndex_cell hm,
    if_pos (setIndex_lt_size hm (cell_stored hm hx hy)).1]

/-- After a write to a stored pair, a read of the rectangle sees the
written value exactly when its cell is that pair (the pair itself, and in
a triangle its mirror too), and what it saw before otherwise. -/
theorem hmatrix_get_after_set {N : Int} {m : HMatrix V} (hm : Allocated N m) {x y : Int}
    (hs : m.Stored x y) (v : V) {x' y' : Int} (hx : m.x.Mem x') (hy : m.y.Mem y') :
    hmatrix_get { m with values := m.values.set (setIndex m x y).toNat v } x' y' =
      if m.cell x' y' = (x, y) then some v else hmatrix_get m x' y' := by
  have hc := cell_stored hm hx hy
  rw [hmatrix_get_eq (hm.set _ v) hx hy, hmatrix_get_eq hm hx hy]
  change (m.values.set _ v)[(setIndex m (m.cell x' y').1 (m.cell x' y').2).toNat]? = _
  obtain ⟨h₀, h₁⟩ := setIndex_lt_size hm hs
  obtain ⟨h₀', -⟩ := setIndex_lt_size hm hc
  rw [List.getElem?_set]
  by_cases he : m.cell x' y' = (x, y)
  · rw [he, if_pos rfl, if_pos rfl, if_pos (by have := hm.values_length; omega)]
  · rw [if_neg he, if_neg]
    intro hidx
    obtain ⟨e₁, e₂⟩ := setIndex_inj hm hs hc (by omega)
    exact he (Prod.ext e₁.symm e₂.symm)

-- ============================================================ a bad shard

/-- Six blocks over ten rows: block 5 starts at row 10, the end of the
range, passes every check of `hmatrix_split`, and leaves the empty y
range `[10, 10)`, for which `hmatrix_alloc` computes size 0. Seven blocks:
block 6 starts at row 12 and leaves the inverted `[12, 10)`, of size
`10 · (−2) = −20`, which `calloc` refuses. -/
theorem hmatrix_split_empty_block :
    ((configRun (hmatrix_init 10 : HMatrix Nat) [.split ⟨ascii "6:5", by decide⟩]).map
        fun m => (m.y, (hmatrix_alloc m).map HMatrix.size)) = .ok (⟨10, 10⟩, some 0) ∧
      ((configRun (hmatrix_init 10 : HMatrix Nat) [.split ⟨ascii "7:6", by decide⟩]).map
        fun m => (m.y, (hmatrix_alloc m).map HMatrix.size)) = .ok (⟨12, 10⟩, none) :=
  ⟨by rfl, by rfl⟩

end Harry
