/-
A run of the program and the sharding an orchestrator builds on it
(hmatrix.c): the configuration calls, `hmatrix_alloc` and
`hmatrix_compute` in the order `main` makes them, and `b` such runs that
each add `--split b:k` to the same configuration.

# One run

`harryRun` is that sequence over a batch, with the source's arithmetic:
the binary32 block height of `hmatrix_split` (`configRunF`), and the size
and the indices in C's `int`s (`hmatrix_alloc32`, `hmatrix_compute32`).
It fails with a fatal configuration error, an allocation that overflows
or that `calloc` refuses, and otherwise returns the computed matrix.
`harryRun_get` says what the computed matrix reads, through
`hmatrix_get32`, on every pair of its rectangle: for a symmetric measure,
the measure of the pair. It rests on the `int` bridge of `Int32`
(`hmatrix_alloc32_eq`, `hmatrix_compute32_eq`, `hmatrix_get32_eq`) and on
what `Compute` proves of the loop (`hmatrix_compute_spec`).

# Sharding refines the single run

Run `k` of `b` configures its matrix as the single run does and then
splits it; its y range becomes block `k`. Over at most `2^24` strings the
binary32 height is the exact ceiling (`blockHeightF_eq`) and every
split's update stays within `int` (`Range.blockIn_split`); a block keeps
the single run's bound on the allocation's product (`allocFits_block`).
So every pair of the single run's rectangle is in the rectangle of
exactly one shard, that shard's run succeeds, and for a symmetric measure
it reads at the pair exactly what the single run reads (`shard_get`). The
symmetry is needed: a shard of a triangle is a rectangle, which computes
`f(s[x], s[y])` where the triangle stored `f(s[max], s[min])`. Above
`2^24` rows the source's split loses rows
(`hmatrix_split_f32_shards_miss_last`).
-/
import Harry.Compute

namespace Harry

variable {V S : Type}

-- ============================================================ one run

/-- The configuration calls with the source's split, then `hmatrix_alloc`
and `hmatrix_compute` in C's `int`s, over the batch `s` with the measure
`f`. -/
def harryRun [Zero V] (s : List S) (f : S → S → V) (ops : List ConfigOp) : Option (HMatrix V) :=
  match configRunF (hmatrix_init s.length) ops with
  | .ok m => (hmatrix_alloc32 m).bind fun ma => hmatrix_compute32 ma s f
  | .error _ => none

/-- A configured matrix whose y range is in order is allocated. -/
theorem hmatrix_alloc_isSome [Zero V] {N : Int} {m : HMatrix V} (hm : ConfigInv N m)
    (hy : m.y.i ≤ m.y.n) : ∃ ma, hmatrix_alloc m = some ma := by
  obtain ⟨hxi, hxn, -⟩ := hm.x_valid
  have htri : 0 ≤ (m.x.n - m.x.i) * (m.x.n - m.x.i - 1) / 2 + (m.x.n - m.x.i) := by
    have := Int.mul_nonneg (show 0 ≤ m.x.n - m.x.i by omega) (show 0 ≤ m.x.n - m.x.i - 1 by omega)
    have := Int.ediv_nonneg this (show (0 : Int) ≤ 2 by decide)
    omega
  have hrect : 0 ≤ (m.x.n - m.x.i) * (m.y.n - m.y.i) := Int.mul_nonneg (by omega) (by omega)
  unfold hmatrix_alloc
  split <;> exact ⟨_, if_neg (not_lt.2 (by assumption))⟩

/-- For a symmetric measure the cell a read lands on does not matter. -/
theorem measureAt_cell {s : List S} {f : S → S → V} (hf : ∀ a b, f a b = f b a)
    (m : HMatrix V) (x y : Int) :
    measureAt s f (m.cell x y).1 (m.cell x y).2 = measureAt s f x y := by
  have hswap : measureAt s f y x = measureAt s f x y := by
    unfold measureAt
    cases batchAt s x <;> cases batchAt s y <;> simp [hf]
  unfold HMatrix.cell
  split
  · rcases le_total y x with h | h
    · rw [max_eq_left h, min_eq_right h]
    · rw [max_eq_right h, min_eq_left h, hswap]
  · rfl

/-- A successful run configured a matrix whose y range is in order and
whose allocation's product fits an `int`. -/
theorem harryRun_some [Zero V] {s : List S} (hN : 1 ≤ s.length) (hN' : (s.length : Int) ≤ INT_MAX)
    {f : S → S → V} {ops : List ConfigOp} {mc m : HMatrix V} (hmc : harryRun s f ops = some mc)
    (hrun : configRunF (hmatrix_init s.length) ops = .ok m) : AllocFits m ∧ m.y.i ≤ m.y.n := by
  rw [harryRun, hrun] at hmc
  obtain ⟨ma, halloc, -⟩ := Option.bind_eq_some.1 hmc
  obtain ⟨halloc', hm, -⟩ :=
    hmatrix_alloc32_spec (configRunF_init_inv (by exact_mod_cast hN) hrun) hN' halloc
  obtain ⟨-, -, hya⟩ := hmatrix_alloc_ranges halloc'
  have := hm.yl_nonneg
  rw [hya] at this
  exact ⟨hmatrix_alloc32_fits halloc, by omega⟩

/-- Every configuration of the source that leaves its y range in order and
its allocation's product within `int` ends in a successful run, which
reads at each pair of the configured rectangle the measure of the pair
(for a symmetric measure). -/
theorem harryRun_get [Zero V] {s : List S} (hN : 1 ≤ s.length) (hN' : (s.length : Int) ≤ INT_MAX)
    {f : S → S → V} (hf : ∀ a b, f a b = f b a) {ops : List ConfigOp} {m : HMatrix V}
    (hrun : configRunF (hmatrix_init s.length) ops = .ok m) (hfit : AllocFits m)
    (hy : m.y.i ≤ m.y.n) :
    ∃ mc, harryRun s f ops = some mc ∧
      ∀ x y, m.x.Mem x → m.y.Mem y → hmatrix_get32 mc x y = measureAt s f x y := by
  have hinv := configRunF_init_inv (by exact_mod_cast hN) hrun
  obtain ⟨ma, halloc⟩ := hmatrix_alloc_isSome hinv hy
  obtain ⟨-, hxa, hya⟩ := hmatrix_alloc_ranges halloc
  have hm := hmatrix_alloc_allocated hinv halloc
  have hfita : AllocFits ma := hfit.of_ranges hxa hya
  obtain ⟨mc, hc, hmc, hxc, hyc, hget⟩ := hmatrix_compute_spec hm rfl f
  refine ⟨mc, ?_, fun x y hx hy => ?_⟩
  · simp only [harryRun, hrun, (hmatrix_alloc32_eq hinv hN' hfit).trans halloc, Option.some_bind,
      hmatrix_compute32_eq hm hN' hfita, hc]
  · rw [← hxa] at hx
    rw [← hya] at hy
    rw [hmatrix_get32_eq hmc hN' (hfita.of_ranges hxc hyc) (hxc ▸ hx) (hyc ▸ hy), hget x y hx hy,
      measureAt_cell hf]

-- ============================================================ sharding

/-- Over at most `2^24` strings, run `k` of `b`: the single run's
configuration, then `--split b:k`, narrows the y range to block `k`. -/
theorem configRunF_split {N : Int} (hN : N ≤ 2 ^ 24) {ops : List ConfigOp} {m : HMatrix V}
    (hrun : configRunF (hmatrix_init N) ops = .ok m) (hm : ConfigInv N m) {b k : Nat} (hb : 1 ≤ b)
    (hbh : (b : Int) ≤ m.y.n - m.y.i) (hk : k < b) :
    configRunF (hmatrix_init N) (ops ++ [.split (splitStr b k)])
      = .ok { m with y := m.y.block k (blockHeight (m.y.n - m.y.i) b) } := by
  have hh : m.y.n - m.y.i ≤ 2 ^ 24 := by have := hm.y_lo; have := hm.y_hi; omega
  have hsplit : configStepF m (.split (splitStr b k))
      = .ok { m with y := m.y.block k (blockHeight (m.y.n - m.y.i) b) } :=
    (configStepF_eq hN hm _).trans (hmatrix_split_splitStr m hb hbh (by unfold INT_MAX; omega) hk)
  unfold configRunF at hrun ⊢
  rw [configRunWith_append, hrun]
  show configRunWith configStepF m [.split (splitStr b k)] = _
  rw [configRunWith, hsplit]
  rfl

/-- A range within the y range keeps the bound on the allocation's
product: it has at most the range's rows, and fewer when it is not the
whole range, which is what a triangle's `xl·(xl − 1)` needs. -/
theorem allocFits_block {m : HMatrix V} (hfit : AllocFits m) (hx : 0 < m.x.n - m.x.i)
    {y' : Range} (hlo : m.y.i ≤ y'.i) (hhi : y'.n ≤ m.y.n) :
    AllocFits { m with y := y' } := by
  unfold AllocFits at hfit ⊢
  dsimp only
  have hxl : 0 ≤ m.x.n - m.x.i := hx.le
  by_cases h₁ : m.x.n = m.y.n ∧ m.x.i = m.y.i <;> by_cases h₂ : m.x.n = y'.n ∧ m.x.i = y'.i
  · rw [if_pos h₁] at hfit
    rwa [if_pos h₂]
  · rw [if_pos h₁] at hfit
    rw [if_neg h₂]
    exact (Int.mul_le_mul_of_nonneg_left (show y'.n - y'.i ≤ m.x.n - m.x.i - 1 by omega) hxl).trans hfit
  · rw [if_neg h₁] at hfit
    rw [if_pos h₂]
    exact (Int.mul_le_mul_of_nonneg_left (show m.x.n - m.x.i - 1 ≤ m.y.n - m.y.i by omega) hxl).trans hfit
  · rw [if_neg h₁] at hfit
    rw [if_neg h₂]
    exact (Int.mul_le_mul_of_nonneg_left (show y'.n - y'.i ≤ m.y.n - m.y.i by omega) hxl).trans hfit

/-- When `b` blocks of height `H` cover a range, each of its rows lies in
exactly one of them, `k < b`. -/
theorem Range.block_of_mem {y : Range} {H : Int} {b : Nat} (hH : 0 < H)
    (hcover : y.n - y.i ≤ b * H) {z : Int} (hz : y.Mem z) :
    ∃ k < b, ∀ k' : Nat, (y.block k' H).Mem z ↔ k' = k := by
  unfold Range.Mem at hz
  have hq := Int.ediv_nonneg (show 0 ≤ z - y.i by omega) hH.le
  have hk := Int.toNat_of_nonneg hq
  refine ⟨((z - y.i) / H).toNat, ?_, fun k' => ?_⟩
  · have hlo := Int.ediv_mul_le (z - y.i) hH.ne'
    have := lt_of_mul_lt_mul_right (show (z - y.i) / H * H < b * H by omega) hH.le
    omega
  · rw [Range.mem_block_iff hH k']
    exact ⟨fun h => by omega, fun h => ⟨hz, by omega⟩⟩

/-- `b` runs of the source over a batch of at most `2^24` strings, run `k`
with `--split b:k` after the single run's configuration: each pair of the
single run's rectangle lies in the rectangle of exactly one run, the one
whose y range holds its `y`; that run succeeds, and for a symmetric
measure it reads at the pair what the single run reads. -/
theorem shard_get [Zero V] {s : List S} (hN : 1 ≤ s.length) (hN' : (s.length : Int) ≤ 2 ^ 24)
    {f : S → S → V} (hf : ∀ a b, f a b = f b a) {ops : List ConfigOp} {mc : HMatrix V}
    (hmc : harryRun s f ops = some mc) {m : HMatrix V}
    (hrun : configRunF (hmatrix_init s.length) ops = .ok m) {b : Nat} (hb : 1 ≤ b)
    (hbh : (b : Int) ≤ m.y.n - m.y.i) :
    ∀ x y, m.x.Mem x → m.y.Mem y → ∃ k < b,
      (∀ k' < b, ∀ mk : HMatrix V,
        configRunF (hmatrix_init s.length) (ops ++ [.split (splitStr b k')]) = .ok mk →
        (mk.y.Mem y ↔ k' = k)) ∧
      ∃ mk, harryRun s f (ops ++ [.split (splitStr b k)]) = some mk ∧
        hmatrix_get32 mk x y = hmatrix_get32 mc x y := by
  intro x y hx hy
  have hNmax : (s.length : Int) ≤ INT_MAX := hN'.trans (by decide)
  have hinv := configRunF_init_inv (by exact_mod_cast hN) hrun
  obtain ⟨hfit, hyo⟩ := harryRun_some hN hNmax hmc hrun
  obtain ⟨mc', hmc', hget⟩ := harryRun_get hN hNmax hf hrun hfit hyo
  obtain rfl : mc' = mc := Option.some.inj (hmc'.symm.trans hmc)
  obtain ⟨hcover, -⟩ := blockHeight_spec (m.y.n - m.y.i) (show (0 : Int) < b by omega)
  obtain ⟨hpos, -⟩ := blockHeight_pos_le (by omega) hbh
  obtain ⟨k, hkb, hblock⟩ := Range.block_of_mem hpos hcover hy
  refine ⟨k, hkb, fun k' hk' mk hmk => ?_, ?_⟩
  · obtain rfl := Except.ok.inj ((configRunF_split hN' hrun hinv hb hbh hk').symm.trans hmk)
    exact hblock k'
  · have hyk := (hblock k).2 rfl
    obtain ⟨hlo, hhi⟩ := m.y.block_within (Int.ofNat_nonneg k) hpos
    have hxl : 0 < m.x.n - m.x.i := by have := hinv.x_valid; unfold Range.Valid at this; omega
    obtain ⟨mk, hmk, hgetk⟩ := harryRun_get hN hNmax hf (configRunF_split hN' hrun hinv hb hbh hkb)
      (allocFits_block hfit hxl hlo hhi) (hyk.1.trans hyk.2.le)
    exact ⟨mk, hmk, by rw [hgetk x y hx hyk, hget x y hx hy]⟩

/-- Three strings summed pairwise, sharded over two runs. -/
theorem shard_get_three :
    let mc : HMatrix Nat := ⟨3, ⟨0, 3⟩, ⟨0, 3⟩, true, 6, [10, 12, 14, 14, 16, 18]⟩
    1 ≤ [5, 7, 9].length ∧ (([5, 7, 9].length : Nat) : Int) ≤ 2 ^ 24 ∧
      harryRun [5, 7, 9] (· + ·) [] = some mc ∧
      configRunF (hmatrix_init [5, 7, 9].length : HMatrix Nat) [] = .ok (hmatrix_init 3) ∧
      1 ≤ 2 ∧ ((2 : Nat) : Int) ≤ (hmatrix_init 3 : HMatrix Nat).y.n - (hmatrix_init 3 : HMatrix Nat).y.i ∧
      ∀ x y, (hmatrix_init 3 : HMatrix Nat).x.Mem x → (hmatrix_init 3 : HMatrix Nat).y.Mem y →
        ∃ k < 2,
          (∀ k' < 2, ∀ mk : HMatrix Nat,
            configRunF (hmatrix_init [5, 7, 9].length) ([] ++ [.split (splitStr 2 k')]) = .ok mk →
              (mk.y.Mem y ↔ k' = k)) ∧
          ∃ mk, harryRun [5, 7, 9] (· + ·) ([] ++ [.split (splitStr 2 k)]) = some mk ∧
            hmatrix_get32 mk x y = hmatrix_get32 mc x y :=
  ⟨by decide, by decide, by rfl, rfl, by decide, by decide,
    @shard_get Nat Nat _ [5, 7, 9] (by decide) (by decide) (· + ·) Nat.add_comm [] _ (by rfl)
      (hmatrix_init 3) rfl 2 (by decide) (by decide)⟩

end Harry
