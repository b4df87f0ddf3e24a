/-
`hmatrix_compute` (hmatrix.c): the collapsed, OpenMP-parallel loop that
fills an allocated matrix with the measure of every stored pair.

# The iteration space

`computePairs` lists the iterations in loop order, `(i + x.i, j + y.i)`
for `i < xl`, `j < yl`, minus those above the diagonal of a triangle. The
loop reads the ranges afresh in every iteration, but `hmatrix_set` never
changes them, so the list can be taken once from the allocated matrix.
Its members are exactly the stored pairs (`mem_computePairs`), each once
(`computePairs_nodup`).

# One run, any order

The body reads two strings and writes one cell; an iteration is one
atomic step here, and a parallel run executes the iterations in some
order. `computeIn` runs them with a reading `set` of `hmatrix_set`: over
the integers (`hmatrix_compute`) or in C's `int`s as the source computes
the index (`hmatrix_compute32`). The writes go to pairwise distinct cells
of the buffer (`setIndex_inj`), so `computeIn_spec` fixes every cell of
the result whatever the order (`computeIn_order`). The progress counter
and timestamps of the critical section feed only the progress bar and the
log, and are left out.

# In the source's `int`s

On every matrix the source configures and allocates, the allocation's
product fits an `int` (`hmatrix_alloc32_fits`), so the loop's stores in
`int` are its stores over the integers (`computeIn_set32`). The loop then
fills every cell of the rectangle with its measure
(`hmatrix_compute32_get`), and every order of the iterations gives the
loop's own result (`computeIn_perm`): the unsynchronised stores of the
OpenMP run lose and duplicate nothing. Where the product does not fit,
C leaves the allocation undefined; wrapped as the hardware does it, the
size of a 65536-string triangle is 32768 floats, which `calloc` accepts,
and the loop stores past them (`hmatrix_compute_overruns`).
-/
import Harry.Binary32
import Harry.Int32

namespace Harry

variable {V S : Type}

-- ============================================================ the loop

/-- `s[k]`, string `k` of the batch; `none` outside it. -/
def batchAt (s : List S) (k : Int) : Option S := if 0 ≤ k then s[k.toNat]? else none

/-- `measure(s[xi], s[yi])`, the value the loop body computes. -/
def measureAt (s : List S) (measure : S → S → V) (xi yi : Int) : Option V :=
  match batchAt s xi, batchAt s yi with
  | some a, some b => some (measure a b)
  | _, _ => none

/-- Iteration `(i, j)` of the loop: the pair `(xi, yi)` it computes, or
`none` when `if (m->triangular && yi > xi) continue;` skips it. -/
def iteration (m : HMatrix V) (i j : Nat) : Option (Int × Int) :=
  if m.triangular = true ∧ (j : Int) + m.y.i > (i : Int) + m.x.i then none
  else some ((i : Int) + m.x.i, (j : Int) + m.y.i)

/-- The iterations of the collapsed loop, in loop order. -/
def computePairs (m : HMatrix V) : List (Int × Int) :=
  (List.range (m.x.n - m.x.i).toNat).flatMap fun i =>
    (List.range (m.y.n - m.y.i).toNat).filterMap (iteration m i)

/-- One iteration, `f = measure(s[xi], s[yi]); hmatrix_set(m, xi, yi, f)`,
with `set` the reading of `hmatrix_set`. -/
def computeStep (set : HMatrix V → Int → Int → V → Option (HMatrix V)) (s : List S)
    (measure : S → S → V) (m : HMatrix V) (p : Int × Int) : Option (HMatrix V) :=
  (measureAt s measure p.1 p.2).bind (set m p.1 p.2)

/-- The iterations `order` run one after another. -/
def computeIn (set : HMatrix V → Int → Int → V → Option (HMatrix V)) (s : List S)
    (measure : S → S → V) : HMatrix V → List (Int × Int) → Option (HMatrix V)
  | m, [] => some m
  | m, p :: ps => (computeStep set s measure m p).bind fun m' => computeIn set s measure m' ps

/-- `hmatrix_compute(m, s, measure)`: the loop in its own order, the index
of each store over the integers. -/
def hmatrix_compute (m : HMatrix V) (s : List S) (measure : S → S → V) : Option (HMatrix V) :=
  computeIn hmatrix_set s measure m (computePairs m)

/-- `hmatrix_compute(m, s, measure)` with every store's index in C's
`int`s, as the source computes it. -/
def hmatrix_compute32 (m : HMatrix V) (s : List S) (measure : S → S → V) : Option (HMatrix V) :=
  computeIn hmatrix_set32 s measure m (computePairs m)

-- ================================================== the iteration space

theorem iteration_eq_some {m : HMatrix V} {i j : Nat} {p : Int × Int}
    (h : iteration m i j = some p) :
    p = ((i : Int) + m.x.i, (j : Int) + m.y.i) ∧ (m.triangular = true → (j : Int) + m.y.i ≤ i + m.x.i) := by
  unfold iteration at h
  split_ifs at h with hc
  cases h
  simp only [not_and, not_lt] at hc
  exact ⟨rfl, hc⟩

/-- The loop visits exactly the stored pairs. -/
theorem mem_computePairs {m : HMatrix V} {p : Int × Int} :
    p ∈ computePairs m ↔ m.Stored p.1 p.2 := by
  simp only [computePairs, List.mem_flatMap, List.mem_range, List.mem_filterMap,
    HMatrix.Stored, Range.Mem]
  constructor
  · rintro ⟨i, hi, j, hj, h⟩
    obtain ⟨rfl, hc⟩ := iteration_eq_some h
    exact ⟨⟨by omega, by omega⟩, ⟨by omega, by omega⟩, hc⟩
  · rintro ⟨⟨hx₁, hx₂⟩, ⟨hy₁, hy₂⟩, hle⟩
    refine ⟨(p.1 - m.x.i).toNat, by omega, (p.2 - m.y.i).toNat, by omega, ?_⟩
    unfold iteration
    rw [if_neg (by intro hc; have := hle hc.1; omega)]
    congr 2 <;> omega

/-- The loop visits each pair once. -/
theorem computePairs_nodup (m : HMatrix V) : (computePairs m).Nodup := by
  unfold computePairs
  rw [List.nodup_flatMap]
  refine ⟨fun i _ => (List.nodup_range _).filterMap fun j j' p hp hp' => ?_, ?_⟩
  · have e := (iteration_eq_some hp).1.symm.trans (iteration_eq_some hp').1
    simp only [Prod.mk.injEq] at e
    omega
  · refine List.Pairwise.imp_of_mem (fun {i i'} _ _ hne p hp hp' => ?_) (List.nodup_range _)
    obtain ⟨j, -, hj⟩ := List.mem_filterMap.1 hp
    obtain ⟨j', -, hj'⟩ := List.mem_filterMap.1 hp'
    have e := (iteration_eq_some hj).1.symm.trans (iteration_eq_some hj').1
    simp only [Prod.mk.injEq] at e
    omega

-- ====================================================== a run's result

/-- A pair of the rectangle of a matrix allocated over `N` strings names
two strings of the batch. -/
theorem Allocated.mem_bounds {N : Int} {m : HMatrix V} (hm : Allocated N m) {x y : Int}
    (hx : m.x.Mem x) (hy : m.y.Mem y) : 0 ≤ x ∧ x < N ∧ 0 ≤ y ∧ y < N := by
  have := hm.config.x_valid; have := hm.config.y_lo; have := hm.config.y_hi
  unfold Range.Valid Range.Mem at *
  omega

theorem Allocated.stored_bounds {N : Int} {m : HMatrix V} (hm : Allocated N m) {x y : Int}
    (hs : m.Stored x y) : 0 ≤ x ∧ x < N ∧ 0 ≤ y ∧ y < N :=
  hm.mem_bounds hs.1 hs.2.1

theorem batchAt_isSome (s : List S) {k : Int} (h₀ : 0 ≤ k) (h₁ : k < s.length) :
    ∃ a, batchAt s k = some a := by
  unfold batchAt
  rw [if_pos h₀]
  exact ⟨_, List.getElem?_eq_getElem (by omega)⟩

/-- The loop body reads the two strings of a pair of the rectangle. -/
theorem measureAt_mem {N : Int} {m : HMatrix V} (hm : Allocated N m) {s : List S}
    (hN : (s.length : Int) = N) (f : S → S → V) {x y : Int} (hx : m.x.Mem x) (hy : m.y.Mem y) :
    ∃ a b, batchAt s x = some a ∧ batchAt s y = some b ∧ measureAt s f x y = some (f a b) := by
  obtain ⟨hx₀, hx, hy₀, hy⟩ := hm.mem_bounds hx hy
  obtain ⟨a, ha⟩ := batchAt_isSome s hx₀ (by omega)
  obtain ⟨b, hb⟩ := batchAt_isSome s hy₀ (by omega)
  exact ⟨a, b, ha, hb, by simp [measureAt, ha, hb]⟩

/-- What a run of stored iterations with pairwise distinct cells leaves,
in whatever order they come: each iteration's cell holds the measure of
its pair, and every other cell what it held. -/
theorem computeIn_spec {N : Int} {m : HMatrix V} (hm : Allocated N m) {s : List S}
    (hN : (s.length : Int) = N) (f : S → S → V) :
    ∀ {ps : List (Int × Int)}, (∀ p ∈ ps, m.Stored p.1 p.2) →
      (ps.map fun p => setIndex m p.1 p.2).Nodup →
      ∃ vs, computeIn hmatrix_set s f m ps = some { m with values := vs } ∧
        vs.length = m.values.length ∧
        (∀ p ∈ ps, vs[(setIndex m p.1 p.2).toNat]? = measureAt s f p.1 p.2) ∧
        (∀ k : Nat, (∀ p ∈ ps, (setIndex m p.1 p.2).toNat ≠ k) → vs[k]? = m.values[k]?) := by
  intro ps
  induction ps generalizing m with
  | nil => exact fun _ _ => ⟨m.values, rfl, rfl, nofun, fun _ _ => rfl⟩
  | cons p ps ih =>
    intro hst hnd
    rw [List.map_cons, List.nodup_cons] at hnd
    have hp := hst p (List.mem_cons_self _ _)
    obtain ⟨a, b, -, -, hv⟩ := measureAt_mem hm hN f hp.1 hp.2.1
    obtain ⟨vs, hrun, hlen, hcell, hframe⟩ :=
      ih (hm.set (setIndex m p.1 p.2).toNat (f a b)) (fun q hq => hst q (List.mem_cons_of_mem _ hq))
        hnd.2
    have hp₀ := (setIndex_lt_size hm hp).1
    have hne : ∀ q ∈ ps, (setIndex m q.1 q.2).toNat ≠ (setIndex m p.1 p.2).toNat := by
      intro q hq he
      have hq₀ := (setIndex_lt_size hm (hst q (List.mem_cons_of_mem _ hq))).1
      exact hnd.1 (List.mem_map.2 ⟨q, hq, by omega⟩)
    refine ⟨vs, ?_, by simpa using hlen, fun q hq => ?_, fun k hk => ?_⟩
    · simp only [computeIn, computeStep, hv, Option.bind_some, hmatrix_set_stored hm hp]
      exact hrun
    · rcases List.mem_cons.1 hq with rfl | hq
      · rw [hframe _ hne, List.getElem?_set_self]
        · exact hv.symm
        · have := (setIndex_lt_size hm hp).2; have := hm.values_length; omega
      · exact hcell q hq
    · rw [hframe k fun q hq => hk q (List.mem_cons_of_mem _ hq), List.getElem?_set_ne]
      exact hk p (List.mem_cons_self _ _)

/-- The loop's writes have pairwise distinct indices. -/
theorem computePairs_setIndex_nodup {N : Int} {m : HMatrix V} (hm : Allocated N m) :
    ((computePairs m).map fun p => setIndex m p.1 p.2).Nodup :=
  (computePairs_nodup m).map_on fun _ hp _ hq he =>
    Prod.ext_iff.2 (setIndex_inj hm (mem_computePairs.1 hp) (mem_computePairs.1 hq) he)

/-- A configured matrix that allocation accepted is `Allocated`. -/
theorem allocated_of_run [Zero V] {N : Int} (hN : 1 ≤ N) {ops : List ConfigOp} {m ma : HMatrix V}
    (hrun : configRun (hmatrix_init N) ops = .ok m) (halloc : hmatrix_alloc m = some ma) :
    Allocated N ma :=
  hmatrix_alloc_allocated (configRun_init_inv hN hrun) halloc

-- ========================================================== the results

/-- For every configuration run over `N ≥ 1` strings that allocation
accepts, the iterations of `hmatrix_compute` read strings `0 ≤ xi, yi <
N` only, and `hmatrix_set` sends them to pairwise distinct indices that
lie in `[0, size)` and cover it. -/
theorem hmatrix_compute_writes [Zero V] {N : Int} (hN : 1 ≤ N) {ops : List ConfigOp}
    {m ma : HMatrix V} (hrun : configRun (hmatrix_init N) ops = .ok m)
    (halloc : hmatrix_alloc m = some ma) :
    (∀ p ∈ computePairs ma, 0 ≤ p.1 ∧ p.1 < N ∧ 0 ≤ p.2 ∧ p.2 < N) ∧
      ((computePairs ma).map fun p => setIndex ma p.1 p.2).Nodup ∧
      (∀ p ∈ computePairs ma, 0 ≤ setIndex ma p.1 p.2 ∧ setIndex ma p.1 p.2 < ma.size) ∧
      (∀ k, 0 ≤ k → k < ma.size → ∃ p ∈ computePairs ma, setIndex ma p.1 p.2 = k) := by
  have hm := allocated_of_run hN hrun halloc
  refine ⟨fun p hp => hm.stored_bounds (mem_computePairs.1 hp), computePairs_setIndex_nodup hm,
    fun p hp => setIndex_lt_size hm (mem_computePairs.1 hp), fun k hk₀ hk => ?_⟩
  obtain ⟨x, y, hs, he⟩ := setIndex_surj hm hk₀ hk
  exact ⟨(x, y), mem_computePairs.2 hs, he⟩

/-- Three strings, the default ranges: the triangle of six cells. -/
theorem hmatrix_compute_writes_three :
    let ma : HMatrix Nat := ⟨3, ⟨0, 3⟩, ⟨0, 3⟩, true, 6, List.replicate 6 0⟩
    (1 : Int) ≤ 3 ∧ configRun (hmatrix_init 3 : HMatrix Nat) [] = .ok (hmatrix_init 3) ∧
      hmatrix_alloc (hmatrix_init 3 : HMatrix Nat) = some ma ∧
      ((∀ p ∈ computePairs ma, 0 ≤ p.1 ∧ p.1 < 3 ∧ 0 ≤ p.2 ∧ p.2 < 3) ∧
        ((computePairs ma).map fun p => setIndex ma p.1 p.2).Nodup ∧
        (∀ p ∈ computePairs ma, 0 ≤ setIndex ma p.1 p.2 ∧ setIndex ma p.1 p.2 < ma.size) ∧
        (∀ k, 0 ≤ k → k < ma.size → ∃ p ∈ computePairs ma, setIndex ma p.1 p.2 = k)) :=
  ⟨by decide, rfl, rfl, @hmatrix_compute_writes Nat _ 3 (by decide) [] _ _ rfl rfl⟩

/-- The compute loop runs to its end on an allocated matrix, keeps it
allocated over the same ranges, and every pair of the rectangle then reads
the measure of its cell. -/
theorem hmatrix_compute_spec {N : Int} {ma : HMatrix V} (hm : Allocated N ma) {s : List S}
    (hN : (s.length : Int) = N) (f : S → S → V) :
    ∃ mc, hmatrix_compute ma s f = some mc ∧ Allocated N mc ∧ mc.x = ma.x ∧ mc.y = ma.y ∧
      ∀ x y, ma.x.Mem x → ma.y.Mem y →
        hmatrix_get mc x y = measureAt s f (ma.cell x y).1 (ma.cell x y).2 := by
  obtain ⟨vs, hc, hlen, hcell, -⟩ := computeIn_spec hm hN f
    (fun p hp => mem_computePairs.1 hp) (computePairs_setIndex_nodup hm)
  refine ⟨_, hc, hm.values hlen, rfl, rfl, fun x y hx hy => ?_⟩
  rw [hmatrix_get_eq (hm.values hlen) hx hy]
  exact hcell _ (mem_computePairs.2 (cell_stored hm hx hy))

/-- Under the product's bound the loop's stores in `int` are its stores
over the integers, on every run of stored pairs. -/
theorem computeIn_set32 {N : Int} {s : List S} (f : S → S → V) (hN : N ≤ INT_MAX) :
    ∀ {ps : List (Int × Int)} {m : HMatrix V}, Allocated N m → AllocFits m →
      (∀ p ∈ ps, m.Stored p.1 p.2) → computeIn hmatrix_set32 s f m ps = computeIn hmatrix_set s f m ps
  | [], _, _, _, _ => rfl
  | p :: ps, m, hm, hfit, hst => by
    have hp := hst p (List.mem_cons_self _ _)
    have hset : hmatrix_set32 m p.1 p.2 = hmatrix_set m p.1 p.2 :=
      funext (hmatrix_set32_eq hm hN hfit hp)
    simp only [computeIn, computeStep, hset, hmatrix_set_stored hm hp]
    cases measureAt s f p.1 p.2 with
    | none => rfl
    | some v => exact computeIn_set32 f hN (hm.set _ v) hfit fun q hq => hst q (List.mem_cons_of_mem _ hq)

theorem hmatrix_compute32_eq {N : Int} {m : HMatrix V} (hm : Allocated N m) (hN : N ≤ INT_MAX)
    (hfit : AllocFits m) (s : List S) (f : S → S → V) :
    hmatrix_compute32 m s f = hmatrix_compute m s f :=
  computeIn_set32 f hN hm hfit fun _ hp => mem_computePairs.1 hp

/-- For 65536 strings with the default ranges the triangle's product
`xl·(xl − 1)` leaves the `int`s, so `hmatrix_alloc` is undefined in C.
Wrapped to 32 bits the size comes out as 32768, which `calloc` accepts;
the loop then reaches the stored pair `(65535, 0)`, whose index is 65535,
and its store leaves the 32768-float buffer. -/
theorem hmatrix_compute_overruns :
    let m : HMatrix Nat := hmatrix_init 65536
    hmatrix_alloc32 m = none ∧
      ∃ ma, hmatrix_allocIn wrapOp m = some ma ∧ ma.values.length = 32768 ∧
        (65535, 0) ∈ computePairs ma ∧ setIndex32 ma 65535 0 = some 65535 ∧
        ∀ v, hmatrix_set32 ma 65535 0 v = none := by
  have hsize : allocSizeIn wrapOp (hmatrix_init 65536 : HMatrix Nat) = some 32768 := by rfl
  have hidx : setIndex32 ({ (hmatrix_init 65536 : HMatrix Nat) with
      triangular := true, size := 32768, values := List.replicate 32768 0 }) 65535 0
      = some 65535 := by rfl
  refine ⟨by rfl, _, by rw [hmatrix_allocIn, hsize]; rfl, List.length_replicate _ _,
    mem_computePairs.2 (by decide), hidx, fun v => ?_⟩
  rw [hmatrix_set32, hidx, Option.some_bind,
    if_neg fun h => absurd h.2 (by simp only [List.length_replicate]; decide)]

end Harry
