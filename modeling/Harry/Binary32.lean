/-
The block height of `hmatrix_split` as the source computes it (hmatrix.c):

    height = ceil((m->y.n - m->y.i) / (float) blocks);

Both operands are converted to binary32, divided in binary32, and the
integral ceiling is converted back to `int`. `Config.lean` reads the
expression as the exact ceiling `blockHeight`; this module models the
float arithmetic and says where the two readings agree.

# The binary32 layer

Only nonnegative finite values occur: `F32` is a significand and a biased
exponent, value `m · 2^(e - 150)`. Rounding a quotient `a / c` doubles `a`
or `c` until the quotient lies in the significand window `[2^23, 2^24)`
(`scale32`) and rounds it to an integer, to nearest with ties to even
(`rneDiv`). Every quotient here lies far from subnormals and overflow,
so neither is modelled.

# Exact up to 2^24 rows

For `1 ≤ blocks ≤ h ≤ 2^24` the float height is `⌈h / blocks⌉`
(`blockHeightF_eq`), so the two readings of `hmatrix_split`, both
`splitWithHeight` with their own height, agree on every range of at most
`2^24` rows (`hmatrix_split_f32_eq`); there a split of the source that
passes its checks leaves a valid range exactly when its block starts
inside the range (`hmatrix_split_valid_iff`). The argument: both
conversions are exact, an exact quotient rounds to itself, and otherwise
the quotient's fraction, at least `1 / blocks`, is more than half a unit
at the window's scale (`lt_two_pow_of_window`), so rounding cannot cross
an integer (`rneDiv_scaled_bounds`). A configuration over a batch of at
most `2^24` strings never leaves more rows than that, so whole
configuration runs agree as well (`configRunF_eq`). Whatever the batch,
the source's runs keep the invariant of a configured matrix
(`configRunF_init_inv`).

# Beyond

Above `2^24` the conversion `(float) h` is no longer exact. For odd `h`
between `2^24` and `2^25` it rounds to `h - 1` or `h + 1`, and the
one-block split `"1:0"` either loses the range's last row or stops the
program (`hmatrix_split_f32_odd`), where the exact reading keeps the
whole range. Sharding inherits the loss: for `h ≡ 1 (mod 4)` and `b = 2^k`
blocks dividing `h - 1`, every `--split b:j` succeeds and no block holds
the last row (`hmatrix_split_f32_shards_miss_last`).
-/
import Harry.Config

namespace Harry

variable {V : Type}

-- ====================================================== nearest integer

/-- `a / c` rounded to an integer, to nearest with ties to even (`c > 0`):
the kernel of every binary32 rounding below. -/
def rneDiv (a c : Nat) : Nat :=
  if 2 * (a % c) < c ∨ (2 * (a % c) = c ∧ a / c % 2 = 0) then a / c else a / c + 1

/-- The rounded quotient is within one half of `a / c`. -/
theorem rneDiv_bounds (a : Nat) {c : Nat} (hc : 0 < c) :
    2 * (c * rneDiv a c) ≤ 2 * a + c ∧ 2 * a ≤ 2 * (c * rneDiv a c) + c := by
  have hdm := Nat.div_add_mod a c
  have hlt := Nat.mod_lt a hc
  unfold rneDiv
  split
  · omega
  · rw [Nat.mul_add, Nat.mul_one]; omega

theorem rneDiv_of_dvd {a c : Nat} (hc : 0 < c) (h : c ∣ a) : rneDiv a c = a / c := by
  rw [rneDiv, Nat.mod_eq_zero_of_dvd h, if_pos (Or.inl (by omega))]

theorem rneDiv_one (a : Nat) : rneDiv a 1 = a := by
  rw [rneDiv_of_dvd Nat.one_pos (Nat.one_dvd a), Nat.div_one]

/-- A quotient at most the integer `M` rounds to at most `M`. -/
theorem rneDiv_le {a c M : Nat} (hc : 0 < c) (h : a ≤ c * M) : rneDiv a c ≤ M := by
  have hr := (rneDiv_bounds a hc).1
  have : c * rneDiv a c < c * (M + 1) := by rw [Nat.mul_succ]; omega
  exact Nat.lt_succ_iff.1 (Nat.lt_of_mul_lt_mul_left this)

/-- A quotient more than one half above the integer `L` rounds above `L`. -/
theorem lt_rneDiv {a c L : Nat} (hc : 0 < c) (h : c * (2 * L + 1) < 2 * a) : L < rneDiv a c := by
  have hr := (rneDiv_bounds a hc).2
  have : c * L < c * rneDiv a c := by rw [Nat.mul_add, Nat.mul_one, Nat.mul_left_comm] at h; omega
  exact Nat.lt_of_mul_lt_mul_left this

theorem rneDiv_mul_right (a c : Nat) {k : Nat} (hk : 0 < k) :
    rneDiv (a * k) (c * k) = rneDiv a c := by
  have e₁ : 2 * (a % c * k) < c * k ↔ 2 * (a % c) < c := by
    rw [← Nat.mul_assoc]; exact Nat.mul_lt_mul_right hk
  have e₂ : 2 * (a % c * k) = c * k ↔ 2 * (a % c) = c := by
    rw [← Nat.mul_assoc]; exact Nat.mul_left_inj (by omega)
  simp only [rneDiv, Nat.mul_mod_mul_right, Nat.mul_div_mul_right _ _ hk, e₁, e₂]

-- ============================================================= binary32

/-- The exponent bias for an integer significand: a positive binary32
value is `m · 2^(e - 150)`, `m < 2^24`. -/
def f32Bias : Nat := 150

/-- A nonnegative binary32 value `m · 2^(e - f32Bias)`. -/
structure F32 where
  m : Nat
  e : Nat
  deriving DecidableEq, Repr

/-- `scale32 a c fuel i j`: the doublings `(i, j)` of `a` and `c` that
bring `a·2^i / (c·2^j)` into the significand window `[2^23, 2^24)`, one
doubling a step. -/
def scale32 (a c : Nat) : Nat → Nat → Nat → Nat × Nat
  | 0, i, j => (i, j)
  | fuel + 1, i, j =>
    if 2 ^ 24 * (c * 2 ^ j) ≤ a * 2 ^ i then scale32 a c fuel i (j + 1)
    else if a * 2 ^ i < 2 ^ 23 * (c * 2 ^ j) then scale32 a c fuel (i + 1) j
    else (i, j)

/-- `a / c` rounded to binary32, to nearest with ties to even. A
significand rounded up to `2^24` is left in place: it is the same value as
the next binade's `2^23`. -/
def roundF32 (a c : Nat) : F32 :=
  let s := scale32 a c 96 0 0
  ⟨rneDiv (a * 2 ^ s.1) (c * 2 ^ s.2), f32Bias + s.2 - s.1⟩

/-- `(float) n`. -/
def F32.ofNat (n : Nat) : F32 := roundF32 n 1

/-- `x / y`: the exact quotient of the two values, rounded. -/
def F32.div (x y : F32) : F32 := roundF32 (x.m * 2 ^ x.e) (y.m * 2 ^ y.e)

/-- `ceil(x)`, of the value `x.m · 2^x.e / 2^f32Bias`. -/
def F32.ceil (x : F32) : Nat := (x.m * 2 ^ x.e + 2 ^ f32Bias - 1) / 2 ^ f32Bias

/-- The loop ends in the window when it starts within `2^fuel` of it. -/
theorem scale32_window (a c : Nat) : ∀ fuel i j,
    a * 2 ^ i < 2 ^ 24 * (c * 2 ^ j) * 2 ^ fuel →
    2 ^ 23 * (c * 2 ^ j) ≤ a * 2 ^ i * 2 ^ fuel →
    2 ^ 23 * (c * 2 ^ (scale32 a c fuel i j).2) ≤ a * 2 ^ (scale32 a c fuel i j).1 ∧
      a * 2 ^ (scale32 a c fuel i j).1 < 2 ^ 24 * (c * 2 ^ (scale32 a c fuel i j).2)
  | 0, i, j, hlo, hhi => by simpa [scale32] using And.intro hhi hlo
  | fuel + 1, i, j, hlo, hhi => by
    have hP : 0 < 2 ^ fuel := Nat.two_pow_pos fuel
    unfold scale32
    split
    · next hge =>
      apply scale32_window a c fuel i (j + 1)
      · calc a * 2 ^ i < 2 ^ 24 * (c * 2 ^ j) * 2 ^ (fuel + 1) := hlo
          _ = 2 ^ 24 * (c * 2 ^ (j + 1)) * 2 ^ fuel := by ring
      · calc 2 ^ 23 * (c * 2 ^ (j + 1)) = 2 ^ 24 * (c * 2 ^ j) := by ring
          _ ≤ a * 2 ^ i := hge
          _ ≤ a * 2 ^ i * 2 ^ fuel := Nat.le_mul_of_pos_right _ hP
    · split
      · next hlt =>
        apply scale32_window a c fuel (i + 1) j
        · calc a * 2 ^ (i + 1) = 2 * (a * 2 ^ i) := by ring
            _ < 2 ^ 24 * (c * 2 ^ j) := by omega
            _ ≤ 2 ^ 24 * (c * 2 ^ j) * 2 ^ fuel := Nat.le_mul_of_pos_right _ hP
        · calc 2 ^ 23 * (c * 2 ^ j) ≤ a * 2 ^ i * 2 ^ (fuel + 1) := hhi
            _ = a * 2 ^ (i + 1) * 2 ^ fuel := by ring
      · next hge hlt => exact ⟨Nat.le_of_not_lt hlt, Nat.lt_of_not_le hge⟩

theorem scale32_fst_le (a c : Nat) : ∀ fuel i j, (scale32 a c fuel i j).1 ≤ i + fuel
  | 0, i, j => by simp [scale32]
  | fuel + 1, i, j => by
    unfold scale32
    split
    · have := scale32_fst_le a c fuel i (j + 1); omega
    · split
      · have := scale32_fst_le a c fuel (i + 1) j; omega
      · simp only; omega

/-- The loop sees only the quotient: a common factor changes nothing. -/
theorem scale32_mul_right (a c : Nat) {k : Nat} (hk : 0 < k) : ∀ fuel i j,
    scale32 (a * k) (c * k) fuel i j = scale32 a c fuel i j
  | 0, i, j => rfl
  | fuel + 1, i, j => by
    have e₁ : 2 ^ 24 * (c * k * 2 ^ j) ≤ a * k * 2 ^ i ↔ 2 ^ 24 * (c * 2 ^ j) ≤ a * 2 ^ i := by
      rw [show 2 ^ 24 * (c * k * 2 ^ j) = 2 ^ 24 * (c * 2 ^ j) * k by ring,
        show a * k * 2 ^ i = a * 2 ^ i * k by ring]
      exact mul_le_mul_iff_of_pos_right hk
    have e₂ : a * k * 2 ^ i < 2 ^ 23 * (c * k * 2 ^ j) ↔ a * 2 ^ i < 2 ^ 23 * (c * 2 ^ j) := by
      rw [show 2 ^ 23 * (c * k * 2 ^ j) = 2 ^ 23 * (c * 2 ^ j) * k by ring,
        show a * k * 2 ^ i = a * 2 ^ i * k by ring]
      exact Nat.mul_lt_mul_right hk
    simp only [scale32, e₁, e₂, scale32_mul_right a c hk fuel]

theorem roundF32_mul_right (a c : Nat) {k : Nat} (hk : 0 < k) :
    roundF32 (a * k) (c * k) = roundF32 a c := by
  simp only [roundF32, scale32_mul_right a c hk, Nat.mul_right_comm _ k, rneDiv_mul_right _ _ hk]

/-- `ceil` of a value in `(K - 1, K]` is `K`. -/
theorem F32.ceil_eq {x : F32} {K : Nat} (h₁ : (K - 1) * 2 ^ f32Bias < x.m * 2 ^ x.e)
    (h₂ : x.m * 2 ^ x.e ≤ K * 2 ^ f32Bias) : x.ceil = K := by
  have hP : 0 < 2 ^ f32Bias := Nat.two_pow_pos _
  rw [Nat.sub_one_mul] at h₁
  apply Nat.div_eq_of_lt_le
  · omega
  · rw [Nat.succ_mul]; omega

theorem f32Bias_split {d : Nat} (hd : d ≤ 96) : 2 ^ f32Bias = 2 ^ d * 2 ^ (f32Bias - d) := by
  rw [← pow_add]; congr 1; unfold f32Bias; omega

-- ================================================ where the loop stops

/-- With fuel 96 the loop reaches the window from every quotient in
`[2^-73, 2^120)`, doubling `a` at most 96 times. -/
theorem roundF32_window {a c : Nat} (ha : a < 2 ^ 120 * c) (hc : c ≤ 2 ^ 73 * a) :
    2 ^ 23 * (c * 2 ^ (scale32 a c 96 0 0).2) ≤ a * 2 ^ (scale32 a c 96 0 0).1 ∧
      a * 2 ^ (scale32 a c 96 0 0).1 < 2 ^ 24 * (c * 2 ^ (scale32 a c 96 0 0).2) ∧
      (scale32 a c 96 0 0).1 ≤ 96 := by
  have hw := scale32_window a c 96 0 0 (by simp only [pow_zero, Nat.mul_one]; omega)
    (by simp only [pow_zero, Nat.mul_one]; omega)
  exact ⟨hw.1, hw.2, by simpa using scale32_fst_le a c 96 0 0⟩

/-- Below `2^24` the denominator is never doubled past the numerator's
doublings, except at the quotient `2^24` itself. -/
theorem window_exp_succ {a c i j : Nat} (hc : 0 < c) (hw : 2 ^ 23 * (c * 2 ^ j) ≤ a * 2 ^ i)
    (ha : a ≤ 2 ^ 24 * c) (hij : i < j) : j = i + 1 ∧ a = 2 ^ 24 * c := by
  have hP : 0 < 2 ^ i := Nat.two_pow_pos i
  have hj : 2 ^ (i + 1) ≤ 2 ^ j := Nat.pow_le_pow_right (by norm_num) hij
  have hlo : 2 ^ 24 * c * 2 ^ i ≤ 2 ^ 23 * (c * 2 ^ j) :=
    calc 2 ^ 24 * c * 2 ^ i = 2 ^ 23 * (c * 2 ^ (i + 1)) := by ring
      _ ≤ 2 ^ 23 * (c * 2 ^ j) := Nat.mul_le_mul_left _ (Nat.mul_le_mul_left _ hj)
  have hhi : a * 2 ^ i ≤ 2 ^ 24 * c * 2 ^ i := Nat.mul_le_mul_right _ ha
  have hpow : 2 ^ 23 * (c * 2 ^ j) = 2 ^ 23 * (c * 2 ^ (i + 1)) := by
    rw [show 2 ^ 23 * (c * 2 ^ (i + 1)) = 2 ^ 24 * c * 2 ^ i by ring]; omega
  refine ⟨Nat.pow_right_injective le_rfl ?_, Nat.eq_of_mul_eq_mul_right hP (by omega)⟩
  exact Nat.eq_of_mul_eq_mul_left hc (Nat.eq_of_mul_eq_mul_left (by norm_num) hpow)

/-- A quotient in `[1/2^73, 2^24)`: `d` doublings of `a` reach the window. -/
theorem roundF32_low {a c : Nat} (hc : 0 < c) (ha : a < 2 ^ 24 * c) (hc' : c ≤ 2 ^ 73 * a) :
    ∃ d ≤ 96, 2 ^ 23 * c ≤ a * 2 ^ d ∧ roundF32 a c = ⟨rneDiv (a * 2 ^ d) c, f32Bias - d⟩ := by
  obtain ⟨hlo, -, hi⟩ := @roundF32_window a c (by omega) hc'
  unfold roundF32
  generalize scale32 a c 96 0 0 = s at hlo hi ⊢
  obtain ⟨i, j⟩ := s
  dsimp only at hlo hi ⊢
  have hij : j ≤ i := Nat.le_of_not_lt fun hij => by
    have := (window_exp_succ hc hlo ha.le hij).2; omega
  obtain ⟨d, rfl⟩ : ∃ d, i = j + d := ⟨i - j, by omega⟩
  refine ⟨d, by omega, Nat.le_of_mul_le_mul_right ?_ (Nat.two_pow_pos j), ?_⟩
  · calc 2 ^ 23 * c * 2 ^ j = 2 ^ 23 * (c * 2 ^ j) := by ring
      _ ≤ a * 2 ^ (j + d) := hlo
      _ = a * 2 ^ d * 2 ^ j := by ring
  · rw [show a * 2 ^ (j + d) = a * 2 ^ d * 2 ^ j by ring, rneDiv_mul_right _ _ (Nat.two_pow_pos j),
      show f32Bias + j - (j + d) = f32Bias - d by omega]

theorem scale32_binade24 {a c : Nat} (h₁ : 2 ^ 24 * c ≤ a) (h₂ : a < 2 ^ 25 * c) :
    scale32 a c 96 0 0 = (0, 1) := by
  rw [scale32, if_pos (by simpa using h₁), scale32, if_neg (by simp; omega),
    if_neg (by simp; omega)]

/-- A quotient in `[2^24, 2^25)`: one doubling of `c`. -/
theorem roundF32_binade24 {a c : Nat} (h₁ : 2 ^ 24 * c ≤ a) (h₂ : a < 2 ^ 25 * c) :
    roundF32 a c = ⟨rneDiv a (2 * c), f32Bias + 1⟩ := by
  simp only [roundF32, scale32_binade24 h₁ h₂, pow_zero, Nat.mul_one, pow_one, Nat.mul_comm c 2]
  rfl

-- ====================================================== exact operands

/-- `(float) n` is exact for `0 < n ≤ 2^24`. -/
theorem F32.ofNat_val {n : Nat} (hn : 0 < n) (hn' : n ≤ 2 ^ 24) :
    (F32.ofNat n).m * 2 ^ (F32.ofNat n).e = n * 2 ^ f32Bias := by
  rcases Nat.lt_or_eq_of_le hn' with hlt | rfl
  · obtain ⟨d, hd, -, hround⟩ := @roundF32_low n 1 Nat.one_pos (by omega) (by omega)
    rw [F32.ofNat, hround, rneDiv_one, Nat.mul_assoc, ← f32Bias_split hd]
  · rw [F32.ofNat, roundF32_binade24 (by norm_num) (by norm_num),
      rneDiv_of_dvd (by norm_num) (by norm_num)]
    norm_num; ring

/-- Dividing exact conversions rounds the exact quotient once. -/
theorem F32.div_ofNat {p q : Nat} (hp : 0 < p) (hp' : p ≤ 2 ^ 24) (hq : 0 < q) (hq' : q ≤ 2 ^ 24) :
    (F32.ofNat p).div (F32.ofNat q) = roundF32 p q := by
  rw [F32.div, F32.ofNat_val hp hp', F32.ofNat_val hq hq', roundF32_mul_right _ _ (Nat.two_pow_pos _)]

theorem ceil_div_eq (h : Nat) {b : Nat} (hb : 0 < b) :
    (h + b - 1) / b = h / b + if h % b = 0 then 0 else 1 := by
  have hdm := Nat.div_add_mod h b
  have hmod := Nat.mod_lt h hb
  split <;> apply Nat.div_eq_of_lt_le <;>
    simp only [Nat.add_mul, Nat.one_mul, Nat.zero_mul, Nat.add_zero, Nat.mul_comm (h / b) b] <;>
    omega

/-- In the window, a quotient that is not an integer has a scale more than
half its divisor: `b < 2·2^d`. Equality would need `h = 2^24` and `b` a
power of two, which divides `h`. -/
theorem lt_two_pow_of_window {h b d : Nat} (hbh : b ≤ h) (hh : h ≤ 2 ^ 24)
    (hw : 2 ^ 23 * b ≤ h * 2 ^ d) (hρ : h % b ≠ 0) : b < 2 * 2 ^ d := by
  have hP : 0 < 2 ^ d := Nat.two_pow_pos d
  have h1 : h * 2 ^ d ≤ 2 ^ 24 * 2 ^ d := Nat.mul_le_mul_right _ hh
  refine lt_of_le_of_ne (by omega) fun heq => hρ ?_
  have hh24 : h = 2 ^ 24 := le_antisymm hh (Nat.le_of_mul_le_mul_right (by omega) hP)
  have hb' : b = 2 ^ (d + 1) := by rw [heq, pow_succ, Nat.mul_comm]
  have hle : 2 ^ (d + 1) ≤ 2 ^ 24 := hb' ▸ hh24 ▸ hbh
  rw [hh24, hb']
  exact Nat.mod_eq_zero_of_dvd (Nat.pow_dvd_pow 2 ((Nat.pow_le_pow_iff_right (by norm_num)).1 hle))

/-- The rounded quotient at scale `2^d` lies in the ceiling's interval at
that scale. An exact quotient rounds to itself; otherwise the fraction of
`h / b` is at least `1 / b`, more than half a unit at the scale. -/
theorem rneDiv_scaled_bounds {h b d : Nat} (hb : 0 < b) (hbh : b ≤ h) (hh : h ≤ 2 ^ 24)
    (hw : 2 ^ 23 * b ≤ h * 2 ^ d) :
    (h / b + (if h % b = 0 then 0 else 1) - 1) * 2 ^ d < rneDiv (h * 2 ^ d) b ∧
      rneDiv (h * 2 ^ d) b ≤ (h / b + (if h % b = 0 then 0 else 1)) * 2 ^ d := by
  have hdm := Nat.div_add_mod h b
  have hmod := Nat.mod_lt h hb
  have hP : 0 < 2 ^ d := Nat.two_pow_pos d
  split
  · next hρ =>
    have hq : h * 2 ^ d = b * (h / b * 2 ^ d) := by rw [← Nat.mul_assoc]; congr 1; omega
    have : 0 < h / b := Nat.div_pos hbh hb
    rw [hq, rneDiv_of_dvd hb (Dvd.intro _ rfl), Nat.mul_div_cancel_left _ hb, Nat.add_zero]
    exact ⟨Nat.mul_lt_mul_of_pos_right (by omega) hP, le_rfl⟩
  · next hρ =>
    have h2P := lt_two_pow_of_window hbh hh hw hρ
    rw [Nat.add_sub_cancel]
    constructor
    · apply lt_rneDiv hb
      have e₁ : b * (2 * (h / b * 2 ^ d) + 1) = 2 * (b * (h / b) * 2 ^ d) + b := by ring
      have e₂ : h * 2 ^ d = b * (h / b) * 2 ^ d + h % b * 2 ^ d := by rw [← Nat.add_mul, hdm]
      have : 2 ^ d ≤ h % b * 2 ^ d := Nat.le_mul_of_pos_left _ (by omega)
      omega
    · apply rneDiv_le hb
      calc h * 2 ^ d ≤ b * (h / b + 1) * 2 ^ d :=
            Nat.mul_le_mul_right _ (by rw [Nat.mul_succ]; omega)
        _ = b * ((h / b + 1) * 2 ^ d) := by ring

/-- The ceiling of the rounded quotient is the exact ceiling, for
`1 ≤ b ≤ h ≤ 2^24`. -/
theorem roundF32_ceil {h b : Nat} (hb : 0 < b) (hbh : b ≤ h) (hh : h ≤ 2 ^ 24) :
    (roundF32 h b).ceil = (h + b - 1) / b := by
  rw [ceil_div_eq h hb]
  rcases Nat.lt_or_ge h (2 ^ 24 * b) with hlt | hge
  · obtain ⟨d, hd, hw, hround⟩ := roundF32_low hb hlt (by omega)
    obtain ⟨h₁, h₂⟩ := rneDiv_scaled_bounds hb hbh hh hw
    rw [hround]
    apply F32.ceil_eq <;> dsimp only <;> rw [f32Bias_split hd, ← Nat.mul_assoc]
    · exact Nat.mul_lt_mul_of_pos_right h₁ (Nat.two_pow_pos _)
    · exact Nat.mul_le_mul_right _ h₂
  · obtain rfl : b = 1 := by omega
    obtain rfl : h = 2 ^ 24 := by omega
    have hv : 2 ^ 24 / (2 * 1) * 2 ^ (f32Bias + 1) = 2 ^ 24 * 2 ^ f32Bias := by norm_num; ring
    rw [roundF32_binade24 (by norm_num) (by norm_num), rneDiv_of_dvd (by norm_num) (by norm_num)]
    apply F32.ceil_eq <;> dsimp only <;> rw [hv] <;> norm_num

-- ============================================================ the split

/-- `ceil((m->y.n - m->y.i) / (float) blocks)` for `h = m->y.n - m->y.i`,
as the source computes it. Only `0 ≤ h` and `1 ≤ blocks` reach the value's
use; for `blocks = 0` the C conversion of the infinite quotient is
undefined, and for `h = INT_MAX` the rounded `2^31` does not fit an `int`. -/
def blockHeightF (h blocks : Int) : Int :=
  ((F32.ofNat h.toNat).div (F32.ofNat blocks.toNat)).ceil

/-- `hmatrix_split(m, str)` with the block height computed in binary32, as
the source computes it. -/
def hmatrix_split_f32 (m : HMatrix V) (str : CStr) : Except SplitFatal (HMatrix V) :=
  splitWithHeight blockHeightF m str

/-- For `1 ≤ blocks ≤ h ≤ 2^24` the float height is the exact ceiling. -/
theorem blockHeightF_eq {h b : Int} (hb : 1 ≤ b) (hbh : b ≤ h) (hh : h ≤ 2 ^ 24) :
    blockHeightF h b = blockHeight h b := by
  obtain ⟨h, rfl⟩ := Int.eq_ofNat_of_zero_le (by omega : 0 ≤ h)
  obtain ⟨b, rfl⟩ := Int.eq_ofNat_of_zero_le (by omega : 0 ≤ b)
  have hsub : ((h + b - 1 : Nat) : Int) = h + b - 1 := by omega
  rw [blockHeightF, blockHeight, Int.toNat_ofNat, Int.toNat_ofNat,
    F32.div_ofNat (by omega) (by omega) (by omega) (by omega),
    roundF32_ceil (by omega) (by omega) (by omega), Int.ofNat_ediv, hsub]

/-- The exact reading of the split is the source's on every range of at
most `2^24` rows: every split string gives the same range or stops with
the same error. -/
theorem hmatrix_split_f32_eq (m : HMatrix V) (str : CStr) (hh : m.y.n - m.y.i ≤ 2 ^ 24) :
    hmatrix_split_f32 m str = hmatrix_split m str :=
  splitWithHeight_congr m str fun _ hb hbh => blockHeightF_eq hb hbh hh

theorem hmatrix_split_f32_eq_ten :
    (hmatrix_init 10 : HMatrix Nat).y.n - (hmatrix_init 10 : HMatrix Nat).y.i ≤ 2 ^ 24 ∧
      hmatrix_split_f32 (hmatrix_init 10 : HMatrix Nat) (splitStr 3 1)
        = hmatrix_split (hmatrix_init 10) (splitStr 3 1) :=
  ⟨by decide, hmatrix_split_f32_eq (hmatrix_init 10) (splitStr 3 1) (by decide)⟩

/-- One configuration call, the split computed as the source computes it. -/
def configStepF (m : HMatrix V) (op : ConfigOp) : Except SplitFatal (HMatrix V) :=
  match op with
  | .split str => hmatrix_split_f32 m str
  | op => configStep m op

/-- A sequence of configuration calls with the source's split. -/
def configRunF (m : HMatrix V) (ops : List ConfigOp) : Except SplitFatal (HMatrix V) :=
  configRunWith configStepF m ops

/-- The source's calls keep the invariant of a configured matrix. -/
theorem configStepF_inv {N : Int} {m m' : HMatrix V} {op : ConfigOp} (hm : ConfigInv N m)
    (h : configStepF m op = .ok m') : ConfigInv N m' := by
  cases op with
  | split str => exact splitWithHeight_inv hm h
  | xrange str => exact @configStep_inv V N m m' (.xrange str) hm h
  | yrange str => exact @configStep_inv V N m m' (.yrange str) hm h

theorem configRunF_init_inv {N : Int} (hN : 1 ≤ N) {ops : List ConfigOp} {m : HMatrix V}
    (h : configRunF (hmatrix_init N) ops = .ok m) : ConfigInv N m :=
  configRunWith_inv configStepF_inv (configInv_init hN) h

/-- A configured matrix over at most `2^24` strings has at most `2^24` rows
in its y range, so each call reads the same in both splits. -/
theorem configStepF_eq {N : Int} (hN : N ≤ 2 ^ 24) {m : HMatrix V} (hm : ConfigInv N m)
    (op : ConfigOp) : configStepF m op = configStep m op := by
  cases op with
  | split str =>
    have : m.y.n - m.y.i ≤ 2 ^ 24 := by have := hm.y_lo; have := hm.y_hi; omega
    exact splitWithHeight_congr m str fun _ hb hbh => blockHeightF_eq hb hbh this
  | xrange str => rfl
  | yrange str => rfl

/-- Two step functions that agree on every configured matrix, one of them
keeping the invariant, run alike from every configured matrix. -/
theorem configRunWith_congr {s₁ s₂ : HMatrix V → ConfigOp → Except SplitFatal (HMatrix V)}
    {N : Int} (heq : ∀ {m : HMatrix V}, ConfigInv N m → ∀ op, s₁ m op = s₂ m op)
    (hinv : ∀ {m m' : HMatrix V} {op : ConfigOp}, ConfigInv N m → s₂ m op = .ok m' →
      ConfigInv N m') :
    ∀ (ops : List ConfigOp) {m : HMatrix V}, ConfigInv N m →
      configRunWith s₁ m ops = configRunWith s₂ m ops
  | [], _, _ => rfl
  | op :: ops, m, hm => by
    simp only [configRunWith, heq hm op]
    cases hstep : s₂ m op with
    | ok m' => exact configRunWith_congr heq hinv ops (hinv hm hstep)
    | error e => rfl

/-- Over a batch of at most `2^24` strings every configuration run is the
same with the source's binary32 split as with the exact one: the same
matrix, or the same fatal error. -/
theorem configRunF_eq {N : Int} (h1 : 1 ≤ N) (hN : N ≤ 2 ^ 24) (ops : List ConfigOp) :
    configRunF (hmatrix_init N : HMatrix V) ops = configRun (hmatrix_init N) ops :=
  configRunWith_congr (configStepF_eq hN) configStep_inv ops (configInv_init h1)

theorem configRunF_eq_split :
    (1 : Int) ≤ 100 ∧ (100 : Int) ≤ 2 ^ 24 ∧
      configRunF (hmatrix_init 100 : HMatrix Nat) [.yrange ⟨ascii "10:90", by decide⟩,
        .split (splitStr 3 2)] =
      configRun (hmatrix_init 100) [.yrange ⟨ascii "10:90", by decide⟩, .split (splitStr 3 2)] :=
  ⟨by decide, by decide, configRunF_eq (by decide) (by decide) _⟩

-- ========================================================== beyond 2^24

/-- An even value in `[2^24, 2^25]` converts exactly. -/
theorem roundF32_even_ceil {v : Nat} (h₁ : 2 ^ 24 ≤ v) (h₂ : v ≤ 2 ^ 25) (hv : v % 2 = 0) :
    (roundF32 v 1).ceil = v := by
  rcases Nat.lt_or_eq_of_le h₂ with hlt | rfl
  · have hval : v / (2 * 1) * 2 ^ (f32Bias + 1) = v * 2 ^ f32Bias := by
      rw [pow_succ, Nat.mul_one, Nat.mul_comm (2 ^ f32Bias) 2, ← Nat.mul_assoc,
        Nat.div_mul_cancel (Nat.dvd_of_mod_eq_zero hv)]
    rw [roundF32_binade24 (by omega) (by omega), rneDiv_of_dvd (by norm_num) (by omega)]
    apply F32.ceil_eq <;> dsimp only <;> rw [hval]
    · exact Nat.mul_lt_mul_of_pos_right (by omega) (Nat.two_pow_pos _)
  · rfl

/-- `(float) n` for odd `n` in `(2^24, 2^25)`: the tie between `n - 1` and
`n + 1` goes to the even significand. -/
theorem F32.ofNat_odd_val {n : Nat} (h₁ : 2 ^ 24 < n) (h₂ : n < 2 ^ 25) (hodd : n % 2 = 1) :
    (F32.ofNat n).m * 2 ^ (F32.ofNat n).e = (if n % 4 = 1 then n - 1 else n + 1) * 2 ^ f32Bias := by
  have hr : rneDiv n (2 * 1) * 2 = if n % 4 = 1 then n - 1 else n + 1 := by
    unfold rneDiv; split <;> split <;> omega
  rw [F32.ofNat, roundF32_binade24 (by omega) (by omega), ← hr]; dsimp only; ring

/-- For odd `h` in `(2^24, 2^25)` the one-block height is the rounded `h`. -/
theorem blockHeightF_odd {n : Nat} (h₁ : 2 ^ 24 < n) (h₂ : n < 2 ^ 25) (hodd : n % 2 = 1) :
    blockHeightF n 1 = if (n : Int) % 4 = 1 then (n : Int) - 1 else n + 1 := by
  have h1 : (F32.ofNat 1).m * 2 ^ (F32.ofNat 1).e = 1 * 2 ^ f32Bias :=
    F32.ofNat_val Nat.one_pos (by norm_num)
  have hv : 2 ^ 24 ≤ (if n % 4 = 1 then n - 1 else n + 1) ∧
      (if n % 4 = 1 then n - 1 else n + 1) ≤ 2 ^ 25 ∧
      (if n % 4 = 1 then n - 1 else n + 1) % 2 = 0 := by split <;> omega
  rw [blockHeightF, Int.toNat_ofNat, show (1 : Int).toNat = 1 from rfl, F32.div,
    F32.ofNat_odd_val h₁ h₂ hodd, h1, roundF32_mul_right _ _ (Nat.two_pow_pos _),
    roundF32_even_ceil hv.1 hv.2.1 hv.2.2]
  split <;> split <;> omega

/-- Above `2^24` rows the readings part: for an odd height `h` between
`2^24` and `2^25` the exact split `"1:0"` keeps the whole range, while the
source's either drops the range's last row (`h ≡ 1 mod 4`) or stops with
"Block height too small" (`h ≡ 3 mod 4`). -/
theorem hmatrix_split_f32_odd (m : HMatrix V) (h₁ : 2 ^ 24 < m.y.n - m.y.i)
    (h₂ : m.y.n - m.y.i < 2 ^ 25) (hodd : (m.y.n - m.y.i) % 2 = 1) :
    hmatrix_split m (splitStr 1 0) = .ok m ∧
      hmatrix_split_f32 m (splitStr 1 0) =
        if (m.y.n - m.y.i) % 4 = 1 then .ok { m with y := ⟨m.y.i, m.y.n - 1⟩ }
        else .error (.heightTooSmall (m.y.n - m.y.i + 1)) := by
  obtain ⟨n, hn⟩ := Int.eq_ofNat_of_zero_le (by omega : 0 ≤ m.y.n - m.y.i)
  have hF := @blockHeightF_odd n (by omega) (by omega) (by omega)
  have hlen : (splitStr 1 0).bytes.length ≠ 0 := by simp [splitStr, splitArg]
  constructor
  · rw [hmatrix_split_splitStr m le_rfl (by omega) (by unfold INT_MAX; omega) Nat.one_pos]
    have hy : m.y.block 0 (blockHeight (m.y.n - m.y.i) 1) = m.y := by
      rw [blockHeight, show m.y.n - m.y.i + 1 - 1 = m.y.n - m.y.i by ring, Int.ediv_one]
      unfold Range.block; split_ifs <;> simp
    simp only [Nat.cast_zero, Nat.cast_one, hy]
  · unfold hmatrix_split_f32 splitWithHeight
    rw [if_neg hlen, splitStr, scanSplit_splitArg (by unfold INT_MAX; omega)
      (by unfold INT_MAX; omega)]
    dsimp only
    rw [Nat.cast_one, Nat.cast_zero, hn, hF, if_neg (by omega)]
    by_cases h4 : (n : Int) % 4 = 1
    · simp only [if_pos h4]
      rw [if_neg (by omega), if_neg (by omega)]
      unfold Range.block; split_ifs <;> simp <;> omega
    · simp only [if_neg h4]
      rw [if_pos (by omega)]

theorem hmatrix_split_f32_odd_drop :
    let m : HMatrix Nat := { hmatrix_init (2 ^ 24 + 1) with y := ⟨0, 2 ^ 24 + 1⟩ }
    2 ^ 24 < m.y.n - m.y.i ∧ m.y.n - m.y.i < 2 ^ 25 ∧ (m.y.n - m.y.i) % 2 = 1 ∧
      hmatrix_split m (splitStr 1 0) = .ok m ∧
      hmatrix_split_f32 m (splitStr 1 0) =
        if (m.y.n - m.y.i) % 4 = 1 then .ok { m with y := ⟨m.y.i, m.y.n - 1⟩ }
        else .error (.heightTooSmall (m.y.n - m.y.i + 1)) :=
  ⟨by decide, by decide, by decide, hmatrix_split_f32_odd _ (by decide) (by decide) (by decide)⟩

/-- An exact quotient below `2^24` rounds to itself. -/
theorem roundF32_dvd_ceil {a c : Nat} (hc : 0 < c) (ha : 0 < a) (hdvd : c ∣ a)
    (hlt : a < 2 ^ 24 * c) : (roundF32 a c).ceil = a / c := by
  have hca := Nat.le_of_dvd ha hdvd
  have hq : 0 < a / c := Nat.div_pos hca hc
  obtain ⟨d, hd, -, hround⟩ := roundF32_low hc hlt (by omega)
  have hr : rneDiv (a * 2 ^ d) c = a / c * 2 ^ d := by
    rw [rneDiv_of_dvd hc (Dvd.dvd.mul_right hdvd _), Nat.mul_comm a, Nat.mul_div_assoc _ hdvd,
      Nat.mul_comm]
  rw [hround]
  apply F32.ceil_eq <;> dsimp only <;> rw [hr, f32Bias_split hd, ← Nat.mul_assoc]
  · exact Nat.mul_lt_mul_of_pos_right (Nat.mul_lt_mul_of_pos_right (by omega) (Nat.two_pow_pos _))
      (Nat.two_pow_pos _)

/-- For `h ≡ 1 (mod 4)` in `(2^24, 2^25)` and `b = 2^k` dividing `h - 1`,
the float height is `(h - 1) / b`: the exact quotient of the rounded `h`. -/
theorem blockHeightF_pow {n k : Nat} (h₁ : 2 ^ 24 < n) (h₂ : n < 2 ^ 25) (h4 : n % 4 = 1)
    (hdvd : 2 ^ k ∣ n - 1) : blockHeightF n (2 ^ k : Nat) = ((n - 1) / 2 ^ k : Nat) := by
  have hk : k ≤ 24 := by
    have := lt_of_le_of_lt (Nat.le_of_dvd (by omega) hdvd) (show n - 1 < 2 ^ 25 by omega)
    have := (Nat.pow_lt_pow_iff_right (by norm_num)).1 this
    omega
  have hx := F32.ofNat_odd_val h₁ h₂ (by omega)
  rw [if_pos h4] at hx
  rw [blockHeightF, Int.toNat_ofNat, Int.toNat_ofNat, F32.div, hx,
    F32.ofNat_val (Nat.two_pow_pos k) (Nat.pow_le_pow_right (by norm_num) hk),
    roundF32_mul_right _ _ (Nat.two_pow_pos _)]
  congr 1
  rcases Nat.eq_zero_or_pos k with rfl | hk0
  · rw [pow_zero, Nat.div_one]
    exact roundF32_even_ceil (by omega) (by omega) (by omega)
  · have : 2 ^ 1 ≤ 2 ^ k := Nat.pow_le_pow_right (by norm_num) hk0
    exact roundF32_dvd_ceil (Nat.two_pow_pos k) (by omega) hdvd (by omega)

/-- Above `2^24` rows, sharding with the source's split loses a row: for a
height `h ≡ 1 (mod 4)` between `2^24` and `2^25` and `b = 2^k` blocks
dividing `h - 1`, every call `--split b:j`, `j < b`, succeeds, and none of
the `b` blocks holds the range's last row, which the exact split's blocks
cover (`hmatrix_split_partition`). -/
theorem hmatrix_split_f32_shards_miss_last (m : HMatrix V) (h₁ : 2 ^ 24 < m.y.n - m.y.i)
    (h₂ : m.y.n - m.y.i < 2 ^ 25) (h4 : (m.y.n - m.y.i) % 4 = 1) {k : Nat}
    (hdvd : 2 ^ k ∣ (m.y.n - m.y.i - 1).toNat) :
    ∀ j < 2 ^ k, ∃ mj : HMatrix V, hmatrix_split_f32 m (splitStr (2 ^ k) j) = .ok mj ∧
      ¬ mj.y.Mem (m.y.n - 1) := by
  intro j hj
  obtain ⟨n, hn⟩ := Int.eq_ofNat_of_zero_le (by omega : 0 ≤ m.y.n - m.y.i)
  have hdvd' : 2 ^ k ∣ n - 1 := by rwa [hn, show (n : Int) - 1 = ((n - 1 : Nat) : Int) by omega,
    Int.toNat_ofNat] at hdvd
  have hbn : 2 ^ k ≤ n - 1 := Nat.le_of_dvd (by omega) hdvd'
  have hq := Nat.div_mul_cancel hdvd'
  have hqpos : 0 < (n - 1) / 2 ^ k := Nat.div_pos hbn (Nat.two_pow_pos k)
  have hqle : (n - 1) / 2 ^ k ≤ n - 1 := Nat.div_le_self _ _
  have hF := blockHeightF_pow (by omega) (by omega) (by omega) hdvd'
  have hlen : (splitStr (2 ^ k) j).bytes.length ≠ 0 := by simp [splitStr, splitArg]
  refine ⟨{ m with y := m.y.block j ((n - 1) / 2 ^ k : Nat) }, ?_, ?_⟩
  · unfold hmatrix_split_f32 splitWithHeight
    rw [if_neg hlen, splitStr, scanSplit_splitArg (by unfold INT_MAX; omega)
      (by unfold INT_MAX; omega)]
    dsimp only
    rw [hn, hF, if_neg (by omega), if_neg (by omega), if_neg (by omega)]
  · show ¬ (m.y.block j ((n - 1) / 2 ^ k : Nat)).Mem (m.y.n - 1)
    rw [Range.mem_block_iff (by omega) j]
    rintro ⟨-, hj'⟩
    have hlast : m.y.n - 1 - m.y.i = ((n - 1) / 2 ^ k : Nat) * ((2 ^ k : Nat) : Int) := by
      rw [← Nat.cast_mul, hq]; omega
    rw [hlast, Int.mul_ediv_cancel_left _ (by omega)] at hj'
    omega

theorem hmatrix_split_f32_shards_miss_last_four :
    let m : HMatrix Nat := hmatrix_init (2 ^ 24 + 1)
    2 ^ 24 < m.y.n - m.y.i ∧ m.y.n - m.y.i < 2 ^ 25 ∧ (m.y.n - m.y.i) % 4 = 1 ∧
      2 ^ 2 ∣ (m.y.n - m.y.i - 1).toNat ∧
      ∀ j < 2 ^ 2, ∃ mj : HMatrix Nat, hmatrix_split_f32 m (splitStr (2 ^ 2) j) = .ok mj ∧
        ¬ mj.y.Mem (m.y.n - 1) :=
  ⟨by decide, by decide, by decide, by decide,
    hmatrix_split_f32_shards_miss_last _ (by decide) (by decide) (by decide) (by decide)⟩

end Harry
