/-
`parse_range` (hmatrix.c): the strings of `--xrange` and `--yrange`, of
the form `a:b`, either side optional.

# Ways out

The function leaves by one of three doors. An empty string, or one with
no `:`, returns the range it was given, untouched. Otherwise each side
is read (`parseBound`: empty is the side's default, a whole numeral its
value through `(int)`, anything else an error that keeps the old bound),
a negative end counts from `n`, and a sanity check replaces anything
outside `0 ≤ i < n' ≤ n` by the full range `0:n`. So every result is
either the input or a valid range (`parse_range_cases`): that is the step
lemma the matrix invariant of `Config.lean` is built on.

# The grammar and the code

The grammar reading (`grammarRange`) rejects a malformed side and takes
numerals as mathematical integers. The code parts from it twice
(`parse_range_departs_from_grammar`). A malformed side reports an error
and keeps the bound it had, as a string without `:` keeps the whole
range: that is the function's design, and `defaultParse` reads it on the
default range every caller starts from, the errors included. A numeral
goes through `strtol`'s saturation and the unchecked `(int)` cast before
the sanity checks, so a value outside the `int` range comes back
truncated and passes them (`"4294967297:"` gives `1:10`). For strings
whose numerals lie within the `int` range the cast is exact, and there
the code is `defaultParse` (`parse_range_default`).
-/
import Harry.CString

namespace Harry

-- ================================================================ ranges

/-- `range_t`: the half-open interval `[i, n)` of row or column indices. -/
structure Range where
  i : Int
  n : Int
  deriving DecidableEq, Repr

/-- `y ∈ [r.i, r.n)`. -/
def Range.Mem (r : Range) (y : Int) : Prop := r.i ≤ y ∧ y < r.n

instance (r : Range) (y : Int) : Decidable (r.Mem y) := inferInstanceAs (Decidable (_ ∧ _))

/-- The range invariant over `N` strings: `0 ≤ i < n ≤ N`. -/
def Range.Valid (N : Int) (r : Range) : Prop := 0 ≤ r.i ∧ r.i < r.n ∧ r.n ≤ N

instance (N : Int) (r : Range) : Decidable (r.Valid N) :=
  inferInstanceAs (Decidable (_ ∧ _ ∧ _))

-- ============================================================ the parser

/-- What `parse_range` reports through `error()`, with the text it
prints. -/
inductive RangeError where
  /-- `"Invalid range string '%s'."` -/
  | invalidString (str : List UInt8)
  /-- `"Could not parse range '%s:...'."` -/
  | leftUnparsable (left : List UInt8)
  /-- `"Could not parse range '...:%s'."` -/
  | rightUnparsable (right : List UInt8)
  /-- `"Invalid range '%s:%s'. Using default '0:%d'."` -/
  | invalidRange (left right : List UInt8) (n : Int)
  deriving DecidableEq, Repr

/-- `ptr = strchr(str, ':'); *ptr = '\0'`: the bytes before the first
colon and the bytes after it. -/
def splitColon : List UInt8 → Option (List UInt8 × List UInt8)
  | [] => none
  | c :: cs => if c = 58 then some ([], cs) else (splitColon cs).map fun p => (c :: p.1, p.2)

/-- One side of the range: empty gives `dflt`; a side `strtol` reads to
its end (`*end == '\0'`) gives the value through `(int)`; anything else
reports `err` and keeps `old`. -/
def parseBound (side : List UInt8) (dflt old : Int) (err : RangeError) : Int × List RangeError :=
  if side.length = 0 then (dflt, [])
  else if (strtol side).2 = side.length then (castInt (strtol side).1, [])
  else (old, [err])

/-- `parse_range(r, str, n)`: the range and the errors reported on the
way. -/
def parse_range (r : Range) (str : CStr) (n : Int) : Range × List RangeError :=
  if str.bytes.length = 0 then (r, [])
  else match splitColon str.bytes with
    | none => (r, [.invalidString str.bytes])
    | some (left, right) =>
      let (i, e₁) := parseBound left 0 r.i (.leftUnparsable left)
      let (n₀, e₂) := parseBound right n r.n (.rightUnparsable right)
      let n₁ := if n₀ < 0 then n + n₀ else n₀
      if n₁ < 0 ∨ i < 0 ∨ n₁ > n ∨ i > n - 1 ∨ i ≥ n₁ then
        (⟨0, n⟩, e₁ ++ e₂ ++ [.invalidRange left right n])
      else (⟨i, n₁⟩, e₁ ++ e₂)

/-- The sanity check passes exactly on the valid ranges. -/
theorem sanity_iff (i n₁ n : Int) :
    ¬(n₁ < 0 ∨ i < 0 ∨ n₁ > n ∨ i > n - 1 ∨ i ≥ n₁) ↔ Range.Valid n ⟨i, n₁⟩ := by
  simp only [Range.Valid]
  omega

/-- Every way out of `parse_range` returns the range it was given or a
valid range over `n`. -/
theorem parse_range_cases (r : Range) (str : CStr) {n : Int} (hn : 0 < n) :
    (parse_range r str n).1 = r ∨ Range.Valid n (parse_range r str n).1 := by
  unfold parse_range
  split
  · exact .inl rfl
  split
  · exact .inl rfl
  right
  split
  split
  dsimp only
  split_ifs with h₀ h <;> first
    | exact (sanity_iff _ _ _).1 h
    | (simp only [Range.Valid]; omega)

/-- A valid range stays valid under `parse_range`. -/
theorem parse_range_valid {r : Range} {n : Int} (hr : r.Valid n) (str : CStr) :
    (parse_range r str n).1.Valid n := by
  rcases parse_range_cases r str (lt_of_le_of_lt hr.1 (lt_of_lt_of_le hr.2.1 hr.2.2)) with h | h
  · rwa [h]
  · exact h

-- =============================================== the grammar reading

/-- A side the grammar reads as a numeral: a decimal integer as `strtol`
delimits it, spanning the whole side, taken as a mathematical integer. -/
def numeral (side : List UInt8) : Option Int :=
  if 0 < (scanDecimal side).2 ∧ (scanDecimal side).2 = side.length then some (scanDecimal side).1
  else none

/-- The range the grammar `range := int? ':' int?` prescribes over `N`:
an empty left side is 0, an empty right side `N`, a negative right value
`v` is `N + v`; the pair when both sides are numerals and `0 ≤ a < b ≤ N`,
the full range `0:N` in every other case. -/
def grammarRange (str : CStr) (N : Int) : Range :=
  match splitColon str.bytes with
  | none => ⟨0, N⟩
  | some (left, right) =>
    let a := if left = [] then some 0 else numeral left
    let b := if right = [] then some N else (numeral right).map fun v => if v < 0 then N + v else v
    match a, b with
    | some a, some b => if 0 ≤ a ∧ a < b ∧ b ≤ N then ⟨a, b⟩ else ⟨0, N⟩
    | _, _ => ⟨0, N⟩

/-- One side of a range string on the default range: `dflt` when empty, a
numeral's value, and otherwise `dflt`, kept, with `err` reported. -/
def readSide (side : List UInt8) (dflt : Int) (err : RangeError) : Int × List RangeError :=
  if side = [] then (dflt, [])
  else match numeral side with
    | some v => (v, [])
    | none => (dflt, [err])

/-- What `parse_range` is meant to do on the default range `0:N`, with the
errors it reports: the empty string is `0:N`, silently; a string without
`:` is `0:N`, reported; otherwise the sides are read by `readSide` (0 and
`N` their defaults), a negative end `v` counts from `N`, and the pair is
the result when `0 ≤ a < b ≤ N`, `0:N` with the range reported
otherwise. -/
def defaultParse (str : CStr) (N : Int) : Range × List RangeError :=
  if str.bytes = [] then (⟨0, N⟩, [])
  else match splitColon str.bytes with
    | none => (⟨0, N⟩, [.invalidString str.bytes])
    | some (left, right) =>
      let (a, e₁) := readSide left 0 (.leftUnparsable left)
      let (v, e₂) := readSide right N (.rightUnparsable right)
      let b := if v < 0 then N + v else v
      if 0 ≤ a ∧ a < b ∧ b ≤ N then (⟨a, b⟩, e₁ ++ e₂)
      else (⟨0, N⟩, e₁ ++ e₂ ++ [.invalidRange left right N])

/-- Every side of `str` that is a numeral has its value within the `int`
range, where the `(int)` cast is exact. -/
def NumeralsFit (str : CStr) : Prop :=
  ∀ p ∈ splitColon str.bytes, (∀ v ∈ numeral p.1, InInt v) ∧ ∀ v ∈ numeral p.2, InInt v

instance (str : CStr) : Decidable (NumeralsFit str) :=
  inferInstanceAs (Decidable (∀ p ∈ splitColon str.bytes, _))

/-- On its default, `parseBound` reads a side whose numeral fits an `int`
as `readSide` does. -/
theorem parseBound_default {side : List UInt8} (hfit : ∀ v ∈ numeral side, InInt v) (dflt : Int)
    (err : RangeError) : parseBound side dflt dflt err = readSide side dflt err := by
  by_cases hs : side = []
  · subst hs
    rfl
  have hlen : side.length ≠ 0 := fun h => hs (List.length_eq_zero.1 h)
  rw [parseBound, readSide, if_neg hlen, if_neg hs, strtol_snd]
  by_cases hk : (scanDecimal side).2 = side.length
  · have hnum : numeral side = some (scanDecimal side).1 := if_pos ⟨by omega, hk⟩
    have hv := hfit _ hnum
    unfold InInt INT_MIN INT_MAX at hv
    rw [hnum, if_pos hk, strtol_fst (by unfold LONG_MIN; omega) (by unfold LONG_MAX; omega),
      castInt_of_inInt (by unfold InInt INT_MIN INT_MAX; omega)]
  · have hnum : numeral side = none := if_neg fun h => hk h.2
    rw [hnum, if_neg hk]

/-- Two places the code parts from the grammar over ten strings: `x:5`
keeps the default start for its malformed left side and gives `0:5`;
`4294967297:` loses its high bits in the `(int)` cast and gives `1:10`.
The grammar gives `0:10` for both. -/
theorem parse_range_departs_from_grammar :
    (parse_range ⟨0, 10⟩ ⟨ascii "x:5", by decide⟩ 10).1 = ⟨0, 5⟩ ∧
      grammarRange ⟨ascii "x:5", by decide⟩ 10 = ⟨0, 10⟩ ∧
      (parse_range ⟨0, 10⟩ ⟨ascii "4294967297:", by decide⟩ 10).1 = ⟨1, 10⟩ ∧
      grammarRange ⟨ascii "4294967297:", by decide⟩ 10 = ⟨0, 10⟩ :=
  ⟨by rfl, by rfl, by rfl, by rfl⟩

/-- On the default range, for every string whose numerals fit an `int`,
`parse_range` returns what `defaultParse` prescribes: the same range and
the same errors reported. -/
theorem parse_range_default (str : CStr) {N : Int} (hfit : NumeralsFit str) :
    parse_range ⟨0, N⟩ str N = defaultParse str N := by
  unfold parse_range defaultParse
  by_cases hs : str.bytes = []
  · rw [if_pos (List.length_eq_zero.2 hs), if_pos hs]
  rw [if_neg (mt List.length_eq_zero.1 hs), if_neg hs]
  rcases hsplit : splitColon str.bytes with _ | ⟨left, right⟩
  · rfl
  obtain ⟨hl, hr⟩ := hfit _ hsplit
  dsimp only
  rw [parseBound_default hl, parseBound_default hr]
  rcases readSide left 0 (.leftUnparsable left) with ⟨a, e₁⟩
  rcases readSide right N (.rightUnparsable right) with ⟨v, e₂⟩
  dsimp only
  split_ifs <;> first | rfl | (exfalso; omega)

/-- `2:-1` over ten strings. -/
theorem parse_range_default_ten :
    NumeralsFit ⟨ascii "2:-1", by decide⟩ ∧
      parse_range ⟨0, 10⟩ ⟨ascii "2:-1", by decide⟩ 10 = defaultParse ⟨ascii "2:-1", by decide⟩ 10 :=
  ⟨of_decide_eq_true (by rfl), parse_range_default _ (of_decide_eq_true (by rfl))⟩

example : defaultParse ⟨ascii "2:-1", by decide⟩ 10 = (⟨2, 9⟩, []) := by rfl

example : defaultParse ⟨ascii "x:5", by decide⟩ 10 = (⟨0, 5⟩, [.leftUnparsable (ascii "x")]) := by
  rfl

end Harry
