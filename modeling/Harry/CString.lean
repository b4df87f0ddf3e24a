/-
The C library layer the matrix and string code reads its input through:
C strings as byte lists with no NUL inside, the `isspace` and `isdigit`
classes of the C locale, `strtol` in base 10, the `(int)` conversion of a
`long`, and the `"%d:%d"` conversion `hmatrix_split` makes with `sscanf`.

# Numbers are read in three layers

`scanDecimal` is the mathematical reading of a decimal numeral (white
space, an optional sign, the digit run; no bound). `strtol` saturates it
to the 64-bit `long` range, as glibc's `strtol` does on overflow (it sets
`ERANGE`, which no caller reads). `castInt` is the conversion of a `long`
to a 32-bit `int` on the two's-complement targets the code is built for:
the low 32 bits, read signed. Each `%d` of `sscanf` reads through the same
two steps.

The round trip `scanSplit_splitArg` is what an orchestrator relies on
when it fans a matrix out with `--split b:k`: the string it formats is
read back as the pair it meant, for every pair of `int`s.
-/
import Mathlib

namespace Harry

-- ============================================================ C strings

/-- The bytes of a NUL-terminated C string, the terminator left off:
`strlen` is the length, and no byte inside is `'\0'`. -/
structure CStr where
  bytes : List UInt8
  no_nul : ∀ c ∈ bytes, c ≠ 0

/-- The bytes of an ASCII literal, one per character (for writing
concrete inputs). -/
def ascii (s : String) : List UInt8 := s.toList.map fun c => c.toNat.toUInt8

/-- `isspace` in the C locale: `' '` and `'\t'` through `'\r'`. -/
def isSpace (c : UInt8) : Bool := c.toNat == 32 || (9 ≤ c.toNat && c.toNat ≤ 13)

/-- `isdigit`: `'0'` through `'9'`. -/
def isDigit (c : UInt8) : Bool := 48 ≤ c.toNat && c.toNat ≤ 57

-- ====================================================== 32- and 64-bit

/-- `INT_MIN`, `INT_MAX` of the 32-bit `int`. -/
def INT_MIN : Int := -2 ^ 31

def INT_MAX : Int := 2 ^ 31 - 1

/-- `LONG_MIN`, `LONG_MAX` of the 64-bit `long` on x86-64. -/
def LONG_MIN : Int := -2 ^ 63

def LONG_MAX : Int := 2 ^ 63 - 1

/-- A value an `int` can hold. -/
def InInt (v : Int) : Prop := INT_MIN ≤ v ∧ v ≤ INT_MAX

instance (v : Int) : Decidable (InInt v) := inferInstanceAs (Decidable (_ ∧ _))

/-- `(int) l`: the low 32 bits of `l`, read as a two's-complement `int`. -/
def castInt (l : Int) : Int := (l + 2 ^ 31) % 2 ^ 32 - 2 ^ 31

theorem castInt_inInt (l : Int) : InInt (castInt l) := by
  unfold InInt INT_MIN INT_MAX castInt
  omega

/-- A value in range survives the conversion. -/
theorem castInt_of_inInt {l : Int} (h : InInt l) : castInt l = l := by
  unfold InInt INT_MIN INT_MAX at h
  unfold castInt
  omega

-- ================================================================ strtol

/-- The value of a run of decimal digits, most significant first. -/
def digitsValue (ds : List UInt8) : Nat := ds.foldl (fun v c => 10 * v + (c.toNat - 48)) 0

/-- The sign `strtol` reads in front of the digits: negative, and how many
bytes it takes. -/
def signOf : List UInt8 → Bool × Nat
  | c :: _ => if c.toNat = 45 then (true, 1) else if c.toNat = 43 then (false, 1) else (false, 0)
  | [] => (false, 0)

/-- The decimal integer at the head of `s`, as `strtol` delimits it, taken
as a mathematical integer, and the number of bytes it spans. With no
digit nothing is consumed (`end = s`) and the value is 0. -/
def scanDecimal (s : List UInt8) : Int × Nat :=
  let ws := (s.takeWhile isSpace).length
  let (neg, sl) := signOf (s.drop ws)
  let ds := ((s.drop ws).drop sl).takeWhile isDigit
  if ds = [] then (0, 0)
  else ((if neg then -(digitsValue ds : Int) else digitsValue ds), ws + sl + ds.length)

/-- `strtol(s, &end, 10)`: the `long` returned, saturated on overflow, and
`end - s`. -/
def strtol (s : List UInt8) : Int × Nat :=
  (max LONG_MIN (min LONG_MAX (scanDecimal s).1), (scanDecimal s).2)

@[simp] theorem strtol_snd (s : List UInt8) : (strtol s).2 = (scanDecimal s).2 := rfl

/-- A value within the `long` range is returned as read. -/
theorem strtol_fst {s : List UInt8} (h₁ : LONG_MIN ≤ (scanDecimal s).1)
    (h₂ : (scanDecimal s).1 ≤ LONG_MAX) : (strtol s).1 = (scanDecimal s).1 := by
  simp only [strtol]
  omega

/-- `sscanf(s, "%d:%d", &blocks, &index) == 2`: each `%d` reads as
`strtol` does and is stored through an `int`; the `:` must follow the
first number directly, and nothing after the second number is read. -/
def scanSplit (s : List UInt8) : Option (Int × Int) :=
  let (a, ka) := strtol s
  let rest := s.drop ka
  if ka = 0 ∨ rest.head? ≠ some 58 then none
  else
    let (b, kb) := strtol (rest.drop 1)
    if kb = 0 then none else some (castInt a, castInt b)

-- ================================================= printing a numeral

/-- `printf("%d", n)` for `n ≥ 0`: the decimal digits, most significant
first. -/
def decimal (n : Nat) : List UInt8 :=
  if n = 0 then [48] else (Nat.digits 10 n).reverse.map fun d => (48 + d).toUInt8

theorem digit_toUInt8 {d : Nat} (h : d < 10) : (48 + d).toUInt8.toNat = 48 + d :=
  UInt8.toNat_ofNat_of_lt (by unfold UInt8.size; omega)

theorem decimal_isDigit (n : Nat) : ∀ c ∈ decimal n, isDigit c = true := by
  unfold decimal
  split
  · decide
  · intro c hc
    obtain ⟨d, hd, rfl⟩ := List.mem_map.1 hc
    have h10 : d < 10 := Nat.digits_lt_base (by omega) (List.mem_reverse.1 hd)
    simp only [isDigit, digit_toUInt8 h10, Bool.and_eq_true, decide_eq_true_eq]
    omega

theorem decimal_ne_nil (n : Nat) : decimal n ≠ [] := by
  unfold decimal
  split
  · simp
  · simpa [Nat.digits_ne_nil_iff_ne_zero] using ‹n ≠ 0›

/-- Folding digits most significant first is `Nat.ofDigits` of the
reversed list. -/
theorem digitsValue_reverse (l : List Nat) (hl : ∀ d ∈ l, d < 10) :
    digitsValue (l.reverse.map fun d => (48 + d).toUInt8) = Nat.ofDigits 10 l := by
  induction l with
  | nil => rfl
  | cons d l ih =>
    have hd := hl d (List.mem_cons_self _ _)
    simp only [digitsValue, List.reverse_cons, List.map_append, List.foldl_append] at ih ⊢
    rw [ih fun e he => hl e (List.mem_cons_of_mem _ he)]
    simp [digit_toUInt8 hd, Nat.ofDigits_cons]
    ring

theorem digitsValue_decimal (n : Nat) : digitsValue (decimal n) = n := by
  unfold decimal
  split
  · subst_vars; rfl
  · rw [digitsValue_reverse _ fun d hd => Nat.digits_lt_base (by omega) hd, Nat.ofDigits_digits]

/-- A numeral printed by `decimal` and followed by anything but a digit
is read back whole: no white space or sign in front, every digit taken. -/
theorem scanDecimal_decimal (n : Nat) {rest : List UInt8}
    (hr : ∀ c ∈ rest.head?, isDigit c = false) :
    scanDecimal (decimal n ++ rest) = ((n : Int), (decimal n).length) := by
  obtain ⟨d, ds, hd⟩ := List.exists_cons_of_ne_nil (decimal_ne_nil n)
  have hdig : isDigit d = true := decimal_isDigit n d (by simp [hd])
  have hsp : isSpace d = false := by
    simp only [isDigit, Bool.and_eq_true, decide_eq_true_eq] at hdig
    simp only [isSpace, Bool.or_eq_false_iff, beq_eq_false_iff_ne, ne_eq, Bool.and_eq_false_iff,
      decide_eq_false_iff_not]
    omega
  have hsign : signOf (decimal n ++ rest) = (false, 0) := by
    simp only [isDigit, Bool.and_eq_true, decide_eq_true_eq] at hdig
    simp only [hd, List.cons_append, signOf]
    split_ifs <;> first | rfl | omega
  have hrest : rest.takeWhile isDigit = [] := by
    cases rest with
    | nil => rfl
    | cons c cs => simp [List.takeWhile_cons, hr c rfl]
  have htake : (decimal n ++ rest).takeWhile isDigit = decimal n := by
    rw [List.takeWhile_append_of_pos (decimal_isDigit n), hrest, List.append_nil]
  have hws : ((decimal n ++ rest).takeWhile isSpace).length = 0 := by
    simp [hd, List.takeWhile_cons, hsp]
  simp only [scanDecimal, hws, List.drop_zero, hsign, htake, decimal_ne_nil, if_false,
    Bool.false_eq_true, digitsValue_decimal, Nat.zero_add]

/-- The split argument `"b:k"` an orchestrator formats for block `k` of
`b`. -/
def splitArg (b k : Nat) : List UInt8 := decimal b ++ 58 :: decimal k

/-- `sscanf` reads the split argument back as the pair it was printed
from, for every pair of `int`s. -/
theorem scanSplit_splitArg {b k : Nat} (hb : (b : Int) ≤ INT_MAX) (hk : (k : Int) ≤ INT_MAX) :
    scanSplit (splitArg b k) = some ((b : Int), (k : Int)) := by
  have hread : ∀ (m : Nat) (rest : List UInt8), (m : Int) ≤ INT_MAX →
      (∀ c ∈ rest.head?, isDigit c = false) →
      strtol (decimal m ++ rest) = ((m : Int), (decimal m).length) := by
    intro m rest hm hr
    unfold INT_MAX at hm
    simp only [strtol, scanDecimal_decimal m hr, Prod.mk.injEq, and_true]
    unfold LONG_MIN LONG_MAX
    omega
  have hcast : ∀ {m : Nat}, (m : Int) ≤ INT_MAX → castInt m = m := fun hm =>
    castInt_of_inInt ⟨by unfold INT_MIN; omega, hm⟩
  have h₁ := hread b (58 :: decimal k) hb fun c hc => by
    cases hc
    decide
  have h₂ : strtol (decimal k) = ((k : Int), (decimal k).length) := by
    simpa using hread k [] hk (by simp)
  have hne : (decimal b).length ≠ 0 := by simpa using decimal_ne_nil b
  have hnk : (decimal k).length ≠ 0 := by simpa using decimal_ne_nil k
  unfold scanSplit
  rw [splitArg, h₁]
  dsimp only
  rw [List.drop_left]
  simp only [List.head?_cons, hne, ne_eq, not_true_eq_false, or_self, if_false, List.drop_one,
    List.tail_cons, h₂, hnk, hcast hb, hcast hk]

/-- No byte of the split argument is `'\0'`. -/
theorem splitArg_no_nul (b k : Nat) : ∀ c ∈ splitArg b k, c ≠ 0 := by
  intro c hc h0
  subst h0
  rcases List.mem_append.1 hc with hc | hc
  · simpa [isDigit] using decimal_isDigit b 0 hc
  · rcases List.mem_cons.1 hc with hc | hc
    · exact absurd hc (by decide)
    · simpa [isDigit] using decimal_isDigit k 0 hc

/-- The split argument as the C string `main` passes on. -/
def splitStr (b k : Nat) : CStr := ⟨splitArg b k, splitArg_no_nul b k⟩

end Harry
