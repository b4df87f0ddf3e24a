/-
`str_delim_set` (str.c): the delimiter specification a user passes
(`-d`) becomes the 256-entry table `delim` the tokenizer reads.

# What the loop stores

The model returns the indices the loop stores a `1` at, in order, after
the `memset` that clears the table (`DelimOutcome.written`); an empty
spec takes the `str_delim_reset` path instead. Two conversions decide
the indices:

- a literal byte is stored at `(unsigned int) s[i]`, its signed `char`
  value converted to 32 bits (`charIndex`): from `0x80` on that is
  `2^32 - 256` past the byte, far outside the table;
- an escape `%HH` is stored at the `j` that `sscanf(buf, "%x", &j)` left,
  `buf` being `"0x"` and the two bytes after the `%`. `scanHex` reads it
  by the C standard (C11 7.21.6.2): the input item is the longest prefix
  of a matching sequence, the hex run after the prefix, and with no hex
  digit it is `"0x"`, which does not match: a matching failure, `j` not
  assigned. `j` is never initialised, so a first escape that fails stores
  at an index the program never chose (`none`); a later one stores at the
  previous `j`.

The standard's reading is the one modelled, not a particular libc's:
glibc and musl instead take the `0` of `"0x"` as the number and assign
`j = 0`, so under them a failing escape stores at 0, inside the table.
Only specs with an escape whose first byte is not a hex digit tell the
two apart: the `"%zz"` half of `str_delim_set_out_of_table`, and the runs
of `DelimTable` that such a spec stops. Every other result holds under
both.

# The truncation test

`strlen(s) - i < 2` skips a `%` only when it is the last byte; a `%`
followed by one byte reads that byte and the terminating NUL into `buf`,
and `"0xH"` converts to `H` (`str_delim_set_trailing_digit`).

# Specs read as written

For ASCII specs made of literals, complete `%HH` escapes and at most a
lone `%` at the end (`Plain`), every store lands in the table and the
table holds exactly the bytes the spec names (`str_delim_set_plain`).
-/
import Harry.CString

namespace Harry

-- ================================================== sscanf's "%x" on buf

/-- The value of a hex digit, `none` for any other byte. -/
def hexDigit (c : UInt8) : Option Nat :=
  if 48 ≤ c.toNat ∧ c.toNat ≤ 57 then some (c.toNat - 48)
  else if 65 ≤ c.toNat ∧ c.toNat ≤ 70 then some (c.toNat - 55)
  else if 97 ≤ c.toNat ∧ c.toNat ≤ 102 then some (c.toNat - 87)
  else none

/-- `sscanf(buf, "%x", &j)` with `buf = "0x" a b`, as the C standard reads
it: the hex run after the prefix, `none` (a matching failure, `j`
untouched) if it is empty. glibc and musl assign `j = 0` there. -/
def scanHex (a b : UInt8) : Option Nat :=
  match hexDigit a, hexDigit b with
  | some x, some y => some (16 * x + y)
  | some x, none => some x
  | none, _ => none

-- ======================================================= str_delim_set

/-- `(unsigned int) s[i]`: the byte read as a signed `char`, converted to
`unsigned int`. -/
def charIndex (c : UInt8) : Nat := if c.toNat < 128 then c.toNat else c.toNat + 2 ^ 32 - 256

/-- The loop `for (i = 0; i < strlen(s); i++)` from pass `i` with `j` as
the last `sscanf` left it (`none`: never assigned): the indices stored
to, in order. `s.getD i 0` is `s[i]`, the terminator included; `fuel`
bounds the passes. -/
def delimLoop (s : List UInt8) : Nat → Nat → Option Nat → List (Option Nat)
  | 0, _, _ => []
  | fuel + 1, i, j =>
    if i < s.length then
      if s.getD i 0 ≠ 37 then some (charIndex (s.getD i 0)) :: delimLoop s fuel (i + 1) j
      else if s.length - i < 2 then []
      else
        let j' := (scanHex (s.getD (i + 1) 0) (s.getD (i + 2) 0)).or j
        j' :: delimLoop s fuel (i + 3) j'
    else []

/-- What `str_delim_set` leaves in `delim`. -/
inductive DelimOutcome
  /-- The empty spec: `str_delim_reset` marks the table uninitialised. -/
  | reset
  /-- The table cleared, then set to `1` at these indices in order. -/
  | written (idx : List (Option Nat))
  deriving DecidableEq, Repr

/-- `str_delim_set(s)`. -/
def str_delim_set (s : CStr) : DelimOutcome :=
  if s.bytes.length = 0 then .reset else .written (delimLoop s.bytes s.bytes.length 0 none)

/-- The table after the stores, when each of them lands in it. -/
def delimTable (idx : List (Option Nat)) (b : UInt8) : Bool := idx.contains (some b.toNat)

/-- A literal `0x80` is stored at `4294967168`, and, by the C standard's
reading of `sscanf`, a first escape `%zz` at a `j` never assigned. -/
theorem str_delim_set_out_of_table :
    str_delim_set ⟨[0x80], by decide⟩ = .written [some 4294967168] ∧
      str_delim_set ⟨ascii "%zz", by decide⟩ = .written [none] :=
  ⟨by rfl, by rfl⟩

-- ======================================================= the spec's reading

/-- The value of an escape digit. -/
def hexVal (c : UInt8) : Nat := (hexDigit c).getD 0

/-- The bytes a spec names, read as the delimiter-specification sentence
reads it: literal bytes, `%HH` escapes, a truncated escape at the end
dropped. -/
def specDelims : List UInt8 → List Nat
  | [] => []
  | c :: rest =>
    if c = 37 then
      match rest with
      | a :: b :: rest' => (16 * hexVal a + hexVal b) :: specDelims rest'
      | _ => []
    else c.toNat :: specDelims rest

theorem specDelims_literal {c : UInt8} (hc : c ≠ 37) (rest : List UInt8) :
    specDelims (c :: rest) = c.toNat :: specDelims rest := by
  rcases rest with _ | ⟨a, _ | ⟨b, rest⟩⟩ <;> simp [specDelims, hc]

theorem specDelims_escape (a b : UInt8) (rest : List UInt8) :
    specDelims (37 :: a :: b :: rest) = (16 * hexVal a + hexVal b) :: specDelims rest := by
  simp [specDelims]

/-- Every `%` begins a complete escape or is one of the last two bytes. -/
def escaped : List UInt8 → Bool
  | [] => true
  | c :: rest =>
    if c = 37 then
      match rest with
      | a :: b :: rest' => (hexDigit a).isSome && (hexDigit b).isSome && escaped rest'
      | _ => true
    else escaped rest

/-- A `%` and one hex digit at the end: the spec drops it, the code flags
the digit's value. -/
theorem str_delim_set_trailing_digit :
    escaped (ascii "%A") = true ∧ specDelims (ascii "%A") = [] ∧
      str_delim_set ⟨ascii "%A", by decide⟩ = .written [some 10] :=
  ⟨by rfl, by rfl, by rfl⟩

/-- The specs the code reads as written: ASCII literals, complete `%HH`
escapes, and at most a lone `%` at the end. -/
inductive Plain : List UInt8 → Prop
  | nil : Plain []
  | percent : Plain [37]
  | literal {c : UInt8} {rest : List UInt8} : c ≠ 37 → c.toNat < 128 → Plain rest → Plain (c :: rest)
  | escape {a b : UInt8} {rest : List UInt8} :
      hexDigit a ≠ none → hexDigit b ≠ none → Plain rest → Plain (37 :: a :: b :: rest)

theorem scanHex_of_hex {a b : UInt8} (ha : hexDigit a ≠ none) (hb : hexDigit b ≠ none) :
    scanHex a b = some (16 * hexVal a + hexVal b) := by
  obtain ⟨x, hx⟩ := Option.ne_none_iff_exists'.1 ha
  obtain ⟨y, hy⟩ := Option.ne_none_iff_exists'.1 hb
  simp [scanHex, hexVal, hx, hy]

theorem getD_of_drop_eq_cons {s : List UInt8} {i : Nat} {c : UInt8} {rest : List UInt8}
    (h : s.drop i = c :: rest) : i < s.length ∧ s.getD i 0 = c ∧ s.drop (i + 1) = rest := by
  have hi : i < s.length := by
    by_contra hi
    rw [List.drop_of_length_le (by omega)] at h
    exact List.noConfusion h
  rw [List.drop_eq_getElem_cons hi] at h
  obtain ⟨hc, hrest⟩ := List.cons.inj h
  exact ⟨hi, by rw [List.getD_eq_getElem?_getD, List.getElem?_eq_getElem hi, Option.getD_some, hc], hrest⟩

/-- From a pass whose unread bytes are `Plain`, the loop stores exactly at
the bytes the spec names from there on. -/
theorem delimLoop_plain (s : List UInt8) {suffix : List UInt8} (hp : Plain suffix) :
    ∀ (fuel i : Nat) (j : Option Nat), s.drop i = suffix → s.length - i ≤ fuel →
      delimLoop s fuel i j = (specDelims suffix).map some := by
  induction hp with
  | nil =>
    intro fuel i j hdrop _
    cases fuel with
    | zero => rfl
    | succ fuel =>
      rw [delimLoop, if_neg (by rw [List.drop_eq_nil_iff] at hdrop; omega)]
      rfl
  | percent =>
    intro fuel i j hdrop hfuel
    obtain ⟨hi, hc, hrest⟩ := getD_of_drop_eq_cons hdrop
    have hlen : s.length = i + 1 := by
      have := congrArg List.length hrest
      rw [List.length_drop, List.length_nil] at this
      omega
    obtain ⟨fuel, rfl⟩ : ∃ f, fuel = f + 1 := ⟨fuel - 1, by omega⟩
    rw [delimLoop, if_pos hi, hc, if_neg (by decide), if_pos (by omega)]
    rfl
  | @literal c rest hc hlow _ ih =>
    intro fuel i j hdrop hfuel
    obtain ⟨hi, hci, hrest⟩ := getD_of_drop_eq_cons hdrop
    obtain ⟨fuel, rfl⟩ : ∃ f, fuel = f + 1 := ⟨fuel - 1, by omega⟩
    rw [delimLoop, if_pos hi, hci, if_pos hc, ih fuel (i + 1) j hrest (by omega),
      specDelims_literal hc, charIndex, if_pos hlow]
    rfl
  | @escape a b rest ha hb _ ih =>
    intro fuel i j hdrop hfuel
    obtain ⟨hi, hci, h₁⟩ := getD_of_drop_eq_cons hdrop
    obtain ⟨_, hai, h₂⟩ := getD_of_drop_eq_cons h₁
    obtain ⟨_, hbi, h₃⟩ := getD_of_drop_eq_cons h₂
    obtain ⟨fuel, rfl⟩ : ∃ f, fuel = f + 1 := ⟨fuel - 1, by omega⟩
    rw [delimLoop, if_pos hi, hci, if_neg (by decide), if_neg (by omega), hai, hbi,
      scanHex_of_hex ha hb]
    dsimp only
    rw [ih fuel (i + 3) _ h₃ (by omega), specDelims_escape]
    rfl

theorem hexVal_lt (c : UInt8) : hexVal c < 16 := by
  unfold hexVal hexDigit
  split_ifs <;> simp <;> omega

/-- A `Plain` spec names bytes only. -/
theorem specDelims_lt {l : List UInt8} (hp : Plain l) : ∀ n ∈ specDelims l, n < 256 := by
  induction hp with
  | nil => simp [specDelims]
  | percent => simp [specDelims]
  | literal hc hlow _ ih =>
    rw [specDelims_literal hc]
    exact List.forall_mem_cons.2 ⟨by omega, ih⟩
  | @escape a b _ _ _ _ ih =>
    have := hexVal_lt a
    have := hexVal_lt b
    rw [specDelims_escape]
    exact List.forall_mem_cons.2 ⟨by omega, ih⟩

/-- On a nonempty `Plain` spec every store lands in the table, and the
table flags exactly the bytes the spec names. -/
theorem str_delim_set_plain (s : CStr) (hp : Plain s.bytes) (hne : s.bytes ≠ []) :
    ∃ idx, str_delim_set s = .written idx ∧ (∀ k ∈ idx, ∃ n, k = some n ∧ n < 256) ∧
      ∀ b : UInt8, delimTable idx b = true ↔ b.toNat ∈ specDelims s.bytes := by
  refine ⟨(specDelims s.bytes).map some, ?_, ?_, fun b => by simp [delimTable]⟩
  · rw [str_delim_set, if_neg (mt List.length_eq_zero.1 hne),
      delimLoop_plain s.bytes hp s.bytes.length 0 none rfl (by omega)]
  · simp only [List.mem_map]
    rintro k ⟨n, hn, rfl⟩
    exact ⟨n, rfl, specDelims_lt hp n hn⟩

theorem str_delim_set_plain_tab :
    Plain (ascii " %09") ∧ ascii " %09" ≠ [] ∧
      ∃ idx, str_delim_set ⟨ascii " %09", by decide⟩ = .written idx ∧
        (∀ k ∈ idx, ∃ n, k = some n ∧ n < 256) ∧
        ∀ b : UInt8, delimTable idx b = true ↔ b.toNat ∈ specDelims (ascii " %09") :=
  have hp : Plain (ascii " %09") :=
    .literal (by decide) (by decide) (.escape (by decide) (by decide) .nil)
  ⟨hp, by decide, str_delim_set_plain ⟨ascii " %09", by decide⟩ hp (by decide)⟩

example : specDelims (ascii " %09") = [32, 9] := by rfl

end Harry
