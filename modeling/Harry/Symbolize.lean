/-
`str_symbolize` (str.c): a byte string becomes the sequence of its
words, each hashed to a 64-bit symbol by `hash_str` (murmur.h, not
part of the sources here, so a parameter).

# Two loops over one buffer

The first loop squeezes the buffer in place: a run of delimiter bytes
becomes one copy of the canonical delimiter `dlm` (the lowest flagged
byte), leading delimiters vanish, other bytes are copied down. It writes
at `j` while it reads at `i`, and `j ≤ i` throughout (`squeezeLoop_inv`),
so it never overwrites a byte it has yet to read: what it leaves below
`j` is the squeeze of the input read out of place (`squeezed`). The
second loop cuts the squeezed bytes at `dlm` and hashes each piece
(`wordsLoop_sym`, read against the list function `wordsOf`).

# The signed comparison

The second loop tests `x.str.c[i] == dlm`, a signed `char` against an
`int`. For `dlm < 0x80` that is the byte test; for `dlm ≥ 0x80` the
stored `(char) dlm` is negative and never equals `dlm`, so no piece is
ever cut and the whole squeezed buffer becomes one symbol
(`str_symbolize_high_delimiter`). With the canonical delimiter below
`0x80` (or no delimiter at all) the symbols are the hashes of the
maximal runs of non-delimiter bytes, in order (`str_symbolize_runs`).

# The symbol buffer

`sym` has room for `len/2 + 1` symbols; each symbol closes a nonempty
piece and all but the last consume a delimiter after it, so at most
`(len + 1)/2` are written (`str_symbolize_bounds`).
-/
import Harry.CString

namespace Harry

-- =============================================== the canonical delimiter

/-- `for (; !delim[(unsigned char) dlm] && dlm < 256; dlm++);` from
`dlm`, at most `fuel` passes. -/
def findDlm (D : UInt8 → Bool) : Nat → Nat → Nat
  | dlm, 0 => dlm
  | dlm, fuel + 1 => if !D (UInt8.ofNat dlm) && dlm < 256 then findDlm D (dlm + 1) fuel else dlm

/-- The canonical delimiter: the lowest flagged byte, 256 when none is. -/
def firstDelim (D : UInt8 → Bool) : Nat := findDlm D 0 256

theorem ofNat_toNat_byte (b : UInt8) : UInt8.ofNat b.toNat = b :=
  UInt8.ext (Nat.mod_eq_of_lt b.toNat_lt)

/-- The search from `dlm` with the fuel left to reach 256 stops at the
first flagged byte from `dlm` on, or at 256. -/
theorem findDlm_spec (D : UInt8 → Bool) :
    ∀ fuel dlm, dlm + fuel = 256 →
      dlm ≤ findDlm D dlm fuel ∧ findDlm D dlm fuel ≤ 256 ∧
      (∀ b : UInt8, dlm ≤ b.toNat → b.toNat < findDlm D dlm fuel → D b = false) ∧
      (findDlm D dlm fuel < 256 → D (UInt8.ofNat (findDlm D dlm fuel)) = true)
  | 0, dlm, h => ⟨le_rfl, by simp only [findDlm]; omega,
      fun b h₁ _ => absurd b.toNat_lt (by omega),
      fun h' => absurd h' (by simp only [findDlm]; omega)⟩
  | fuel + 1, dlm, h => by
    rw [findDlm]
    by_cases hD : D (UInt8.ofNat dlm) = true
    · rw [if_neg (by simp [hD])]
      exact ⟨le_rfl, by omega, fun _ h₁ h₂ => absurd h₂ (by omega), fun _ => hD⟩
    · rw [if_pos (by simp only [hD, Bool.not_false, Bool.true_and, decide_eq_true_eq]; omega)]
      obtain ⟨hle, hmax, hlow, hfound⟩ := findDlm_spec D fuel (dlm + 1) (by omega)
      refine ⟨by omega, hmax, fun b h₁ h₂ => ?_, hfound⟩
      rcases Nat.lt_or_ge dlm b.toNat with h₃ | h₃
      · exact hlow b h₃ h₂
      · rw [← ofNat_toNat_byte b, show b.toNat = dlm by omega]
        exact Bool.eq_false_iff.2 hD

/-- `dlm` is at most 256, no byte below it is flagged, and it is flagged
itself unless it is 256. -/
theorem firstDelim_spec (D : UInt8 → Bool) :
    firstDelim D ≤ 256 ∧ (∀ b : UInt8, b.toNat < firstDelim D → D b = false) ∧
      (firstDelim D < 256 → D (UInt8.ofNat (firstDelim D)) = true) :=
  let ⟨_, hmax, hlow, hfound⟩ := findDlm_spec D 256 0 rfl
  ⟨hmax, fun b => hlow b (Nat.zero_le _), hfound⟩

-- ========================================================= the squeeze

/-- The squeeze loop's state: it reads at `i`, writes at `j`, both in the
byte buffer `c`. -/
structure Squeeze where
  i : Nat
  j : Nat
  c : List UInt8

/-- One pass of the body of `for (i = 0, j = 0; i < x.len; i++)`. -/
def squeezeStep (D : UInt8 → Bool) (dlm : Nat) (st : Squeeze) : Squeeze :=
  if D (st.c.getD st.i 0) then
    if st.j = 0 ∨ D (st.c.getD (st.j - 1) 0) then { st with i := st.i + 1 }
    else { i := st.i + 1, j := st.j + 1, c := st.c.set st.j (UInt8.ofNat dlm) }
  else { i := st.i + 1, j := st.j + 1, c := st.c.set st.j (st.c.getD st.i 0) }

/-- `n` passes of the squeeze loop. -/
def squeezeLoop (D : UInt8 → Bool) (dlm : Nat) : Nat → Squeeze → Squeeze
  | 0, st => st
  | n + 1, st => squeezeStep D dlm (squeezeLoop D dlm n st)

/-- The squeeze read out of place: what one more input byte appends. -/
def squeezePush (D : UInt8 → Bool) (d : UInt8) (out : List UInt8) (ch : UInt8) : List UInt8 :=
  if D ch then
    if out = [] ∨ D (out.getLast?.getD 0) then out else out ++ [d]
  else out ++ [ch]

/-- The squeeze of `x`: delimiter runs collapsed to one `d`, leading ones
dropped. -/
def squeezed (D : UInt8 → Bool) (d : UInt8) (x : List UInt8) : List UInt8 :=
  x.foldl (squeezePush D d) []

@[simp] theorem squeezed_append_singleton (D : UInt8 → Bool) (d : UInt8) (x : List UInt8) (ch : UInt8) :
    squeezed D d (x ++ [ch]) = squeezePush D d (squeezed D d x) ch := by
  simp only [squeezed, List.foldl_append, List.foldl_cons, List.foldl_nil]

theorem squeezePush_length_le (D : UInt8 → Bool) (d : UInt8) (out : List UInt8) (ch : UInt8) :
    (squeezePush D d out ch).length ≤ out.length + 1 := by
  unfold squeezePush
  split_ifs <;> simp

theorem squeezed_length_le (D : UInt8 → Bool) (d : UInt8) (x : List UInt8) :
    (squeezed D d x).length ≤ x.length := by
  induction x using List.reverseRecOn with
  | nil => rfl
  | append_singleton x ch ih =>
    rw [squeezed_append_singleton, List.length_append, List.length_singleton]
    exact (squeezePush_length_le D d _ ch).trans (by omega)

/-- The squeeze loop after `t` passes over `x`: the bytes below `j` are
the squeeze of the first `t` input bytes, and the bytes from `t` on are
still the input's. -/
structure SqueezeInv (D : UInt8 → Bool) (dlm : Nat) (x : List UInt8) (t : Nat) (st : Squeeze) :
    Prop where
  i_eq : st.i = t
  j_eq : st.j = (squeezed D (UInt8.ofNat dlm) (x.take t)).length
  length_eq : st.c.length = x.length
  written : ∀ k < st.j, st.c[k]? = (squeezed D (UInt8.ofNat dlm) (x.take t))[k]?
  unread : ∀ k, t ≤ k → st.c[k]? = x[k]?

namespace SqueezeInv

variable {D : UInt8 → Bool} {dlm : Nat} {x : List UInt8} {t : Nat} {st : Squeeze}

/-- The writer never passes the reader. -/
theorem j_le (h : SqueezeInv D dlm x t st) : st.j ≤ t := by
  have := squeezed_length_le D (UInt8.ofNat dlm) (x.take t)
  have := List.length_take_le t x
  rw [h.j_eq]
  omega

/-- The byte the pass reads is still the input's. -/
theorem read (h : SqueezeInv D dlm x t st) (ht : t < x.length) : st.c.getD st.i 0 = x[t] := by
  rw [h.i_eq, List.getD_eq_getElem?_getD, h.unread t le_rfl, List.getElem?_eq_getElem ht,
    Option.getD_some]

/-- The byte before the writer is the last one the squeeze produced. -/
theorem last (h : SqueezeInv D dlm x t st) (hj : 0 < st.j) :
    st.c.getD (st.j - 1) 0 = (squeezed D (UInt8.ofNat dlm) (x.take t)).getLast?.getD 0 := by
  rw [List.getD_eq_getElem?_getD, h.written _ (by omega), List.getLast?_eq_getElem?, ← h.j_eq]

/-- A pass that writes `b` at `j`. -/
theorem write (h : SqueezeInv D dlm x t st) (ht : t < x.length) {b : UInt8}
    (hb : squeezed D (UInt8.ofNat dlm) (x.take (t + 1)) =
      squeezed D (UInt8.ofNat dlm) (x.take t) ++ [b]) :
    SqueezeInv D dlm x (t + 1) ⟨st.i + 1, st.j + 1, st.c.set st.j b⟩ where
  i_eq := by rw [h.i_eq]
  j_eq := by rw [hb, List.length_append, h.j_eq, List.length_singleton]
  length_eq := by rw [List.length_set, h.length_eq]
  written k hk := by
    have hjc : st.j < st.c.length := by have := h.j_le; rw [h.length_eq]; omega
    rw [hb]
    rcases Nat.lt_succ_iff_lt_or_eq.1 hk with hk | rfl
    · rw [List.getElem?_set_ne (by omega), h.written k hk,
        List.getElem?_append_left (by rw [← h.j_eq]; exact hk)]
    · rw [List.getElem?_set_self hjc, List.getElem?_append_right (by rw [h.j_eq]),
        ← h.j_eq, Nat.sub_self]
      rfl
  unread k hk := by
    have := h.j_le
    rw [List.getElem?_set_ne (by omega), h.unread k (by omega)]

/-- A pass that writes nothing. -/
theorem skip (h : SqueezeInv D dlm x t st)
    (hb : squeezed D (UInt8.ofNat dlm) (x.take (t + 1)) = squeezed D (UInt8.ofNat dlm) (x.take t)) :
    SqueezeInv D dlm x (t + 1) ⟨st.i + 1, st.j, st.c⟩ where
  i_eq := by rw [h.i_eq]
  j_eq := by rw [hb, h.j_eq]
  length_eq := h.length_eq
  written k hk := by rw [hb]; exact h.written k hk
  unread k hk := h.unread k (by omega)

end SqueezeInv

/-- One pass of the squeeze keeps its invariant. -/
theorem squeezeStep_inv {D : UInt8 → Bool} {dlm : Nat} {x : List UInt8} {t : Nat} {st : Squeeze}
    (h : SqueezeInv D dlm x t st) (ht : t < x.length) :
    SqueezeInv D dlm x (t + 1) (squeezeStep D dlm st) := by
  have hpush : squeezed D (UInt8.ofNat dlm) (x.take (t + 1)) =
      squeezePush D (UInt8.ofNat dlm) (squeezed D (UInt8.ofNat dlm) (x.take t)) x[t] := by
    rw [← List.take_concat_get' _ _ ht, squeezed_append_singleton]
  have hcond : (st.j = 0 ∨ D (st.c.getD (st.j - 1) 0) = true) ↔
      (squeezed D (UInt8.ofNat dlm) (x.take t) = [] ∨
        D ((squeezed D (UInt8.ofNat dlm) (x.take t)).getLast?.getD 0) = true) := by
    rw [← List.length_eq_zero, ← h.j_eq]
    rcases Nat.eq_zero_or_pos st.j with h0 | h0
    · simp only [h0, true_or]
    · rw [h.last h0]
  unfold squeezeStep
  unfold squeezePush at hpush
  rw [h.read ht]
  by_cases hD : D x[t]
  · by_cases hskip : st.j = 0 ∨ D (st.c.getD (st.j - 1) 0)
    · rw [if_pos hD, if_pos hskip]
      exact h.skip (by rw [hpush, if_pos hD, if_pos (hcond.1 hskip)])
    · rw [if_pos hD, if_neg hskip]
      exact h.write ht (by rw [hpush, if_pos hD, if_neg (mt hcond.2 hskip)])
  · rw [if_neg hD]
    exact h.write ht (by rw [hpush, if_neg hD])

/-- The squeeze loop's invariant holds after every number of passes up to
the length. -/
theorem squeezeLoop_inv (D : UInt8 → Bool) (dlm : Nat) (x : List UInt8) :
    ∀ t ≤ x.length, SqueezeInv D dlm x t (squeezeLoop D dlm t ⟨0, 0, x⟩)
  | 0, _ => ⟨rfl, rfl, rfl, fun _ hk => absurd hk (Nat.not_lt_zero _), fun _ _ => rfl⟩
  | t + 1, ht => squeezeStep_inv (squeezeLoop_inv D dlm x t (by omega)) ht

-- ======================================================= the word cut

/-- `x.str.c[i] == dlm`: the byte read as a signed `char`, promoted to
`int` and compared with the `int` delimiter. -/
def charIs (ch : UInt8) (dlm : Nat) : Bool :=
  (if ch.toNat < 128 then (ch.toNat : Int) else ch.toNat - 256) == (dlm : Int)

/-- Below `0x80` the signed test is the byte test. -/
theorem charIs_low {dlm : Nat} (hdlm : dlm < 128) (ch : UInt8) :
    charIs ch dlm = true ↔ ch = UInt8.ofNat dlm := by
  have hto : ch = UInt8.ofNat dlm ↔ ch.toNat = dlm := by
    constructor
    · rintro rfl; exact Nat.mod_eq_of_lt (by omega)
    · intro h; rw [← h, ofNat_toNat_byte]
  have := ch.toNat_lt
  rw [hto]
  unfold charIs
  split_ifs <;> simp only [beq_iff_eq] <;> omega

/-- From `0x80` on the signed test never holds: a `char` is below `0x80`. -/
theorem charIs_high {dlm : Nat} (hdlm : 128 ≤ dlm) (ch : UInt8) : charIs ch dlm = false := by
  have := ch.toNat_lt
  unfold charIs
  split_ifs <;> simp only [beq_eq_false_iff_ne, ne_eq] <;> omega

/-- The word loop's state: it reads at `i`, the open piece starts at
`wstart`, and `sym` holds the symbols emitted so far. -/
structure Words where
  i : Nat
  wstart : Nat
  sym : List UInt64

/-- One pass of the body of `for (wstart = i = 0; i < j + 1; i++)` over the
buffer `buf` squeezed to length `j`. -/
def wordsStep (hash : List UInt8 → UInt64) (buf : List UInt8) (j dlm : Nat) (st : Words) : Words :=
  if (st.i = j ∨ charIs (buf.getD st.i 0) dlm = true) ∧ st.i - st.wstart > 0 then
    ⟨st.i + 1, st.i + 1, st.sym ++ [hash ((buf.drop st.wstart).take (st.i - st.wstart))]⟩
  else { st with i := st.i + 1 }

/-- `n` passes of the word loop. -/
def wordsLoop (hash : List UInt8 → UInt64) (buf : List UInt8) (j dlm : Nat) :
    Nat → Words → Words
  | 0, st => st
  | n + 1, st => wordsStep hash buf j dlm (wordsLoop hash buf j dlm n st)

/-- The word cut read as a fold: the open piece and the closed pieces. A
separator closes a nonempty open piece; any other byte, and a separator
met with nothing open, joins the open piece. -/
def wordPush (sep : UInt8 → Bool) (st : List UInt8 × List (List UInt8)) (ch : UInt8) :
    List UInt8 × List (List UInt8) :=
  if sep ch = true ∧ st.1 ≠ [] then ([], st.2 ++ [st.1]) else (st.1 ++ [ch], st.2)

/-- The fold of `wordPush` over `l` from nothing open. -/
def wordsFold (sep : UInt8 → Bool) (l : List UInt8) : List UInt8 × List (List UInt8) :=
  l.foldl (wordPush sep) ([], [])

/-- The pieces of a cut state: the closed ones, then the open one if
nonempty. -/
def closeOpen (st : List UInt8 × List (List UInt8)) : List (List UInt8) :=
  if st.1 = [] then st.2 else st.2 ++ [st.1]

/-- The pieces of `l` cut at `sep`. -/
def wordsOf (sep : UInt8 → Bool) (l : List UInt8) : List (List UInt8) :=
  closeOpen (wordsFold sep l)

@[simp] theorem wordsFold_append_singleton (sep : UInt8 → Bool) (l : List UInt8) (ch : UInt8) :
    wordsFold sep (l ++ [ch]) = wordPush sep (wordsFold sep l) ch := by
  simp only [wordsFold, List.foldl_append, List.foldl_cons, List.foldl_nil]

/-- Every closed piece cost at least two bytes (itself and its separator)
and the open piece one byte each. -/
theorem wordsFold_length (sep : UInt8 → Bool) (l : List UInt8) :
    2 * (wordsFold sep l).2.length + (wordsFold sep l).1.length ≤ l.length := by
  induction l using List.reverseRecOn with
  | nil => simp [wordsFold]
  | append_singleton l ch ih =>
    rw [wordsFold_append_singleton, List.length_append, List.length_singleton]
    unfold wordPush
    split_ifs with h
    · have := List.length_pos.2 h.2
      simp only [List.length_append, List.length_singleton, List.length_nil]
      omega
    · simp only [List.length_append, List.length_singleton]
      omega

/-- At most `(|l| + 1) / 2` pieces: the buffer bound of `str_symbolize`. -/
theorem wordsOf_length (sep : UInt8 → Bool) (l : List UInt8) :
    2 * (wordsOf sep l).length ≤ l.length + 1 := by
  have := wordsFold_length sep l
  unfold wordsOf closeOpen
  split_ifs with h
  · omega
  · have := List.length_pos.2 h
    rw [List.length_append, List.length_singleton]
    omega

/-- The word loop after `i` passes over `buf` (with `i ≤ j ≤ |buf|`): the open
piece is `buf[wstart, i)` and the emitted symbols hash the closed pieces of
the fold over `buf[0, i)`. -/
structure WordsInv (hash : List UInt8 → UInt64) (sep : UInt8 → Bool) (buf : List UInt8) (i : Nat)
    (st : Words) : Prop where
  i_eq : st.i = i
  wstart_le : st.wstart ≤ i
  open_eq : (wordsFold sep (buf.take i)).1 = (buf.drop st.wstart).take (i - st.wstart)
  sym_eq : st.sym = (wordsFold sep (buf.take i)).2.map hash

namespace WordsInv

variable {hash : List UInt8 → UInt64} {buf : List UInt8} {j dlm i : Nat} {st : Words}

theorem open_length (h : WordsInv hash (charIs · dlm) buf i st) (hi : i ≤ buf.length) :
    (wordsFold (charIs · dlm) (buf.take i)).1.length = i - st.wstart := by
  rw [h.open_eq, List.length_take, List.length_drop]
  omega

/-- A pass over a byte before the end of the squeezed buffer. -/
theorem step (h : WordsInv hash (charIs · dlm) buf i st) (hi : i < j) (hj : j ≤ buf.length) :
    WordsInv hash (charIs · dlm) buf (i + 1) (wordsStep hash buf j dlm st) := by
  have hlen := h.open_length (by omega)
  obtain ⟨rfl, hw, hopen, hsym⟩ := h
  have hic : st.i < buf.length := by omega
  have hfold : wordsFold (charIs · dlm) (buf.take (st.i + 1)) =
      wordPush (charIs · dlm) (wordsFold (charIs · dlm) (buf.take st.i)) buf[st.i] := by
    rw [← List.take_concat_get' _ _ hic, wordsFold_append_singleton]
  have hread : buf.getD st.i 0 = buf[st.i] := by
    rw [List.getD_eq_getElem?_getD, List.getElem?_eq_getElem hic, Option.getD_some]
  unfold wordsStep
  rw [hread]
  by_cases hcut : charIs buf[st.i] dlm = true ∧ (wordsFold (charIs · dlm) (buf.take st.i)).1 ≠ []
  · have hpos : st.i - st.wstart > 0 := hlen ▸ List.length_pos.2 hcut.2
    rw [if_pos ⟨Or.inr hcut.1, hpos⟩]
    refine ⟨rfl, le_rfl, ?_, ?_⟩
    · rw [hfold, wordPush, if_pos hcut, Nat.sub_self, List.take_zero]
    · rw [hfold, wordPush, if_pos hcut, hsym, List.map_append, List.map_singleton, hopen]
  · have hne : ¬((st.i = j ∨ charIs buf[st.i] dlm = true) ∧ st.i - st.wstart > 0) := by
      rintro ⟨hd | hd, hpos⟩
      · omega
      · exact hcut ⟨hd, List.length_pos.1 (hlen ▸ hpos)⟩
    rw [if_neg hne]
    refine ⟨rfl, by dsimp only; omega, ?_, by rw [hfold, wordPush, if_neg hcut]; exact hsym⟩
    dsimp only
    rw [hfold, wordPush, if_neg hcut, hopen, show st.i + 1 - st.wstart = (st.i - st.wstart) + 1 by omega,
      ← List.take_concat_get' _ _ (by rw [List.length_drop]; omega), List.getElem_drop]
    simp only [Nat.add_sub_cancel' hw]

/-- The last pass, at `i = j`, closes the open piece if it is nonempty. -/
theorem finish (h : WordsInv hash (charIs · dlm) buf j st) (hj : j ≤ buf.length) :
    (wordsStep hash buf j dlm st).sym = (wordsOf (charIs · dlm) (buf.take j)).map hash := by
  have hlen := h.open_length hj
  obtain ⟨rfl, hw, hopen, hsym⟩ := h
  unfold wordsStep wordsOf closeOpen
  by_cases hpos : st.i - st.wstart > 0
  · rw [if_pos ⟨Or.inl rfl, hpos⟩, if_neg (List.length_pos.1 (hlen ▸ hpos)), hsym,
      List.map_append, List.map_singleton, hopen]
  · rw [if_neg (fun h => hpos h.2), if_pos (List.length_eq_zero.1 (by omega)), hsym]

end WordsInv

/-- The word loop's invariant after every number of passes up to `j`. -/
theorem wordsLoop_inv (hash : List UInt8 → UInt64) {buf : List UInt8} {j : Nat} (dlm : Nat)
    (hj : j ≤ buf.length) :
    ∀ i ≤ j, WordsInv hash (charIs · dlm) buf i (wordsLoop hash buf j dlm i ⟨0, 0, []⟩)
  | 0, _ => ⟨rfl, le_rfl, rfl, rfl⟩
  | i + 1, hi => (wordsLoop_inv hash dlm hj i (by omega)).step (by omega) hj

/-- The `j + 1` passes of the word loop hash the pieces of `buf[0, j)`. -/
theorem wordsLoop_sym (hash : List UInt8 → UInt64) {buf : List UInt8} {j : Nat} (dlm : Nat)
    (hj : j ≤ buf.length) :
    (wordsLoop hash buf j dlm (j + 1) ⟨0, 0, []⟩).sym = (wordsOf (charIs · dlm) (buf.take j)).map hash :=
  (wordsLoop_inv hash dlm hj j le_rfl).finish hj

-- ======================================================= str_symbolize

/-- `str_symbolize`: find the canonical delimiter, squeeze, cut and hash;
the result is the symbol array, its length the new `x.len`. -/
def str_symbolize (hash : List UInt8 → UInt64) (D : UInt8 → Bool) (x : List UInt8) : List UInt64 :=
  let dlm := firstDelim D
  let sq := squeezeLoop D dlm x.length ⟨0, 0, x⟩
  (wordsLoop hash sq.c sq.j dlm (sq.j + 1) ⟨0, 0, []⟩).sym

/-- What the squeeze leaves below `j` is the out-of-place squeeze. -/
theorem SqueezeInv.take_eq {D : UInt8 → Bool} {dlm : Nat} {x : List UInt8} {t : Nat} {st : Squeeze}
    (h : SqueezeInv D dlm x t st) : st.c.take st.j = squeezed D (UInt8.ofNat dlm) (x.take t) :=
  List.ext_getElem? fun k => by
    rw [List.getElem?_take]
    split_ifs with hk
    · exact h.written k hk
    · exact (List.getElem?_eq_none (by rw [← h.j_eq]; omega)).symm

/-- `str_symbolize` is the cut of the out-of-place squeeze, hashed. -/
theorem str_symbolize_eq (hash : List UInt8 → UInt64) (D : UInt8 → Bool) (x : List UInt8) :
    str_symbolize hash D x =
      (wordsOf (charIs · (firstDelim D)) (squeezed D (UInt8.ofNat (firstDelim D)) x)).map hash := by
  have h := squeezeLoop_inv D (firstDelim D) x x.length le_rfl
  have hj : (squeezeLoop D (firstDelim D) x.length ⟨0, 0, x⟩).j ≤
      (squeezeLoop D (firstDelim D) x.length ⟨0, 0, x⟩).c.length := by
    rw [h.length_eq]; exact h.j_le
  rw [str_symbolize, wordsLoop_sym hash _ hj, h.take_eq, List.take_length]

/-- The in-place squeeze writes at `j ≤ i` on every pass, so it never
overwrites a byte it has yet to read, and the word loop emits at most
`len/2 + 1` symbols, the room `sym` was allocated with. -/
theorem str_symbolize_bounds (hash : List UInt8 → UInt64) (D : UInt8 → Bool) (x : List UInt8) :
    (∀ t < x.length, (squeezeLoop D (firstDelim D) t ⟨0, 0, x⟩).i = t ∧
      (squeezeLoop D (firstDelim D) t ⟨0, 0, x⟩).j ≤ (squeezeLoop D (firstDelim D) t ⟨0, 0, x⟩).i) ∧
    (str_symbolize hash D x).length ≤ x.length / 2 + 1 := by
  refine ⟨fun t ht => ?_, ?_⟩
  · have h := squeezeLoop_inv D (firstDelim D) x t ht.le
    exact ⟨h.i_eq, by rw [h.i_eq]; exact h.j_le⟩
  · have := wordsOf_length (charIs · (firstDelim D)) (squeezed D (UInt8.ofNat (firstDelim D)) x)
    have := squeezed_length_le D (UInt8.ofNat (firstDelim D)) x
    rw [str_symbolize_eq, List.length_map]
    omega

example : (str_symbolize (fun l => UInt64.ofNat l.length) (· == 32) [97, 32, 98]).length =
    [97, 32, 98].length / 2 + 1 := by rfl

-- ============================================================ the runs

/-- What `str_symbolize` is for: the maximal nonempty runs of bytes `D`
does not flag, in order. -/
def runs (D : UInt8 → Bool) (x : List UInt8) : List (List UInt8) :=
  (x.splitOnP D).filter (· ≠ [])

/-- The runs read as a fold: a flagged byte closes the open run, if any. -/
def runPush (D : UInt8 → Bool) (st : List UInt8 × List (List UInt8)) (ch : UInt8) :
    List UInt8 × List (List UInt8) :=
  if D ch = true then (if st.1 = [] then ([], st.2) else ([], st.2 ++ [st.1])) else (st.1 ++ [ch], st.2)

theorem modifyHead_nil_append (l : List (List UInt8)) : List.modifyHead ([] ++ ·) l = l := by
  cases l <;> rfl

theorem closeOpen_foldl_runPush (D : UInt8 → Bool) :
    ∀ (l cur : List UInt8) (ws : List (List UInt8)),
      closeOpen (l.foldl (runPush D) (cur, ws)) =
        ws ++ (List.modifyHead (cur ++ ·) (l.splitOnP D)).filter (· ≠ [])
  | [], cur, ws => by
    by_cases h : cur = [] <;> simp [closeOpen, h]
  | ch :: l, cur, ws => by
    rw [List.foldl_cons, List.splitOnP_cons, runPush]
    by_cases hD : D ch = true
    · rw [if_pos hD, if_pos hD]
      by_cases h : cur = [] <;>
        simp only [h, if_true, if_false, closeOpen_foldl_runPush D l [], modifyHead_nil_append] <;>
        simp [h]
    · rw [if_neg hD, if_neg hD, closeOpen_foldl_runPush D l, List.modifyHead_modifyHead]
      congr 3
      funext w
      simp

theorem runs_eq_foldl (D : UInt8 → Bool) (x : List UInt8) :
    runs D x = closeOpen (x.foldl (runPush D) ([], [])) := by
  rw [closeOpen_foldl_runPush, runs, List.nil_append, modifyHead_nil_append]

/-- The squeeze then the cut at `sep` is the run fold, provided `sep`
holds of no unflagged byte and the canonical byte `d` is flagged and cut
at whenever some byte is flagged. The squeeze leaves a nonempty open run
exactly when its last byte is unflagged. -/
theorem wordsFold_squeezed (D sep : UInt8 → Bool) (d : UInt8)
    (hnd : ∀ ch, D ch = false → sep ch = false) (hd : ∀ ch, D ch = true → sep d = true ∧ D d = true)
    (x : List UInt8) :
    wordsFold sep (squeezed D d x) = x.foldl (runPush D) ([], []) ∧
      ((x.foldl (runPush D) ([], [])).1 = [] ↔
        (squeezed D d x = [] ∨ D ((squeezed D d x).getLast?.getD 0) = true)) := by
  induction x using List.reverseRecOn with
  | nil => exact ⟨rfl, by simp [squeezed]⟩
  | append_singleton x ch ih =>
    obtain ⟨hW, hR⟩ := ih
    rw [squeezed_append_singleton, List.foldl_append, List.foldl_cons, List.foldl_nil]
    unfold squeezePush
    by_cases hD : D ch = true
    · by_cases hskip : squeezed D d x = [] ∨ D ((squeezed D d x).getLast?.getD 0) = true
      · have hopen := hR.2 hskip
        rw [if_pos hD, if_pos hskip, hW, runPush, if_pos hD, if_pos hopen]
        exact ⟨Prod.ext hopen rfl, ⟨fun _ => hskip, fun _ => rfl⟩⟩
      · have hopen := mt hR.1 hskip
        rw [if_pos hD, if_neg hskip, wordsFold_append_singleton, hW, runPush, wordPush,
          if_pos hD, if_neg hopen, if_pos ⟨(hd ch hD).1, hopen⟩]
        simp [(hd ch hD).2]
    · have hnD := Bool.eq_false_iff.2 hD
      rw [if_neg hD, wordsFold_append_singleton, hW, runPush, wordPush, if_neg hD,
        if_neg (by rw [hnd ch hnD]; simp)]
      simp [hnD]

theorem wordsFold_of_never {sep : UInt8 → Bool} (hsep : ∀ ch, sep ch = false) (l : List UInt8) :
    wordsFold sep l = (l, []) := by
  induction l using List.reverseRecOn with
  | nil => rfl
  | append_singleton l ch ih => rw [wordsFold_append_singleton, ih, wordPush, if_neg (by simp [hsep])]

/-- With the canonical delimiter below `0x80`, or none, the signed test
holds of the canonical byte and of no unflagged byte. -/
theorem charIs_sep_of_low (D : UInt8 → Bool) (hlow : firstDelim D < 128 ∨ firstDelim D = 256) :
    (∀ ch, D ch = false → charIs ch (firstDelim D) = false) ∧
      ∀ ch, D ch = true → charIs (UInt8.ofNat (firstDelim D)) (firstDelim D) = true ∧
        D (UInt8.ofNat (firstDelim D)) = true := by
  obtain ⟨hmax, hbelow, hflag⟩ := firstDelim_spec D
  rcases hlow with hlow | hnone
  · refine ⟨fun ch hch => ?_, fun _ _ => ⟨(charIs_low hlow _).2 rfl, hflag (by omega)⟩⟩
    rw [← Bool.not_eq_true, charIs_low hlow]
    rintro rfl
    rw [hflag (by omega)] at hch
    exact Bool.noConfusion hch
  · refine ⟨fun ch _ => charIs_high (by omega) ch, fun ch hch => ?_⟩
    have := ch.toNat_lt
    rw [hbelow ch (by omega)] at hch
    exact Bool.noConfusion hch

/-- Whenever the word loop's signed test separates exactly at the
canonical byte, the symbols are the hashes of the runs. -/
theorem str_symbolize_of_sep (hash : List UInt8 → UInt64) (D : UInt8 → Bool) (x : List UInt8)
    (hsep : (∀ ch, D ch = false → charIs ch (firstDelim D) = false) ∧
      ∀ ch, D ch = true → charIs (UInt8.ofNat (firstDelim D)) (firstDelim D) = true ∧
        D (UInt8.ofNat (firstDelim D)) = true) :
    str_symbolize hash D x = (runs D x).map hash := by
  rw [str_symbolize_eq, wordsOf, (wordsFold_squeezed D _ _ hsep.1 hsep.2 x).1, runs_eq_foldl]

/-- With the canonical delimiter below `0x80`, or none at all, the symbols
are the hashes of the runs, in order. -/
theorem str_symbolize_runs (hash : List UInt8 → UInt64) (D : UInt8 → Bool) (x : List UInt8)
    (hlow : firstDelim D < 128 ∨ firstDelim D = 256) :
    str_symbolize hash D x = (runs D x).map hash :=
  str_symbolize_of_sep hash D x (charIs_sep_of_low D hlow)

theorem str_symbolize_runs_space :
    (firstDelim (· == 32) < 128 ∨ firstDelim (· == 32) = 256) ∧
      str_symbolize (fun l => UInt64.ofNat l.length) (· == 32) [32, 97, 32, 32, 98, 98] =
        (runs (· == 32) [32, 97, 32, 32, 98, 98]).map (fun l => UInt64.ofNat l.length) :=
  ⟨Or.inl (by decide), str_symbolize_runs _ _ _ (Or.inl (by decide))⟩

/-- With the canonical delimiter at `0x80` or above no piece is ever cut:
the whole squeezed string, canonical delimiters included, is one symbol. -/
theorem str_symbolize_high_delimiter (hash : List UInt8 → UInt64) (D : UInt8 → Bool) (x : List UInt8)
    (hhigh : 128 ≤ firstDelim D) :
    str_symbolize hash D x =
      if squeezed D (UInt8.ofNat (firstDelim D)) x = [] then []
      else [hash (squeezed D (UInt8.ofNat (firstDelim D)) x)] := by
  rw [str_symbolize_eq, wordsOf, wordsFold_of_never (charIs_high hhigh), closeOpen]
  split_ifs <;> simp

theorem str_symbolize_high_delimiter_latin1 :
    128 ≤ firstDelim (· == 160) ∧
      str_symbolize (fun l => UInt64.ofNat l.length) (· == 160) [97, 160, 98] =
        [UInt64.ofNat 3] :=
  ⟨by decide, (str_symbolize_high_delimiter _ _ _ (by decide)).trans (by rfl)⟩

/-- A table flagging only `0x80`: the code makes one symbol of `a\x80b`,
whose runs are `a` and `b`. -/
theorem str_symbolize_merges_runs (hash : List UInt8 → UInt64) :
    str_symbolize hash (· == 128) [97, 128, 98] = [hash [97, 128, 98]] ∧
      runs (· == 128) [97, 128, 98] = [[97], [98]] := by
  have hdlm : firstDelim (· == 128) = 128 := by decide
  refine ⟨?_, by rfl⟩
  rw [str_symbolize_eq, hdlm, wordsOf, wordsFold_of_never (charIs_high le_rfl)]
  rfl

end Harry
