/-
The global delimiter table of str.c and the calls that write and read it:
`char delim[256] = { DELIM_NOT_INIT }`, `str_delim_set`,
`str_delim_reset`, `str_has_delim`, and `str_symbolize`, which reads the
table as the set of delimiter bytes.

# The table as state

`DelimTable` holds the 256 cells. `str_delim_set` with a nonempty spec
clears the table (`memset`) and stores a `1` at each index the loop of
`Delim.lean` produces; a store outside the table, or at an index `sscanf`
never assigned, is undefined behaviour, and the run stops there
(`none`). An empty spec and `str_delim_reset` write the sentinel
`DELIM_NOT_INIT` (str.h, not part of the sources here, so a parameter
`notInit`) to cell 0 only: every other cell keeps its flag.

# Whole runs

`str_has_delim` compares cell 0 with the sentinel. Over every run of
calls from the initial table that stays within the table, it holds
exactly when the last call was `str_delim_set` with a nonempty spec
(`delimRun_has_delim`), provided the sentinel is neither of the values a
set leaves in cell 0.

# Set, then tokenize

Whatever calls came before, `str_delim_set` with a `Plain` spec that names
an ASCII byte stays within the table and makes `str_symbolize` cut every
string at exactly the spec's bytes (`str_symbolize_after_delim_set`): the
table reading of `Delim.lean` and the tokenizer of `Symbolize.lean`,
composed through the global state.
-/
import Harry.Delim
import Harry.Symbolize

namespace Harry

-- ============================================================ the table

/-- The global `char delim[256]`, each cell as its byte. -/
structure DelimTable where
  cell : Fin 256 → UInt8

/-- `char delim[256] = { DELIM_NOT_INIT };` -/
def DelimTable.init (notInit : UInt8) : DelimTable := ⟨fun n => if n = 0 then notInit else 0⟩

/-- `memset(delim, 0, 256)`. -/
def DelimTable.cleared : DelimTable := ⟨fun _ => 0⟩

/-- `delim[n] = v`. -/
def DelimTable.store (t : DelimTable) (n : Fin 256) (v : UInt8) : DelimTable :=
  ⟨Function.update t.cell n v⟩

/-- The table as `str_symbolize` reads it: `delim[(unsigned char) b]` is
nonzero. -/
def DelimTable.flags (t : DelimTable) (b : UInt8) : Bool := t.cell ⟨b.toNat, b.toNat_lt⟩ != 0

/-- `str_has_delim()`. -/
def str_has_delim (notInit : UInt8) (t : DelimTable) : Bool := t.cell 0 != notInit

/-- `str_delim_reset()`. -/
def str_delim_reset (notInit : UInt8) (t : DelimTable) : DelimTable := t.store 0 notInit

/-- The stores `delim[n] = 1` of the loop of `str_delim_set`, in order;
`none` at the first one outside the table or at an index never assigned. -/
def storeOnes : List (Option Nat) → DelimTable → Option DelimTable
  | [], t => some t
  | some n :: idx, t => if h : n < 256 then storeOnes idx (t.store ⟨n, h⟩ 1) else none
  | none :: _, _ => none

/-- `str_delim_set(s)` on the global table: the outcome `str_delim_set`
computes, carried out. -/
def delimSet (notInit : UInt8) (s : CStr) (t : DelimTable) : Option DelimTable :=
  match str_delim_set s with
  | .reset => some (str_delim_reset notInit t)
  | .written idx => storeOnes idx DelimTable.cleared

/-- The stores leave a `1` where they wrote and the old cell elsewhere. -/
theorem storeOnes_cell : ∀ (idx : List (Option Nat)) {t t' : DelimTable},
    storeOnes idx t = some t' → ∀ n : Fin 256, t'.cell n = if some n.val ∈ idx then 1 else t.cell n
  | [], t, t', h, n => by cases h; simp
  | some m :: idx, t, t', h, n => by
    rw [storeOnes] at h
    split at h
    · rw [storeOnes_cell idx h n]
      simp only [DelimTable.store, Function.update_apply, List.mem_cons, Option.some.injEq, Fin.ext_iff]
      split_ifs <;> simp_all
    · cases h
  | none :: _, _, _, h, _ => by cases h

/-- Stores that all land in the table succeed. -/
theorem storeOnes_some : ∀ (l : List Nat), (∀ n ∈ l, n < 256) → ∀ t : DelimTable,
    ∃ t', storeOnes (l.map some) t = some t'
  | [], _, t => ⟨t, rfl⟩
  | n :: l, hl, t => by
    rw [List.map_cons, storeOnes, dif_pos (hl n (List.mem_cons_self n l))]
    exact storeOnes_some l (fun m hm => hl m (List.mem_cons_of_mem n hm)) _

-- ============================================================ the calls

/-- The calls that write the table. -/
inductive DelimCall where
  | set (s : CStr)
  | reset

/-- Whether a call leaves the table initialised: a set with a nonempty
spec. -/
def DelimCall.initialises : DelimCall → Bool
  | .set s => s.bytes.length != 0
  | .reset => false

def delimStep (notInit : UInt8) : DelimCall → DelimTable → Option DelimTable
  | .set s, t => delimSet notInit s t
  | .reset, t => some (str_delim_reset notInit t)

def delimRun (notInit : UInt8) : List DelimCall → DelimTable → Option DelimTable
  | [], t => some t
  | c :: cs, t => (delimStep notInit c t).bind (delimRun notInit cs)

theorem delimRun_append (notInit : UInt8) (cs cs' : List DelimCall) (t : DelimTable) :
    delimRun notInit (cs ++ cs') t = (delimRun notInit cs t).bind (delimRun notInit cs') := by
  induction cs generalizing t with
  | nil => rfl
  | cons c cs ih =>
    simp only [List.cons_append, delimRun]
    cases delimStep notInit c t <;> simp [ih]

-- ============================================================ whole runs

section Sentinel

variable {notInit : UInt8} (hni : notInit ≠ 0 ∧ notInit ≠ 1)
include hni

/-- One call decides `str_has_delim`: a nonempty set leaves `0` or `1` in
cell 0, a reset or an empty set the sentinel. -/
theorem delimStep_has_delim {c : DelimCall} {t t' : DelimTable}
    (h : delimStep notInit c t = some t') : str_has_delim notInit t' = c.initialises := by
  cases c with
  | reset =>
    cases h
    simp [str_has_delim, str_delim_reset, DelimTable.store, DelimCall.initialises]
  | set s =>
    simp only [delimStep, delimSet, str_delim_set] at h
    by_cases hs : s.bytes.length = 0
    · rw [if_pos hs] at h
      cases h
      simp [str_has_delim, str_delim_reset, DelimTable.store, DelimCall.initialises, hs]
    · rw [if_neg hs] at h
      have h0 := storeOnes_cell _ h 0
      simp only [DelimTable.cleared] at h0
      have hlen : (s.bytes.length != 0) = true := by simpa using hs
      simp only [str_has_delim, DelimCall.initialises, h0, hlen]
      split_ifs <;> simp [Ne.symm hni.1, Ne.symm hni.2]

/-- `str_has_delim` after a run is what the run's last call left, or what
the table held before the run when it is empty. -/
theorem delimRun_has_delim_from : ∀ (cs : List DelimCall) {t t' : DelimTable},
    delimRun notInit cs t = some t' →
    str_has_delim notInit t' = (cs.getLast?.map DelimCall.initialises).getD (str_has_delim notInit t)
  | [], t, t', h => by cases h; rfl
  | c :: cs, t, t', h => by
    obtain ⟨t₁, h₁, h₂⟩ := Option.bind_eq_some.1 h
    rw [delimRun_has_delim_from cs h₂, delimStep_has_delim hni h₁, Option.getD_map,
      List.getLast?_cons, Option.map_some', Option.getD_some]

/-- From the initial table, over every run that stays within the table,
`str_has_delim()` holds exactly when the last call was `str_delim_set`
with a nonempty spec. -/
theorem delimRun_has_delim (cs : List DelimCall) {t : DelimTable}
    (h : delimRun notInit cs (DelimTable.init notInit) = some t) :
    str_has_delim notInit t = (cs.getLast?.map DelimCall.initialises).getD false := by
  rw [delimRun_has_delim_from hni cs h]
  simp [str_has_delim, DelimTable.init]

end Sentinel

theorem delimRun_has_delim_reset :
    ∃ t, delimRun 42 [.set ⟨ascii " ", by decide⟩, .reset] (DelimTable.init 42) = some t ∧
      str_has_delim 42 t =
        (([.set ⟨ascii " ", by decide⟩, .reset] : List DelimCall).getLast?.map
          DelimCall.initialises).getD false :=
  ⟨_, rfl, delimRun_has_delim ⟨by decide, by decide⟩ _ rfl⟩

-- =================================================== set, then tokenize

/-- A `Plain` nonempty spec: the set stays within the table and flags
exactly the spec's bytes. -/
theorem delimSet_plain (notInit : UInt8) {s : CStr} (hp : Plain s.bytes) (hne : s.bytes ≠ [])
    (t : DelimTable) :
    ∃ t', delimSet notInit s t = some t' ∧ ∀ b, t'.flags b = decide (b.toNat ∈ specDelims s.bytes) := by
  have hidx : str_delim_set s = .written ((specDelims s.bytes).map some) := by
    rw [str_delim_set, if_neg (mt List.length_eq_zero.1 hne),
      delimLoop_plain s.bytes hp s.bytes.length 0 none rfl (by omega)]
  obtain ⟨t', ht'⟩ := storeOnes_some _ (specDelims_lt hp) DelimTable.cleared
  refine ⟨t', by rw [delimSet, hidx]; exact ht', fun b => ?_⟩
  rw [DelimTable.flags, storeOnes_cell _ ht']
  simp only [List.mem_map, Option.some.injEq, exists_eq_right, DelimTable.cleared]
  split_ifs <;> simp_all

/-- Whatever calls came before, `str_delim_set(s)` with a `Plain` spec
naming an ASCII byte stays within the table, and `str_symbolize` then
turns every string into the hashes of its maximal runs of bytes the spec
does not name. -/
theorem str_symbolize_after_delim_set {notInit : UInt8} {cs : List DelimCall} {t : DelimTable}
    (hrun : delimRun notInit cs (DelimTable.init notInit) = some t) {s : CStr}
    (hp : Plain s.bytes) (hne : s.bytes ≠ []) (hascii : ∃ n ∈ specDelims s.bytes, n < 128) :
    ∃ t', delimRun notInit (cs ++ [.set s]) (DelimTable.init notInit) = some t' ∧
      ∀ (hash : List UInt8 → UInt64) (x : List UInt8),
        str_symbolize hash t'.flags x =
          (runs (fun b => decide (b.toNat ∈ specDelims s.bytes)) x).map hash := by
  obtain ⟨t', hset, hflags⟩ := delimSet_plain notInit hp hne t
  have hlow : firstDelim t'.flags < 128 := by
    obtain ⟨n, hn, hn128⟩ := hascii
    obtain ⟨-, hbelow, -⟩ := firstDelim_spec t'.flags
    by_contra hge
    have hb : (UInt8.ofNat n).toNat = n := Nat.mod_eq_of_lt (by omega)
    have := hbelow (UInt8.ofNat n) (by omega)
    rw [hflags, hb] at this
    simp [hn] at this
  refine ⟨t', by rw [delimRun_append, hrun, Option.some_bind, delimRun, delimStep, hset]; rfl,
    fun hash x => ?_⟩
  rw [str_symbolize_of_sep hash _ x (charIs_sep_of_low _ (Or.inl hlow)), funext hflags]

theorem str_symbolize_after_delim_set_tab :
    delimRun 42 [] (DelimTable.init 42) = some (DelimTable.init 42) ∧ Plain (ascii " %09") ∧
      ascii " %09" ≠ [] ∧ (∃ n ∈ specDelims (ascii " %09"), n < 128) ∧
      ∃ t', delimRun 42 ([] ++ [.set ⟨ascii " %09", by decide⟩]) (DelimTable.init 42) = some t' ∧
        ∀ (hash : List UInt8 → UInt64) (x : List UInt8),
          str_symbolize hash t'.flags x =
            (runs (fun b => decide (b.toNat ∈ specDelims (ascii " %09"))) x).map hash :=
  have hp : Plain (ascii " %09") :=
    .literal (by decide) (by decide) (.escape (by decide) (by decide) .nil)
  have hn : ∃ n ∈ specDelims (ascii " %09"), n < 128 := ⟨32, by decide, by decide⟩
  ⟨rfl, hp, by decide, hn, @str_symbolize_after_delim_set 42 [] _ rfl ⟨ascii " %09", by decide⟩ hp
    (by decide) hn⟩

end Harry
