import Liblcb.Lib.Matching
import Mathlib.Data.List.Basic
import Mathlib.Data.BitVec

/-!
# Searching and comparing memory

The functions of `utils/mem_utils.h` and `utils/str2num.h` the parsers use.  A block of memory is
the list of its bytes, a pointer into it is an index.
-/

namespace Mem

abbrev Byte := BitVec 8

instance : LawfulBEq Byte := inferInstance

/-- The byte of a character. -/
def chr (c : Char) : Byte := BitVec.ofNat 8 c.toNat

/-- `mem_chr_off`, and `mem_chr_ptr` with the pointer as an offset. -/
def memChrOff (off : Nat) (buf : List Byte) (c : Byte) : Option Nat :=
  ((buf.drop off).idxOf? c).map (off + ·)

def memChr (buf : List Byte) (c : Byte) : Option Nat := buf.idxOf? c

def memRchr (buf : List Byte) (c : Byte) : Option Nat :=
  (buf.reverse.idxOf? c).map (buf.length - 1 - ·)

/-- `mem_rchr_off`: the search ends `off` bytes before the end. -/
def memRchrOff (off : Nat) (buf : List Byte) (c : Byte) : Option Nat :=
  if buf.length ≤ off then none else memRchr (buf.take (buf.length - off)) c

def memmem (pat : List Byte) : List Byte → Option Nat
  | [] => none
  | b :: buf => if pat.isPrefixOf (b :: buf) then some 0 else (memmem pat buf).map (· + 1)

/-- `mem_find_off` of a pattern that is not empty, and `mem_find_ptr` with the pointer as an
offset. -/
def memFindOff (off : Nat) (buf pat : List Byte) : Option Nat :=
  (memmem pat (buf.drop off)).map (off + ·)

/-- `mem_cmpn` finds no difference. -/
def memCmpn (buf1 buf2 : List Byte) : Bool := buf1 == buf2

/-- A byte with its letters in lower case. -/
def lower (b : Byte) : Byte := if 0x41#8 ≤ b ∧ b ≤ 0x5a#8 then b ||| 32#8 else b

/-- `mem_cmpin` finds no difference. -/
def memCmpin (buf1 buf2 : List Byte) : Bool := buf1.map lower == buf2.map lower

/-- One byte of `STR2NUM`: bytes that are no digits are skipped. -/
def str2numStep (res : BitVec 64) (b : Byte) : BitVec 64 :=
  if 9#8 < b - 0x30#8 then res else res * 10#64 + (b - 0x30#8).setWidth 64

def ustr2usize (str : List Byte) : BitVec 64 := str.foldl str2numStep 0

/-- `STR2NUM_SIGN`: is the sign negative after the leading signs? -/
def str2numSign : Bool → List Byte → Bool
  | neg, [] => neg
  | neg, b :: str =>
    if b = chr '-' then str2numSign true str
    else if b = chr '+' then str2numSign false str
    else neg

/-- `ustr2s64`: the arithmetic wraps. -/
def ustr2s64 (str : List Byte) : BitVec 64 :=
  if str2numSign false str then -(ustr2usize str) else ustr2usize str

theorem memCmpin_iff {a b : List Byte} : memCmpin a b = true ↔ a.map lower = b.map lower :=
  beq_iff_eq

theorem length_of_memCmpin {a b : List Byte} (h : memCmpin a b = true) : a.length = b.length := by
  have hmap := congrArg List.length (memCmpin_iff.mp h)
  rwa [List.length_map, List.length_map] at hmap

/-! ## Searching -/

theorem memChr_append {mid : List Byte} {c : Byte} (post : List Byte) (hmid : c ∉ mid) :
    memChr (mid ++ c :: post) c = some mid.length := by
  rw [memChr, List.idxOf?_eq_some_iff]
  refine ⟨by rw [List.length_append, List.length_cons]; omega, by simp, ?_⟩
  intro j hj
  rw [List.getElem_append_left hj]
  intro h
  exact hmid (h ▸ List.getElem_mem hj)

theorem memChr_none {buf : List Byte} {c : Byte} : memChr buf c = none ↔ c ∉ buf :=
  List.idxOf?_eq_none_iff

theorem append_chr_inj {a a' b b' : List Byte} {c : Byte} (ha : c ∉ a) (ha' : c ∉ a')
    (h : a ++ c :: b = a' ++ c :: b') : a = a' ∧ b = b' := by
  have hchr := congrArg (memChr · c) h
  rw [memChr_append b ha, memChr_append b' ha', Option.some.injEq] at hchr
  obtain ⟨hpre, hpost⟩ := List.append_inj h hchr
  exact ⟨hpre, (List.cons.inj hpost).2⟩

theorem memChrOff_append {pre mid post : List Byte} {c : Byte} {off : Nat}
    (hoff : off = pre.length) (hmid : c ∉ mid) :
    memChrOff off (pre ++ (mid ++ c :: post)) c = some (off + mid.length) := by
  rw [memChrOff, hoff, List.drop_left, ← memChr, memChr_append post hmid]
  rfl

theorem memChr_some {buf : List Byte} {c : Byte} {i : Nat} (h : memChr buf c = some i) :
    buf[i]? = some c ∧ c ∉ buf.take i := by
  rw [memChr, List.idxOf?_eq_some_iff] at h
  rcases h with ⟨hi, hc, hbefore⟩
  refine ⟨List.getElem?_eq_some_iff.mpr ⟨hi, hc⟩, ?_⟩
  intro hmem
  rw [List.mem_take_iff_getElem] at hmem
  rcases hmem with ⟨j, hj, hcj⟩
  exact hbefore j (by omega) hcj

theorem memRchr_append {post : List Byte} {c : Byte} (pre : List Byte) (hpost : c ∉ post) :
    memRchr (pre ++ c :: post) c = some pre.length := by
  have hrev : (pre ++ c :: post).reverse = post.reverse ++ c :: pre.reverse := by simp
  have hfirst := memChr_append pre.reverse (mt List.mem_reverse.mp hpost)
  rw [memRchr, hrev, ← memChr, hfirst, Option.map_some, List.length_append, List.length_cons,
    List.length_reverse]
  congr 1
  omega

theorem memRchr_none {buf : List Byte} {c : Byte} : memRchr buf c = none ↔ c ∉ buf := by
  rw [memRchr, Option.map_eq_none_iff, List.idxOf?_eq_none_iff, List.mem_reverse]

theorem memRchr_some {buf : List Byte} {c : Byte} {i : Nat} (h : memRchr buf c = some i) :
    ∃ pre post, buf = pre ++ c :: post ∧ pre.length = i ∧ c ∉ post := by
  have hmem : c ∈ buf.reverse := by
    rw [List.mem_reverse]
    by_contra hnot
    rw [memRchr_none.mpr hnot] at h
    cases h
  obtain ⟨post, pre, hsplit, hpost⟩ := List.eq_append_cons_of_mem hmem
  have hbuf : buf = pre.reverse ++ c :: post.reverse := by
    rw [← List.reverse_reverse buf, hsplit]
    simp
  have hnot : c ∉ post.reverse := mt List.mem_reverse.mp hpost
  rw [hbuf, memRchr_append _ hnot, Option.some.injEq] at h
  exact ⟨pre.reverse, post.reverse, hbuf, h, hnot⟩

theorem memChrOff_bounds {buf : List Byte} {c : Byte} {off i : Nat}
    (h : memChrOff off buf c = some i) : off ≤ i ∧ i < buf.length := by
  rw [memChrOff, Option.map_eq_some_iff] at h
  rcases h with ⟨j, hj, rfl⟩
  have hget := (memChr_some hj).1
  rw [List.getElem?_drop, List.getElem?_eq_some_iff] at hget
  exact ⟨Nat.le_add_right _ _, hget.1⟩

theorem memChrOff_eq_some {buf : List Byte} {c : Byte} {off i : Nat}
    (h : memChrOff off buf c = some i) :
    off ≤ i ∧ buf[i]? = some c ∧ ∀ k, off ≤ k → k < i → buf[k]? ≠ some c := by
  rw [memChrOff, Option.map_eq_some_iff] at h
  rcases h with ⟨j, hj, rfl⟩
  obtain ⟨hget, hbefore⟩ := memChr_some hj
  rw [List.getElem?_drop] at hget
  refine ⟨Nat.le_add_right _ _, hget, ?_⟩
  intro k hk hlt hc
  apply hbefore
  apply List.mem_of_getElem? (i := k - off)
  rw [List.getElem?_take_of_lt (by omega), List.getElem?_drop, Nat.add_sub_cancel' hk, hc]

theorem memChrOff_eq_none {buf : List Byte} {c : Byte} {off : Nat}
    (h : memChrOff off buf c = none) {k : Nat} (hk : off ≤ k) : buf[k]? ≠ some c := by
  rw [memChrOff, Option.map_eq_none_iff, List.idxOf?_eq_none_iff] at h
  intro hc
  apply h
  apply List.mem_of_getElem? (i := k - off)
  rw [List.getElem?_drop, Nat.add_sub_cancel' hk, hc]

theorem memChrOff_of_first {buf : List Byte} {c : Byte} {off i : Nat} (hle : off ≤ i)
    (hget : buf[i]? = some c) (hbefore : ∀ k, off ≤ k → k < i → buf[k]? ≠ some c) :
    memChrOff off buf c = some i := by
  cases hr : memChrOff off buf c with
  | none => exact absurd hget (memChrOff_eq_none hr hle)
  | some k =>
    obtain ⟨hk, hc, hbefore'⟩ := memChrOff_eq_some hr
    rcases Nat.lt_trichotomy i k with hlt | heq | hgt
    · exact absurd hget (hbefore' i hle hlt)
    · rw [heq]
    · exact absurd hc (hbefore k hk hgt)

theorem memChrOff_of_absent {buf : List Byte} {c : Byte} {off : Nat}
    (h : ∀ k, off ≤ k → buf[k]? ≠ some c) : memChrOff off buf c = none := by
  cases hr : memChrOff off buf c with
  | none => rfl
  | some k => exact absurd (memChrOff_eq_some hr).2.1 (h k (memChrOff_eq_some hr).1)

theorem memmem_eq_some {pat : List Byte} (hne : pat ≠ []) : ∀ {text : List Byte} {i : Nat},
    memmem pat text = some i ↔ Matching.First pat text i
  | [], i => by
    refine iff_of_false (fun h => by cases h) fun h => hne ?_
    have hpre := h.1
    rwa [List.drop_nil, List.prefix_nil] at hpre
  | b :: text, i => by
    rw [memmem]
    by_cases hpre : pat <+: b :: text
    · rw [if_pos (List.isPrefixOf_iff_prefix.mpr hpre)]
      constructor
      · intro h
        cases h
        exact ⟨hpre, fun k hk => absurd hk (Nat.not_lt_zero k)⟩
      · intro h
        cases i with
        | zero => rfl
        | succ i => exact absurd hpre (h.2 0 (Nat.succ_pos i))
    · rw [if_neg (fun h => hpre (List.isPrefixOf_iff_prefix.mp h)), Option.map_eq_some_iff]
      constructor
      · rintro ⟨j, hj, rfl⟩
        have hfirst := (memmem_eq_some hne).mp hj
        refine ⟨hfirst.1, fun k hk => ?_⟩
        cases k with
        | zero => exact hpre
        | succ k => exact hfirst.2 k (Nat.lt_of_succ_lt_succ hk)
      · intro h
        cases i with
        | zero => exact absurd h.1 hpre
        | succ i =>
          exact ⟨i, (memmem_eq_some hne).mpr ⟨h.1, fun k hk =>
            h.2 (k + 1) (Nat.succ_lt_succ hk)⟩, rfl⟩

theorem memmem_eq_none {pat : List Byte} (hne : pat ≠ []) {text : List Byte} :
    memmem pat text = none ↔ ∀ k, ¬ pat <+: text.drop k := by
  constructor
  · intro h k hpre
    have hex : ∃ k, pat <+: text.drop k := ⟨k, hpre⟩
    classical
    have hfirst : Matching.First pat text (Nat.find hex) :=
      ⟨Nat.find_spec hex, fun j hj => Nat.find_min hex hj⟩
    rw [(memmem_eq_some hne).mpr hfirst] at h
    cases h
  · intro h
    cases hmem : memmem pat text with
    | none => rfl
    | some i => exact absurd ((memmem_eq_some hne).mp hmem).1 (h i)

theorem memFindOff_eq_some {pat buf : List Byte} (hne : pat ≠ []) {off p : Nat} :
    memFindOff off buf pat = some p ↔
      off ≤ p ∧ pat <+: buf.drop p ∧ ∀ k, off ≤ k → k < p → ¬ pat <+: buf.drop k := by
  rw [memFindOff, Option.map_eq_some_iff]
  constructor
  · rintro ⟨i, hi, rfl⟩
    rcases (memmem_eq_some hne).mp hi with ⟨hpre, hbefore⟩
    rw [List.drop_drop] at hpre
    refine ⟨Nat.le_add_right _ _, hpre, fun k hle hlt hk => ?_⟩
    apply hbefore (k - off) (by omega)
    rw [List.drop_drop, Nat.add_sub_cancel' hle]
    exact hk
  · rintro ⟨hle, hpre, hbefore⟩
    refine ⟨p - off, (memmem_eq_some hne).mpr ⟨?_, fun k hk => ?_⟩, Nat.add_sub_cancel' hle⟩
    · rw [List.drop_drop, Nat.add_sub_cancel' hle]
      exact hpre
    · rw [List.drop_drop]
      exact hbefore (off + k) (Nat.le_add_right _ _) (by omega)

theorem memFindOff_eq_none {pat buf : List Byte} (hne : pat ≠ []) {off : Nat} :
    memFindOff off buf pat = none ↔ ∀ k, off ≤ k → ¬ pat <+: buf.drop k := by
  rw [memFindOff, Option.map_eq_none_iff, memmem_eq_none hne]
  constructor
  · intro h k hle hk
    apply h (k - off)
    rw [List.drop_drop, Nat.add_sub_cancel' hle]
    exact hk
  · intro h k hk
    rw [List.drop_drop] at hk
    exact h (off + k) (Nat.le_add_right _ _) hk

theorem memFindOff_bounds {pat buf : List Byte} (hne : pat ≠ []) {off p : Nat}
    (h : memFindOff off buf pat = some p) : off ≤ p ∧ p + pat.length ≤ buf.length := by
  rcases (memFindOff_eq_some hne).mp h with ⟨hle, hpre, -⟩
  have hpos := List.length_pos_iff.mpr hne
  have hlen := hpre.length_le
  rw [List.length_drop] at hlen
  exact ⟨hle, by omega⟩

/-! ## Arrays that grow -/

/-- `realloc_items` for one more item behind `count`: how many there is room for then.  `mem` is the
answer of `reallocarray`. -/
def reallocItems (allocated blk count : Nat) (mem : Bool) : Option Nat :=
  if count < allocated ∧ allocated ≤ count + blk then some allocated
  else if mem then some ((count / blk + 1) * blk)
  else none

theorem reallocItems_lt {allocated blk count n : Nat} {mem : Bool} (hblk : 0 < blk)
    (h : reallocItems allocated blk count mem = some n) : count < n := by
  rw [reallocItems] at h
  split at h
  · next hroom => exact Option.some.inj h ▸ hroom.1
  · split at h
    · rw [← Option.some.inj h, Nat.mul_comm]
      exact Nat.lt_mul_div_succ count hblk
    · cases h

theorem reallocItems_isSome (allocated blk count : Nat) :
    (reallocItems allocated blk count true).isSome = true := by
  rw [reallocItems]
  split <;> rfl

/-! ## Steps that may fail -/

theorem bind_ok {ε α β : Type} {x : Except ε α} {f : α → Except ε β} {r : β}
    (h : (x >>= f) = .ok r) : ∃ a, x = .ok a ∧ f a = .ok r := by
  cases x with
  | error e => cases h
  | ok a => exact ⟨a, rfl, h⟩

end Mem
