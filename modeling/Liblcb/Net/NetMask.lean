import Mathlib.Data.BitVec
import Mathlib.Data.List.Basic
import Mathlib.Order.WellFounded

/-!
# Network masks

Prefix lengths, masks and networks of `net/utils.c`.  An address is the array of its words as a little
endian host reads them: the first bit on the wire is the highest bit of the lowest byte of the first
word.
-/

namespace Net

abbrev Word := BitVec 32

def prefToMask : List Word := [
  0x0,
  0x80, 0xc0, 0xe0, 0xf0,
  0xf8, 0xfc, 0xfe, 0xff,
  0x80ff, 0xc0ff, 0xe0ff, 0xf0ff,
  0xf8ff, 0xfcff, 0xfeff, 0xffff,
  0x80ffff, 0xc0ffff, 0xe0ffff, 0xf0ffff,
  0xf8ffff, 0xfcffff, 0xfeffff, 0xffffff,
  0x80ffffff, 0xc0ffffff, 0xe0ffffff, 0xf0ffffff,
  0xf8ffffff, 0xfcffffff, 0xfeffffff, 0xffffffff]

/-- The mask for the first `len` bits of a word. -/
def pref (len : Nat) : Word := prefToMask.getD len 0

/-- The families that have masks; the code leaves addresses of any other family alone. -/
inductive NetFamily where
  | inet
  | inet6

def NetFamily.addrLen : NetFamily → Nat
  | .inet => 1
  | .inet6 => 4

/-- The words of an address. -/
abbrev Words (n : Nat) := Vector Word n

def inetLen2mask (len : Nat) : Option Word := if 32 < len then none else some (pref len)

def inet6Len2mask (len : Nat) : Option (Words 4) :=
  if 128 < len then none
  else
    let cnt := len / 32
    some (Vector.ofFn fun i : Fin 4 =>
      if i.val < cnt then 0xffffffff#32 else if i.val = cnt then pref (len % 32) else 0)

/-- The mask of the family, as `net_addr_truncate_preflen` takes it. -/
def lenToMask : (family : NetFamily) → Nat → Option (Words family.addrLen)
  | .inet, len => (inetLen2mask len).map fun w => #v[w]
  | .inet6, len => inet6Len2mask len

def netAddrTruncateMask {n : Nat} (net mask : Words n) : Words n := Vector.zipWith (· &&& ·) net mask

def netAddrTruncatePreflen (family : NetFamily) (net : Words family.addrLen) (preflen : BitVec 16) :
    Words family.addrLen :=
  match lenToMask family preflen.toNat with
  | none => net
  | some mask => netAddrTruncateMask net mask

def isAddrInNet (family : NetFamily) (net mask addr : Words family.addrLen) : Bool :=
  decide (∀ i : Fin family.addrLen, addr[i] &&& mask[i] = net[i])

/-- The loop over `pref_to_mask`, from the entry before `i` down: where it stops. -/
def prefScan (mask : Word) : Nat → Option Nat
  | 0 => none
  | i + 1 => if mask < pref i then prefScan mask i else some i

/-- The entry of `pref_to_mask` that is the word, as the scan finds it. -/
def prefIndex (mask : Word) : Option Nat :=
  match prefScan mask 33 with
  | none => none
  | some i => if mask = pref i then some i else none

def inetMask2len (mask : Word) : Nat := (prefIndex mask).getD 0

/-- `inet6_mask2len`: the words behind the first one that is not full are not looked at. -/
def inet6Mask2len (mask : Words 4) : Nat :=
  match mask.toList.findIdx? (· ≠ 0xffffffff#32) with
  | none => 128
  | some j =>
    match prefIndex (mask.toList.getD j 0) with
    | none => 0
    | some i => j * 32 + i

/-! ## Bits on the wire -/

/-- The place of the bit `i` of a word in network order. -/
def netIndex (i : Nat) : Nat := 8 * (i / 8) + (7 - i % 8)

def netBit (w : Word) (i : Nat) : Bool := w.getLsbD (netIndex i)

/-- The bit `i` of an address in network order. -/
def Words.bit {n : Nat} (a : Words n) (i : Nat) : Bool := netBit (a.toList.getD (i / 32) 0) (i % 32)

theorem netIndex_lt {i : Nat} (h : i < 32) : netIndex i < 32 := by
  unfold netIndex
  omega

theorem netIndex_netIndex (i : Nat) : netIndex (netIndex i) = i := by
  unfold netIndex
  omega

theorem word_ext {w v : Word} (h : ∀ i < 32, netBit w i = netBit v i) : w = v := by
  apply BitVec.eq_of_getLsbD_eq
  intro p hp
  have hbit := h (netIndex p) (netIndex_lt hp)
  rw [netBit, netBit, netIndex_netIndex] at hbit
  exact hbit

theorem netBit_and (w v : Word) (i : Nat) : netBit (w &&& v) i = (netBit w i && netBit v i) :=
  BitVec.getLsbD_and

theorem netBit_pref : ∀ len ≤ 32, ∀ i < 32, netBit (pref len) i = decide (i < len) := by
  decide +kernel

theorem pref_lt : ∀ len ≤ 32, ∀ i < len, pref i < pref len := by
  decide +kernel

section

variable {n : Nat} {a b mask : Words n} {i k : Nat}

theorem Words.bit_eq (a : Words n) (h : i / 32 < n) : a.bit i = netBit a[i / 32] (i % 32) := by
  rw [Words.bit, List.getD_eq_getElem?_getD, Vector.getElem?_toList, Vector.getElem?_eq_getElem h]
  rfl

theorem Words.ext_bit (h : ∀ i < 32 * n, a.bit i = b.bit i) : a = b := by
  apply Vector.ext
  intro j hj
  apply word_ext
  intro i hi
  have hbit := h (32 * j + i) (by omega)
  have hdiv : (32 * j + i) / 32 = j := by omega
  have hmod : (32 * j + i) % 32 = i := by omega
  rw [Words.bit_eq a (by omega), Words.bit_eq b (by omega)] at hbit
  simp only [hdiv, hmod] at hbit
  exact hbit

theorem bit_truncateMask (h : i < 32 * n) :
    (netAddrTruncateMask a mask).bit i = (a.bit i && mask.bit i) := by
  have hdiv : i / 32 < n := by omega
  rw [Words.bit_eq _ hdiv, Words.bit_eq _ hdiv, Words.bit_eq _ hdiv, netAddrTruncateMask,
    Vector.getElem_zipWith, netBit_and]

/-! ## The mask of a prefix length -/

/-- The mask for the first `k` bits. -/
def maskWords (n k : Nat) : Words n := Vector.ofFn fun j => pref (min 32 (k - 32 * j))

theorem bit_maskWords (h : i < 32 * n) : (maskWords n k).bit i = decide (i < k) := by
  have hdiv : i / 32 < n := by omega
  rw [Words.bit_eq _ hdiv, maskWords, Vector.getElem_ofFn,
    netBit_pref _ (Nat.min_le_left _ _) _ (Nat.mod_lt _ (by decide)), decide_eq_decide]
  show i % 32 < min 32 (k - 32 * (i / 32)) ↔ i < k
  omega

theorem inetLen2mask_eq (h : k ≤ 32) :
    (inetLen2mask k).map (fun w => (#v[w] : Words 1)) = some (maskWords 1 k) := by
  rw [inetLen2mask, if_neg (by omega), Option.map_some]
  congr 1
  apply Vector.ext
  intro j hj
  obtain rfl : j = 0 := Nat.lt_one_iff.mp hj
  have hmin : min 32 (k - 32 * 0) = k := by omega
  rw [maskWords, Vector.getElem_ofFn, hmin]
  rfl

theorem inet6Len2mask_eq (h : k ≤ 128) : inet6Len2mask k = some (maskWords 4 k) := by
  rw [inet6Len2mask, if_neg (by omega), Option.some.injEq]
  apply Vector.ext
  intro j hj
  rw [maskWords, Vector.getElem_ofFn, Vector.getElem_ofFn]
  -- full words, the word the prefix ends in, and empty words
  by_cases hfull : j < k / 32
  · have hmin : min 32 (k - 32 * j) = 32 := by omega
    rw [if_pos hfull, hmin]
    rfl
  · rw [if_neg hfull]
    by_cases hlast : j = k / 32
    · have hmin : min 32 (k - 32 * j) = k % 32 := by omega
      rw [if_pos hlast, hmin]
    · have hmin : min 32 (k - 32 * j) = 0 := by omega
      rw [if_neg hlast, hmin]
      rfl

theorem lenToMask_eq (family : NetFamily) (h : k ≤ 32 * family.addrLen) :
    lenToMask family k = some (maskWords family.addrLen k) := by
  cases family with
  | inet => exact inetLen2mask_eq h
  | inet6 => exact inet6Len2mask_eq h

theorem truncatePreflen_eq (family : NetFamily) (net : Words family.addrLen) {preflen : BitVec 16}
    (h : preflen.toNat ≤ 32 * family.addrLen) :
    netAddrTruncatePreflen family net preflen =
      netAddrTruncateMask net (maskWords family.addrLen preflen.toNat) := by
  rw [netAddrTruncatePreflen, lenToMask_eq family h]

theorem truncateMask_idem (a mask : Words n) :
    netAddrTruncateMask (netAddrTruncateMask a mask) mask = netAddrTruncateMask a mask := by
  apply Words.ext_bit
  intro i hi
  rw [bit_truncateMask hi, bit_truncateMask hi, Bool.and_assoc, Bool.and_self]

theorem isAddrInNet_eq (family : NetFamily) (net mask addr : Words family.addrLen) :
    isAddrInNet family net mask addr = true ↔ netAddrTruncateMask addr mask = net := by
  rw [isAddrInNet, decide_eq_true_iff]
  constructor
  · intro h
    apply Vector.ext
    intro j hj
    rw [netAddrTruncateMask, Vector.getElem_zipWith]
    exact h ⟨j, hj⟩
  · intro h i
    rw [← h, netAddrTruncateMask]
    exact (Vector.getElem_zipWith i.isLt).symm

theorem truncateMask_eq_iff (a b : Words n) (hk : k ≤ 32 * n) :
    netAddrTruncateMask a (maskWords n k) = netAddrTruncateMask b (maskWords n k) ↔
      ∀ i < k, a.bit i = b.bit i := by
  constructor
  · intro h i hi
    have hbit := congrArg (Words.bit · i) h
    simp only [bit_truncateMask (by omega : i < 32 * n), bit_maskWords (by omega : i < 32 * n),
      hi, decide_true, Bool.and_true] at hbit
    exact hbit
  · intro h
    apply Words.ext_bit
    intro i hi
    rw [bit_truncateMask hi, bit_truncateMask hi, bit_maskWords hi]
    by_cases hik : i < k
    · rw [h i hik]
    · rw [decide_eq_false hik, Bool.and_false, Bool.and_false]

/-! ## The prefix length of a mask -/

/-- `mask` has exactly its first `k` bits set. -/
def IsPrefix (mask : Words n) (k : Nat) : Prop :=
  k ≤ 32 * n ∧ ∀ i < 32 * n, mask.bit i = decide (i < k)

/-- `len` says which prefix mask it is, and is zero for the empty mask and for a mask with gaps. -/
def IsMaskLen (mask : Words n) (len : Nat) : Prop := ∀ k, 0 < k → (len = k ↔ IsPrefix mask k)

theorem isPrefix_iff (mask : Words n) : IsPrefix mask k ↔ k ≤ 32 * n ∧ mask = maskWords n k := by
  refine and_congr_right ?_
  intro hk
  constructor
  · intro h
    apply Words.ext_bit
    intro i hi
    rw [h i hi, bit_maskWords hi]
  · intro h i hi
    rw [h, bit_maskWords hi]

theorem isMaskLen_of_isPrefix (h : IsPrefix mask k) : IsMaskLen mask k := by
  intro k' hk'
  constructor
  · intro heq
    rwa [← heq]
  · intro h'
    -- the bit at the smaller length tells two masks apart
    rcases Nat.lt_trichotomy k k' with hlt | heq | hgt
    · have h1 := h.2 k (by have := h'.1; omega)
      have h2 := h'.2 k (by have := h'.1; omega)
      rw [h1, decide_eq_decide] at h2
      omega
    · exact heq
    · have h1 := h.2 k' (by have := h.1; omega)
      have h2 := h'.2 k' (by have := h.1; omega)
      rw [h1, decide_eq_decide] at h2
      omega

theorem isMaskLen_of_not (h : ∀ k, 0 < k → ¬ IsPrefix mask k) {len : Nat} :
    IsMaskLen mask len ↔ len = 0 := by
  constructor
  · intro hlen
    by_contra hne
    exact h len (Nat.pos_of_ne_zero hne) ((hlen len (Nat.pos_of_ne_zero hne)).mp rfl)
  · intro hlen k hk
    exact iff_of_false (by omega) (h k hk)

theorem prefScan_eq {w : Word} : ∀ {m i : Nat}, prefScan w m = some i →
    i < m ∧ ¬ w < pref i ∧ ∀ j < m, i < j → w < pref j
  | 0, _, h => by cases h
  | m + 1, i, h => by
    rw [prefScan] at h
    split at h
    · next hlt =>
        obtain ⟨him, hnot, hall⟩ := prefScan_eq h
        refine ⟨by omega, hnot, ?_⟩
        intro j hj hij
        rcases Nat.lt_succ_iff_lt_or_eq.mp hj with hjm | hjm
        · exact hall j hjm hij
        · exact hjm ▸ hlt
    · next hnot =>
        rw [Option.some.injEq] at h
        subst h
        exact ⟨Nat.lt_succ_self m, hnot, fun j hj hij => by omega⟩

theorem prefScan_isSome {w : Word} : ∀ {m : Nat}, 0 < m → ∃ i, prefScan w m = some i
  | 0, h => absurd h (Nat.lt_irrefl 0)
  | 1, _ => ⟨0, if_neg BitVec.not_lt_zero⟩
  | m + 2, _ => by
    rw [prefScan]
    split
    · exact prefScan_isSome (Nat.succ_pos m)
    · exact ⟨m + 1, rfl⟩

theorem prefIndex_eq_some {w : Word} : prefIndex w = some i ↔ i ≤ 32 ∧ w = pref i := by
  obtain ⟨m, hm⟩ := prefScan_isSome (w := w) (Nat.succ_pos 32)
  obtain ⟨hlt, hnot, hall⟩ := prefScan_eq hm
  rw [prefIndex, hm]
  constructor
  · intro h
    dsimp only at h
    split at h
    · next heq =>
        rw [Option.some.injEq] at h
        subst h
        exact ⟨Nat.le_of_lt_succ hlt, heq⟩
    · cases h
  · intro h
    rcases h with ⟨hi, rfl⟩
    have hmi : m = i := by
      rcases Nat.lt_trichotomy m i with hlt' | heq | hgt
      · exact absurd (hall i (by omega) hlt') (BitVec.lt_irrefl _)
      · exact heq
      · exact absurd (pref_lt m (by omega) i hgt) hnot
    dsimp only
    rw [hmi, if_pos rfl]

theorem pref_inj {j : Nat} (hi : i ≤ 32) (hj : j ≤ 32) (h : pref i = pref j) : i = j := by
  have h1 := (prefIndex_eq_some (w := pref i)).mpr ⟨hi, rfl⟩
  have h2 := (prefIndex_eq_some (w := pref i)).mpr ⟨hj, h⟩
  rw [h1, Option.some.injEq] at h2
  exact h2

theorem isPrefix_one {w : Word} : IsPrefix (#v[w] : Words 1) k ↔ k ≤ 32 ∧ w = pref k := by
  rw [isPrefix_iff]
  refine and_congr_right ?_
  intro hk
  have hmin : min 32 (k - 32 * 0) = k := by omega
  constructor
  · intro h
    have hword := congrArg (fun a : Words 1 => a[0]) h
    simp only [maskWords, Vector.getElem_ofFn, hmin] at hword
    exact hword
  · intro h
    apply Vector.ext
    intro j hj
    obtain rfl : j = 0 := Nat.lt_one_iff.mp hj
    rw [maskWords, Vector.getElem_ofFn, hmin]
    exact h

theorem inetMask2len_isMaskLen (w : Word) : IsMaskLen (#v[w] : Words 1) (inetMask2len w) := by
  rw [inetMask2len]
  cases hw : prefIndex w with
  | some i => exact isMaskLen_of_isPrefix (isPrefix_one.mpr (prefIndex_eq_some.mp hw))
  | none =>
    refine (isMaskLen_of_not ?_).mpr rfl
    intro k hk h
    rw [prefIndex_eq_some.mpr (isPrefix_one.mp h)] at hw
    cases hw

/-! ## The words behind the prefix -/

def FirstOpen (mask : Words 4) (j : Fin 4) : Prop :=
  (∀ j' < j, mask[j'] = 0xffffffff#32) ∧ mask[j] ≠ 0xffffffff#32

/-- The first word that is not full is a prefix of its own, bits up to there are set, and a word
behind it is not empty. -/
def HasTail (mask : Words 4) : Prop :=
  ∃ (j : Fin 4) (i : Nat), (∀ j' < j, mask[j'] = 0xffffffff#32) ∧ i < 32 ∧ mask[j] = pref i ∧
    0 < j.val * 32 + i ∧ ∃ j' > j, mask[j'] ≠ 0

end

section

variable {mask : Words 4} {i k : Nat} {j : Fin 4}

theorem pref_ne_full (h : i < 32) : pref i ≠ 0xffffffff#32 := by
  intro heq
  have hi : i = 32 := pref_inj (Nat.le_of_lt h) (Nat.le_refl 32) heq
  omega

theorem FirstOpen.unique {j' : Fin 4} (h : FirstOpen mask j) (h' : FirstOpen mask j') : j = j' := by
  rcases lt_trichotomy j j' with hlt | heq | hgt
  · exact absurd (h'.1 j hlt) h.2
  · exact heq
  · exact absurd (h.1 j' hgt) h'.2

theorem inet6Mask2len_full (h : ∀ j : Fin 4, mask[j] = 0xffffffff#32) : inet6Mask2len mask = 128 := by
  have hnone : mask.toList.findIdx? (· ≠ 0xffffffff#32) = none := by
    rw [List.findIdx?_eq_none_iff]
    intro w hw
    obtain ⟨n, hn, rfl⟩ := List.getElem_of_mem hw
    rw [Vector.length_toList] at hn
    have hword := h ⟨n, hn⟩
    simpa using hword
  rw [inet6Mask2len, hnone]

theorem inet6Mask2len_open (h : FirstOpen mask j) :
    inet6Mask2len mask = ((prefIndex mask[j]).map fun i => j.val * 32 + i).getD 0 := by
  have hj : j.val < mask.toList.length := by
    rw [Vector.length_toList]
    exact j.isLt
  have hsome : mask.toList.findIdx? (· ≠ 0xffffffff#32) = some j.val := by
    rw [List.findIdx?_eq_some_iff_getElem]
    refine ⟨hj, ?_, ?_⟩
    · simpa using h.2
    · intro n hn
      have hword := h.1 ⟨n, by omega⟩ hn
      simpa using hword
  have hget : mask.toList.getD j.val 0 = mask[j] := by
    rw [List.getD_eq_getElem?_getD, List.getElem?_eq_getElem hj]
    rfl
  rw [inet6Mask2len, hsome]
  dsimp only
  rw [hget]
  cases prefIndex mask[j] <;> rfl

theorem isPrefix_words : IsPrefix mask k ↔
    k ≤ 128 ∧ ∀ j : Fin 4, mask[j] = pref (min 32 (k - 32 * j.val)) := by
  rw [isPrefix_iff]
  refine and_congr_right ?_
  intro hk
  constructor
  · intro h j
    rw [h]
    exact Vector.getElem_ofFn j.isLt
  · intro h
    apply Vector.ext
    intro n hn
    rw [maskWords, Vector.getElem_ofFn]
    exact h ⟨n, hn⟩

/-- A prefix mask is full words, one word with the rest of the bits, and empty words. -/
theorem isPrefix_open (h : FirstOpen mask j) : IsPrefix mask k ↔
    (∃ i < 32, k = j.val * 32 + i ∧ mask[j] = pref i) ∧ ∀ j' > j, mask[j'] = 0 := by
  rw [isPrefix_words]
  constructor
  · intro hpre
    rcases hpre with ⟨hk, hwords⟩
    -- the words in front of `j` are full, so the prefix ends in `j` or behind it
    have hfull : ∀ j' < j, 32 * j'.val + 32 ≤ k := by
      intro j' hj'
      have heq := (hwords j').symm.trans (h.1 j' hj')
      have hmin := pref_inj (Nat.min_le_left _ _) (Nat.le_refl 32) heq
      omega
    have hle : 32 * j.val ≤ k := by
      by_cases hzero : j.val = 0
      · omega
      · have hprev := hfull ⟨j.val - 1, by omega⟩ (Fin.lt_def.mpr (by simp only; omega))
        simp only at hprev
        omega
    -- and `j` is not full, so it ends in `j`
    have hlt : k - 32 * j.val < 32 := by
      by_contra hge
      have hmin : min 32 (k - 32 * j.val) = 32 := by omega
      have hword := hwords j
      rw [hmin] at hword
      exact h.2 hword
    refine ⟨⟨k - 32 * j.val, hlt, by omega, ?_⟩, ?_⟩
    · rw [hwords j, Nat.min_eq_right (Nat.le_of_lt hlt)]
    · intro j' hj'
      have hgt := Fin.lt_def.mp hj'
      have hmin : min 32 (k - 32 * j'.val) = 0 := by omega
      rw [hwords j', hmin]
      rfl
  · intro hpre
    rcases hpre with ⟨⟨i, hi, rfl, hword⟩, hrest⟩
    have hj := j.isLt
    refine ⟨by omega, ?_⟩
    intro j'
    -- in front of the word, the word itself and behind it
    rcases lt_trichotomy j' j with hlt | rfl | hgt
    · have hlt' := Fin.lt_def.mp hlt
      have hmin : min 32 (j.val * 32 + i - 32 * j'.val) = 32 := by omega
      rw [h.1 j' hlt, hmin]
      rfl
    · have hmin : min 32 (j'.val * 32 + i - 32 * j'.val) = i := by omega
      rw [hword, hmin]
    · have hgt' := Fin.lt_def.mp hgt
      have hmin : min 32 (j.val * 32 + i - 32 * j'.val) = 0 := by omega
      rw [hrest j' hgt, hmin]
      rfl

theorem firstOpen_or (mask : Words 4) :
    (∀ j : Fin 4, mask[j] = 0xffffffff#32) ∨ ∃ j, FirstOpen mask j := by
  by_cases hall : ∀ j : Fin 4, mask[j] = 0xffffffff#32
  · exact .inl hall
  · right
    rw [not_forall] at hall
    rcases hall with ⟨j, hj⟩
    obtain ⟨j, hj, hmin⟩ := wellFounded_lt.has_min {j : Fin 4 | mask[j] ≠ 0xffffffff#32} ⟨j, hj⟩
    refine ⟨j, ?_, hj⟩
    intro j' hj'
    by_contra hne
    exact hmin j' hne hj'

theorem hasTail_open (h : FirstOpen mask j) : HasTail mask ↔
    (∃ i < 32, mask[j] = pref i ∧ 0 < j.val * 32 + i) ∧ ∃ j' > j, mask[j'] ≠ 0 := by
  constructor
  · intro htail
    rcases htail with ⟨j', i, hfull, hi, hword, hpos, hrest⟩
    have hopen : FirstOpen mask j' := ⟨hfull, hword ▸ pref_ne_full hi⟩
    obtain rfl := h.unique hopen
    exact ⟨⟨i, hi, hword, hpos⟩, hrest⟩
  · intro htail
    rcases htail with ⟨⟨i, hi, hword, hpos⟩, hrest⟩
    exact ⟨j, i, h.1, hi, hword, hpos, hrest⟩

/-- `inet6_mask2len` is right for exactly the masks without a tail. -/
theorem inet6Mask2len_iff (mask : Words 4) :
    IsMaskLen mask (inet6Mask2len mask) ↔ ¬ HasTail mask := by
  rcases firstOpen_or mask with hfull | ⟨j, hopen⟩
  · refine iff_of_true ?_ ?_
    · rw [inet6Mask2len_full hfull]
      apply isMaskLen_of_isPrefix
      rw [isPrefix_words]
      refine ⟨Nat.le_refl 128, ?_⟩
      intro j
      have hj := j.isLt
      have hmin : min 32 (128 - 32 * j.val) = 32 := by omega
      rw [hfull j, hmin]
      rfl
    · intro htail
      rcases htail with ⟨j, i, -, hi, hword, -⟩
      exact pref_ne_full hi (hword ▸ hfull j)
  · rw [inet6Mask2len_open hopen, hasTail_open hopen]
    cases hindex : prefIndex mask[j] with
    | none =>
      -- a word that is not in the table
      have hnot : ∀ i < 32, mask[j] ≠ pref i := by
        intro i hi heq
        rw [prefIndex_eq_some.mpr ⟨Nat.le_of_lt hi, heq⟩] at hindex
        cases hindex
      refine iff_of_true ((isMaskLen_of_not ?_).mpr rfl) ?_
      · intro k hk hpre
        rcases ((isPrefix_open hopen).mp hpre).1 with ⟨i, hi, -, hword⟩
        exact hnot i hi hword
      · intro htail
        rcases htail.1 with ⟨i, hi, hword, -⟩
        exact hnot i hi hword
    | some i =>
      obtain ⟨hle, hword⟩ := prefIndex_eq_some.mp hindex
      have hi : i < 32 := by
        apply Nat.lt_of_le_of_ne hle
        rintro rfl
        exact hopen.2 hword
      rw [Option.map_some, Option.getD_some]
      by_cases hrest : ∀ j' > j, mask[j'] = 0
      · refine iff_of_true ?_ ?_
        · apply isMaskLen_of_isPrefix
          exact (isPrefix_open hopen).mpr ⟨⟨i, hi, by omega, hword⟩, hrest⟩
        · intro htail
          rcases htail.2 with ⟨j', hj', hne⟩
          exact hne (hrest j' hj')
      · have hnone : ∀ k, 0 < k → ¬ IsPrefix mask k := by
          intro k hk hpre
          exact hrest ((isPrefix_open hopen).mp hpre).2
        rw [isMaskLen_of_not hnone]
        have htail : ∃ j' > j, mask[j'] ≠ 0 := by
          rw [not_forall] at hrest
          rcases hrest with ⟨j', hj'⟩
          rw [Classical.not_imp] at hj'
          exact ⟨j', hj'.1, hj'.2⟩
        constructor
        · intro hzero hboth
          rcases hboth.1 with ⟨i', hi', hword', hpos⟩
          have heq : i = i' := pref_inj hle (Nat.le_of_lt hi') (hword.symm.trans hword')
          omega
        · intro hboth
          by_contra hne
          exact hboth ⟨⟨i, hi, hword, by omega⟩, htail⟩

end

/-- The network of a prefix length holds exactly the addresses that have its first bits, and
truncating it once more changes nothing; `inet_mask2len` tells the prefix masks from all others.
`inet6_mask2len` does as well except for the masks with a tail: it does not look at the words behind
the one the prefix ends in. -/
theorem netMask_iff (family : NetFamily) (net addr : Words family.addrLen) (preflen : BitVec 16)
    (h : preflen.toNat ≤ 32 * family.addrLen) (mask4 : Word) (mask6 : Words 4) :
    (∃ mask, lenToMask family preflen.toNat = some mask ∧
      (isAddrInNet family (netAddrTruncatePreflen family net preflen) mask addr = true ↔
        ∀ i < preflen.toNat, addr.bit i = net.bit i)) ∧
    netAddrTruncatePreflen family (netAddrTruncatePreflen family net preflen) preflen =
      netAddrTruncatePreflen family net preflen ∧
    IsMaskLen (#v[mask4] : Words 1) (inetMask2len mask4) ∧
    (IsMaskLen mask6 (inet6Mask2len mask6) ↔ ¬ HasTail mask6) := by
  refine ⟨⟨_, lenToMask_eq family h, ?_⟩, ?_, inetMask2len_isMaskLen mask4, inet6Mask2len_iff mask6⟩
  · rw [truncatePreflen_eq family net h, isAddrInNet_eq]
    exact truncateMask_eq_iff addr net h
  · rw [truncatePreflen_eq family _ h, truncatePreflen_eq family net h, truncateMask_idem]

theorem netMask_loopback :
    8 ≤ 32 ∧
    (∃ mask, lenToMask .inet (8#16).toNat = some mask ∧
      (isAddrInNet .inet (netAddrTruncatePreflen .inet #v[0x0100007f] 8#16) mask
          #v[0x0200007f] = true ↔
        ∀ i < (8#16).toNat, Words.bit #v[0x0200007f] i = Words.bit #v[0x0100007f] i)) ∧
    netAddrTruncatePreflen .inet (netAddrTruncatePreflen .inet #v[0x0100007f] 8#16) 8#16 =
      netAddrTruncatePreflen .inet #v[0x0100007f] 8#16 ∧
    IsMaskLen (#v[0xff] : Words 1) (inetMask2len 0xff) ∧
    (IsMaskLen #v[0xff, 0, 0, 0] (inet6Mask2len #v[0xff, 0, 0, 0]) ↔ ¬ HasTail #v[0xff, 0, 0, 0]) :=
  ⟨by decide, netMask_iff .inet #v[0x0100007f] #v[0x0200007f] 8#16 (by decide) 0xff #v[0xff, 0, 0, 0]⟩

/-- The mask `ffff:ffff:8000:0:1::`. -/
theorem not_isMaskLen_gap : ¬ (∀ mask : Words 4, IsMaskLen mask (inet6Mask2len mask)) := by
  intro h
  have hlen := (h #v[0xffffffff, 0x80, 1, 0] 33 (by decide)).mp (by decide)
  have hbit := hlen.2 71 (by decide)
  exact absurd hbit (by decide)

end Net
