import Liblcb.Lib.ByteMem

/-!
# Words in memory

The accesses to words that the headers of `crypto/` share, on a little-endian host: through a pointer
to a word, which has to be aligned, and byte by byte.
-/

namespace Words

open ByteMem

abbrev W := BitVec 32

instance neZero_four : NeZero 4 := ⟨by decide⟩
instance neZero_eight : NeZero 8 := ⟨by decide⟩
instance neZero_sixteen : NeZero 16 := ⟨by decide⟩

/-- `ntohl`, and `htonl`. -/
def ntohl (v : W) : W := word 32 (bytes 4 v).reverse

/-- An aligned access through a `uint32_t *`. -/
def load32 (m : Memory) (p : Nat) : W := word 32 (read m p 4)

def store32 (m : Memory) (p : Nat) (v : W) : Memory := write m p (bytes 4 v)

def u8To32Little (m : Memory) (p : Nat) : W :=
  (m p).setWidth 32 ||| (m (p + 1)).setWidth 32 <<< 8 ||| (m (p + 2)).setWidth 32 <<< 16 |||
    (m (p + 3)).setWidth 32 <<< 24

def u32To8Little (m : Memory) (p : Nat) (v : W) : Memory :=
  let m := write m p [v.setWidth 8]
  let m := write m (p + 1) [(v >>> 8).setWidth 8]
  let m := write m (p + 2) [(v >>> 16).setWidth 8]
  write m (p + 3) [(v >>> 24).setWidth 8]

def rotl32 (v : W) (n : Nat) : W := v <<< n ||| v >>> (32 - n)

def bswap64 (v : BitVec 64) : BitVec 64 := word 64 (bytes 8 v).reverse

/-- `sha1_memcpy_bswap`, `sha2_memcpy_bswap4` and `sha2_memcpy_bswap8`: the bytes of each unit of `k` in
the other order. -/
def memcpyBswap (k : Nat) (src : List Byte) : List Byte :=
  (List.range (src.length / k)).flatMap fun i => ((src.drop (k * i)).take k).reverse

/-- Word `i` of a run of bytes. -/
def wordAt (bs : List Byte) (i : Nat) : W := word 32 ((bs.drop (4 * i)).take 4)

/-! ## Both accesses are the same -/

theorem read_four (m : Memory) (p : Nat) : read m p 4 = [m p, m (p + 1), m (p + 2), m (p + 3)] := rfl

theorem u8To32Little_eq (m : Memory) (p : Nat) : u8To32Little m p = load32 m p := by
  rw [u8To32Little, load32, read_four]
  apply BitVec.eq_of_getLsbD_eq
  intro i hi
  rw [getLsbD_word hi]
  simp only [BitVec.getLsbD_or, BitVec.getLsbD_shiftLeft, BitVec.getLsbD_setWidth]
  -- One byte of the word at a time.
  by_cases h8 : i < 8
  · have hdiv : i / 8 = 0 := by omega
    have hmod : i % 8 = i := by omega
    simp [hdiv, hmod, h8, hi, show i < 16 by omega, show i < 24 by omega]
  by_cases h16 : i < 16
  · have hdiv : i / 8 = 1 := by omega
    have hmod : i % 8 = i - 8 := by omega
    simp [hdiv, hmod, h8, h16, hi, show i < 24 by omega, show i - 8 < 32 by omega,
      BitVec.getLsbD_of_ge (m p) i (by omega)]
  by_cases h24 : i < 24
  · have hdiv : i / 8 = 2 := by omega
    have hmod : i % 8 = i - 16 := by omega
    simp [hdiv, hmod, h8, h16, h24, hi, show i - 8 < 32 by omega, show i - 16 < 32 by omega,
      BitVec.getLsbD_of_ge (m p) i (by omega), BitVec.getLsbD_of_ge (m (p + 1)) (i - 8) (by omega)]
  · have hdiv : i / 8 = 3 := by omega
    have hmod : i % 8 = i - 24 := by omega
    simp [hdiv, hmod, h8, h16, h24, hi, show i - 8 < 32 by omega, show i - 16 < 32 by omega,
      show i - 24 < 32 by omega, BitVec.getLsbD_of_ge (m p) i (by omega),
      BitVec.getLsbD_of_ge (m (p + 1)) (i - 8) (by omega),
      BitVec.getLsbD_of_ge (m (p + 2)) (i - 16) (by omega)]

theorem u32To8Little_eq (m : Memory) (p : Nat) (v : W) : u32To8Little m p v = store32 m p v := by
  have hbytes : bytes 4 v = [v.setWidth 8] ++ [(v >>> 8).setWidth 8] ++ [(v >>> 16).setWidth 8] ++
      [(v >>> 24).setWidth 8] := by
    simp [bytes, ← BitVec.shiftRight_add]
  rw [store32, hbytes, ← write_append, ← write_append, ← write_append]
  rfl

theorem bytes_bswap64 (v : BitVec 64) : bytes 8 (bswap64 v) = (bytes 8 v).reverse := by
  apply bytes_word
  · rw [List.length_reverse, length_bytes]
  · decide

theorem memcpyBswap_append {k : Nat} {a b : List Byte} (hk : 0 < k) (ha : a.length = k) :
    memcpyBswap k (a ++ b) = a.reverse ++ memcpyBswap k b := by
  have hunits : (a ++ b).length / k = b.length / k + 1 := by
    rw [List.length_append, ha, Nat.add_comm, Nat.add_div_right _ hk]
  unfold memcpyBswap
  rw [hunits, List.range_succ_eq_map, List.flatMap_cons, List.flatMap_map]
  congr 1
  · rw [Nat.mul_zero, List.drop_zero, List.take_left' ha]
  · apply List.flatMap_congr
    intro i _
    have hdrop : (a ++ b).drop (k * Nat.succ i) = b.drop (k * i) := by
      rw [Nat.mul_succ, Nat.add_comm, ← List.drop_drop, List.drop_left' ha]
    rw [hdrop]

theorem memcpyBswap_flatMap {α : Type} {k : Nat} (hk : 0 < k) {f : α → List Byte}
    (hf : ∀ x, (f x).length = k) (l : List α) :
    memcpyBswap k (l.flatMap f) = l.flatMap fun x => (f x).reverse := by
  induction l with
  | nil => simp [memcpyBswap]
  | cons x l ih => rw [List.flatMap_cons, memcpyBswap_append hk (hf x), ih, List.flatMap_cons]

theorem take_flatMap {α β : Type} {k : Nat} {f : α → List β} (hf : ∀ x, (f x).length = k) (l : List α)
    (j : Nat) : (l.flatMap f).take (k * j) = (l.take j).flatMap f := by
  induction l generalizing j with
  | nil => simp
  | cons x l ih =>
    cases j with
    | zero => simp
    | succ j =>
      have hsplit : k * (j + 1) = (f x).length + k * j := by
        rw [Nat.mul_succ, hf, Nat.add_comm]
      rw [List.flatMap_cons, List.take_succ_cons, List.flatMap_cons, hsplit,
        List.take_length_add_append, ih]

end Words
