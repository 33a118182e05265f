import Mathlib.Data.BitVec
import Mathlib.Data.List.Basic
import Mathlib.Logic.Function.Iterate

/-!
# Byte memory

A memory has a byte at every address.  Words are little-endian: `word` is the value of a run of
bytes, `bytes` is the run a value is stored as.  `overBlocks` is the loop of the block ciphers: it
moves over a destination in blocks of one size, and what it leaves behind is one write, also when the
input it reads is the destination itself.
-/

namespace ByteMem

abbrev Byte := BitVec 8

abbrev Memory := Nat → Byte

/-- The `n` bytes from `p` on. -/
def read (m : Memory) (p n : Nat) : List Byte := (List.range n).map fun i => m (p + i)

/-- The memory with `bs` at `p`. -/
def write (m : Memory) (p : Nat) (bs : List Byte) : Memory := fun a =>
  if p ≤ a then bs[a - p]?.getD (m a) else m a

/-- The little-endian value of a run of bytes. -/
def word (w : Nat) : List Byte → BitVec w
  | [] => 0
  | b :: bs => (word w bs <<< 8) ||| b.setWidth w

/-- The first `n` bytes of a value, the lowest one first. -/
def bytes {w : Nat} : Nat → BitVec w → List Byte
  | 0, _ => []
  | n + 1, v => v.setWidth 8 :: bytes n (v >>> 8)

/-- Two runs of `n` bytes are the same one or share no byte. -/
def Apart (src dst n : Nat) : Prop := src = dst ∨ src + n ≤ dst ∨ dst + n ≤ src

instance (src dst n : Nat) : Decidable (Apart src dst n) := by unfold Apart; infer_instance

/-! ## Reading what was written -/

section ReadWrite

variable {m : Memory} {p q n : Nat} {a b bs : List Byte}

@[simp] theorem length_read : (read m p n).length = n := by simp [read]

theorem getElem_read {i : Nat} (hi : i < (read m p n).length) : (read m p n)[i] = m (p + i) := by
  simp [read]

@[simp] theorem write_nil : write m p [] = m := by
  funext c
  simp [write]

theorem write_of_lt {c : Nat} (h : c < p) : write m p bs c = m c := by
  rw [write, if_neg (by omega)]

theorem write_of_ge {c : Nat} (h : p + bs.length ≤ c) : write m p bs c = m c := by
  rw [write, if_pos (by omega), List.getElem?_eq_none (by omega), Option.getD_none]

theorem write_of_mem {i : Nat} (h : i < bs.length) : write m p bs (p + i) = bs[i] := by
  rw [write, if_pos (by omega), Nat.add_sub_cancel_left, List.getElem?_eq_getElem h,
    Option.getD_some]

theorem read_write_self : read (write m p bs) p bs.length = bs := by
  apply List.ext_getElem
  · exact length_read
  · intro i hi hi'
    rw [getElem_read hi, write_of_mem hi']

theorem read_write_of_disjoint (h : q + n ≤ p ∨ p + bs.length ≤ q) :
    read (write m p bs) q n = read m q n := by
  apply List.ext_getElem
  · rw [length_read, length_read]
  · intro i hi hi'
    rw [length_read] at hi'
    rw [getElem_read, getElem_read]
    cases h with
    | inl h => exact write_of_lt (by omega)
    | inr h => exact write_of_ge (by omega)

theorem read_append (k : Nat) : read m p (k + n) = read m p k ++ read m (p + k) n := by
  simp only [read, List.range_add, List.map_append, List.map_map]
  congr 1
  apply List.map_congr_left
  intro i _
  rw [Function.comp_apply, Nat.add_assoc]

theorem take_read {k : Nat} (h : k ≤ n) : (read m p n).take k = read m p k := by
  rw [read, ← List.map_take, List.take_range, Nat.min_eq_left h, read]

theorem write_append : write (write m p a) (p + a.length) b = write m p (a ++ b) := by
  funext c
  by_cases hlt : c < p
  · rw [write_of_lt (by omega), write_of_lt hlt, write_of_lt hlt]
  · obtain ⟨i, rfl⟩ : ∃ i, c = p + i := ⟨c - p, by omega⟩
    by_cases hi : i < a.length
    · rw [write_of_lt (by omega), write_of_mem hi, write_of_mem (by rw [List.length_append]; omega),
        List.getElem_append_left hi]
    · obtain ⟨j, rfl⟩ : ∃ j, i = a.length + j := ⟨i - a.length, by omega⟩
      by_cases hj : j < b.length
      · rw [← Nat.add_assoc, write_of_mem hj, Nat.add_assoc,
          write_of_mem (by rw [List.length_append]; omega), List.getElem_append_right (by omega)]
        congr 1
        omega
      · rw [write_of_ge (by omega), write_of_ge (by omega),
          write_of_ge (by rw [List.length_append]; omega)]

theorem write_prepend : write (write m (p + a.length) b) p a = write m p (a ++ b) := by
  funext c
  by_cases hlt : c < p
  · rw [write_of_lt hlt, write_of_lt (by omega), write_of_lt hlt]
  · obtain ⟨i, rfl⟩ : ∃ i, c = p + i := ⟨c - p, by omega⟩
    by_cases hi : i < a.length
    · rw [write_of_mem hi, write_of_mem (by rw [List.length_append]; omega),
        List.getElem_append_left hi]
    · rw [write_of_ge (by omega), write_append.symm, write, write, if_pos (by omega), if_pos (by omega),
        write_of_ge (by omega)]

end ReadWrite

/-! ## Words -/

section Words

variable {w : Nat}

@[simp] theorem length_bytes {n : Nat} {v : BitVec w} : (bytes n v).length = n := by
  induction n generalizing v with
  | zero => rfl
  | succ n ih => rw [bytes, List.length_cons, ih]

theorem getLsbD_word {bs : List Byte} {i : Nat} (hi : i < w) :
    (word w bs).getLsbD i = (bs[i / 8]?.getD 0).getLsbD (i % 8) := by
  induction bs generalizing i with
  | nil => simp [word]
  | cons b bs ih =>
    simp only [word, BitVec.getLsbD_or, BitVec.getLsbD_shiftLeft, BitVec.getLsbD_setWidth]
    by_cases hlow : i < 8
    · have hz : i / 8 = 0 := by omega
      have hm : i % 8 = i := by omega
      simp [hi, hlow, hz, hm]
    · have hz : i / 8 = (i - 8) / 8 + 1 := by omega
      have hm : i % 8 = (i - 8) % 8 := by omega
      rw [hz, hm, List.getElem?_cons_succ, ← ih (by omega)]
      simp [hi, hlow, BitVec.getLsbD_of_ge b i (by omega)]

theorem getElem?_bytes {n j : Nat} {v : BitVec w} (hj : j < n) :
    (bytes n v)[j]? = some ((v >>> (8 * j)).setWidth 8) := by
  induction n generalizing v j with
  | zero => omega
  | succ n ih =>
    cases j with
    | zero => simp [bytes]
    | succ j =>
      rw [bytes, List.getElem?_cons_succ, ih (by omega), ← BitVec.shiftRight_add,
        show 8 + 8 * j = 8 * (j + 1) by omega]

theorem word_bytes {n : Nat} (v : BitVec w) (h : w ≤ 8 * n) : word w (bytes n v) = v := by
  apply BitVec.eq_of_getLsbD_eq
  intro i hi
  rw [getLsbD_word hi, getElem?_bytes (by omega), Option.getD_some, BitVec.getLsbD_setWidth,
    BitVec.getLsbD_ushiftRight]
  simp [Nat.mod_lt i (by omega : 0 < 8), Nat.div_add_mod]

theorem bytes_word {n : Nat} {bs : List Byte} (hlen : bs.length = n) (h : 8 * n ≤ w) :
    bytes n (word w bs) = bs := by
  apply List.ext_getElem?
  intro j
  by_cases hj : j < n
  · rw [getElem?_bytes hj, List.getElem?_eq_getElem (by omega)]
    congr 1
    apply BitVec.eq_of_getLsbD_eq
    intro k hk
    have hdiv : (8 * j + k) / 8 = j := by omega
    have hmod : (8 * j + k) % 8 = k := by omega
    rw [BitVec.getLsbD_setWidth, BitVec.getLsbD_ushiftRight, getLsbD_word (by omega), hdiv, hmod,
      List.getElem?_eq_getElem (by omega), Option.getD_some]
    simp [hk]
  · rw [List.getElem?_eq_none (by rw [length_bytes]; omega), List.getElem?_eq_none (by omega)]

theorem bytes_xor {n : Nat} (u v : BitVec w) :
    bytes n (u ^^^ v) = List.zipWith (· ^^^ ·) (bytes n u) (bytes n v) := by
  induction n generalizing u v with
  | zero => rfl
  | succ n ih =>
    rw [bytes, bytes, bytes, List.zipWith_cons_cons, BitVec.setWidth_xor,
      BitVec.ushiftRight_xor_distrib, ih]

theorem bytes_eq_map (n : Nat) (v : BitVec w) :
    bytes n v = (List.range n).map fun j => (v >>> (8 * j)).setWidth 8 := by
  apply List.ext_getElem?
  intro j
  by_cases hj : j < n
  · rw [getElem?_bytes hj, List.getElem?_map, List.getElem?_range hj]
    rfl
  · rw [List.getElem?_eq_none (by rw [length_bytes]; omega),
      List.getElem?_eq_none (by rw [List.length_map, List.length_range]; omega)]

theorem word_bytes_setWidth {u n : Nat} (v : BitVec w) (h : u ≤ 8 * n) :
    word u (bytes n v) = v.setWidth u := by
  apply BitVec.eq_of_getLsbD_eq
  intro i hi
  rw [getLsbD_word hi, getElem?_bytes (by omega), Option.getD_some, BitVec.getLsbD_setWidth,
    BitVec.getLsbD_setWidth, BitVec.getLsbD_ushiftRight]
  simp [hi, Nat.mod_lt i (by omega : 0 < 8), Nat.div_add_mod]

theorem bytes_setWidth {u n : Nat} (h : 8 * n ≤ u) (v : BitVec w) :
    bytes n (v.setWidth u) = bytes n v := by
  rw [bytes_eq_map, bytes_eq_map]
  apply List.map_congr_left
  intro j hj
  have hj := List.mem_range.mp hj
  apply BitVec.eq_of_getLsbD_eq
  intro k hk
  simp only [BitVec.getLsbD_setWidth, BitVec.getLsbD_ushiftRight, hk, decide_true, Bool.true_and]
  simp only [show 8 * j + k < u by omega, decide_true, Bool.true_and]

theorem bytes_add (a b : Nat) (v : BitVec w) :
    bytes (a + b) v = bytes a v ++ bytes b (v >>> (8 * a)) := by
  induction a generalizing v with
  | zero => simp [bytes]
  | succ a ih =>
    rw [Nat.succ_add, bytes, ih, bytes, List.cons_append, ← BitVec.shiftRight_add, Nat.mul_succ,
      Nat.add_comm 8]

end Words

/-! ## A loop over blocks -/

section Loop

variable {σ : Type}

/-- Runs `body` on `n` blocks of `k` bytes of the destination, one after the other. -/
def overBlocks (k : Nat) (body : σ → Memory → Nat → σ × Memory) :
    Nat → σ → Memory → Nat → σ × Memory
  | 0, st, m, _ => (st, m)
  | n + 1, st, m, dst =>
    let (st, m) := body st m dst
    overBlocks k body n st m (dst + k)

variable {k : Nat} {body : σ → Memory → Nat → σ × Memory} {next : σ → σ}
  {out : σ → Memory → List Byte}

/-- Where a block's output is one write that the output of the later blocks does not depend on, the
loop leaves all of them, computed on the memory it started from. -/
theorem overBlocks_eq {n : Nat} {st : σ} {m : Memory} {dst : Nat}
    (hbody : ∀ i < n, ∀ m', body (next^[i] st) m' (dst + k * i) =
      (next (next^[i] st), write m' (dst + k * i) (out (next^[i] st) m')))
    (hlen : ∀ st m, (out st m).length = k)
    (hframe : ∀ i < n, ∀ m', (∀ a, a < dst ∨ dst + k * i ≤ a → m' a = m a) →
      out (next^[i] st) m' = out (next^[i] st) m) :
    overBlocks k body n st m dst =
      (next^[n] st, write m dst ((List.range n).flatMap fun i => out (next^[i] st) m)) := by
  induction n generalizing st m dst with
  | zero => simp [overBlocks]
  | succ n ih =>
    -- The later blocks read the same whether or not the first one has been written.
    have hout : ∀ i < n, ∀ m', (∀ a, a < dst + k ∨ dst + k + k * i ≤ a →
        m' a = write m dst (out st m) a) → out (next^[i] (next st)) m' =
          out (next^[i] (next st)) m := by
      intro i hi m' hm
      apply hframe (i + 1) (by omega)
      intro a ha
      have hstep : k * (i + 1) = k * i + k := Nat.mul_succ k i
      have hfirst := hlen st m
      rw [hm a (by omega)]
      cases ha with
      | inl ha => exact write_of_lt ha
      | inr ha => exact write_of_ge (by omega)
    have hself : ∀ i < n, out (next^[i] (next st)) (write m dst (out st m)) =
        out (next^[i] (next st)) m := fun i hi => hout i hi _ fun _ _ => rfl
    have hfirst : body st m dst = (next st, write m dst (out st m)) := hbody 0 (by omega) m
    have hrest : ∀ i < n, ∀ m', body (next^[i] (next st)) m' (dst + k + k * i) =
        (next (next^[i] (next st)), write m' (dst + k + k * i) (out (next^[i] (next st)) m')) := by
      intro i hi m'
      have hstep := hbody (i + 1) (by omega) m'
      rwa [Nat.mul_succ, Nat.add_comm (k * i), ← Nat.add_assoc] at hstep
    rw [overBlocks, hfirst]
    dsimp only
    rw [ih hrest fun i hi m' hm => (hout i hi m' hm).trans (hself i hi).symm]
    have houts : ((List.range n).flatMap fun i =>
          out (next^[i] (next st)) (write m dst (out st m))) =
        (List.range n).flatMap fun i => out (next^[i + 1] st) m := by
      apply List.flatMap_congr
      intro i hi
      exact hself i (List.mem_range.mp hi)
    have hall : ((List.range (n + 1)).flatMap fun i => out (next^[i] st) m) =
        out st m ++ (List.range n).flatMap fun i => out (next^[i + 1] st) m := by
      rw [List.range_succ_eq_map, List.flatMap_cons, List.flatMap_map]
      rfl
    rw [houts, hall, ← write_append, hlen, Function.iterate_succ_apply]

/-- Lines that each write the next `k` bytes are one write.  Byte `j` may depend on the memory, but
not on what the lines before its own have written. -/
theorem foldl_lines_eq {line : Memory → Nat → Memory} {f : Memory → Nat → Byte} {m : Memory}
    {dst n : Nat}
    (hline : ∀ m o, line m o = write m (dst + o * k) ((List.range k).map fun j => f m (k * o + j)))
    (hframe : ∀ o < n, ∀ j < k, ∀ m', (∀ a, a < dst ∨ dst + k * o ≤ a → m' a = m a) →
      f m' (k * o + j) = f m (k * o + j)) :
    (List.range n).foldl line m = write m dst ((List.range (k * n)).map (f m)) := by
  induction n with
  | zero => simp
  | succ n ih =>
    have hlast : ((List.range k).map fun j =>
        f (write m dst ((List.range (k * n)).map (f m))) (k * n + j)) =
          (List.range k).map fun j => f m (k * n + j) := by
      apply List.map_congr_left
      intro j hj
      apply hframe n (by omega) j (List.mem_range.mp hj)
      intro a ha
      cases ha with
      | inl ha => exact write_of_lt ha
      | inr ha => exact write_of_ge (by simpa using ha)
    have hdst : dst + n * k = dst + ((List.range (k * n)).map (f m)).length := by
      rw [List.length_map, List.length_range, Nat.mul_comm]
    rw [List.range_succ, List.foldl_append, ih fun o ho => hframe o (by omega), List.foldl_cons,
      List.foldl_nil, hline, hlast, hdst, write_append, Nat.mul_succ, List.range_add,
      List.map_append, List.map_map]
    rfl

theorem flatMap_range_blocks {α : Type} (f : Nat → α) (n : Nat) :
    ((List.range n).flatMap fun i => (List.range k).map fun j => f (k * i + j)) =
      (List.range (k * n)).map f := by
  induction n with
  | zero => rfl
  | succ n ih =>
    rw [List.range_succ, List.flatMap_append, ih, List.flatMap_singleton, Nat.mul_succ,
      List.range_add, List.map_append, List.map_map]
    rfl

end Loop

end ByteMem
