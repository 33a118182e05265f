import Mathlib.Data.List.Basic

/-!
# Streams of blocks

A state that takes in a stream block by block: `afterBlocks` is the loop for a number of them,
`whole` the loop over all whole blocks of a list, and `rest` is what is left for the next one.  What
a state has taken in depends on the list only, so a list can come in any parts.
-/

namespace BlockStream

section Blocks

variable {σ β : Type} (f : σ → List β → σ) (n : Nat)

/-- The state after `k` blocks of `n`. -/
def afterBlocks : Nat → σ → List β → σ
  | 0, s, _ => s
  | k + 1, s, l => afterBlocks k (f s (l.take n)) (l.drop n)

/-- The state after all whole blocks of `l`. -/
def whole (s : σ) (l : List β) : σ := afterBlocks f n (l.length / n) s l

/-- What follows the last whole block. -/
def rest (l : List β) : List β := l.drop (l.length / n * n)

end Blocks

section Lemmas

variable {σ β : Type} {f : σ → List β → σ} {n : Nat} {s : σ} {l m : List β}

theorem afterBlocks_append {k : Nat} (h : k * n ≤ l.length) :
    afterBlocks f n k s (l ++ m) = afterBlocks f n k s l := by
  induction k generalizing s l with
  | zero => rfl
  | succ k ih =>
    rw [Nat.succ_mul] at h
    rw [afterBlocks, afterBlocks, List.take_append_of_le_length (by omega),
      List.drop_append_of_le_length (by omega)]
    apply ih
    rw [List.length_drop]
    omega

theorem afterBlocks_add (j k : Nat) :
    afterBlocks f n (j + k) s l = afterBlocks f n k (afterBlocks f n j s l) (l.drop (j * n)) := by
  induction j generalizing s l with
  | zero => simp [afterBlocks]
  | succ j ih =>
    rw [Nat.succ_add, afterBlocks, ih, afterBlocks, List.drop_drop, Nat.succ_mul, Nat.add_comm n]

theorem length_rest : (rest n l).length = l.length % n := by
  have hdiv := Nat.div_add_mod l.length n
  rw [Nat.mul_comm] at hdiv
  rw [rest, List.length_drop]
  omega

theorem whole_of_lt (h : l.length < n) : whole f n s l = s := by
  rw [whole, Nat.div_eq_of_lt h, afterBlocks]

theorem rest_of_lt (h : l.length < n) : rest n l = l := by
  rw [rest, Nat.div_eq_of_lt h, Nat.zero_mul, List.drop_zero]

theorem whole_append_of_dvd (hn : 0 < n) (h : n ∣ l.length) :
    whole f n s (l ++ m) = whole f n (whole f n s l) m := by
  obtain ⟨k, hk⟩ := h
  have hdiv : l.length / n = k := by rw [hk, Nat.mul_div_cancel_left k hn]
  have hall : (l ++ m).length / n = k + m.length / n := by
    rw [List.length_append, hk, Nat.mul_add_div hn]
  have hlen : l.length = k * n := by rw [hk, Nat.mul_comm]
  rw [whole, whole, whole, hall, hdiv, afterBlocks_add, afterBlocks_append (by omega), ← hlen,
    List.drop_left]

theorem rest_append_of_dvd (hn : 0 < n) (h : n ∣ l.length) : rest n (l ++ m) = rest n m := by
  obtain ⟨k, hk⟩ := h
  have hall : (l ++ m).length / n * n = l.length + m.length / n * n := by
    rw [List.length_append, hk, Nat.mul_add_div hn, Nat.add_mul, Nat.mul_comm k]
  rw [rest, rest, hall, ← List.drop_drop, List.drop_left]

theorem take_append_rest : l.take (l.length / n * n) ++ rest n l = l := List.take_append_drop _ _

theorem dvd_length_take : n ∣ (l.take (l.length / n * n)).length := by
  have hle := Nat.div_mul_le_self l.length n
  rw [List.length_take, Nat.min_eq_left hle]
  exact Nat.dvd_mul_left n _

theorem whole_take : whole f n s (l.take (l.length / n * n)) = whole f n s l := by
  by_cases hn : n = 0
  · subst hn
    simp [whole, afterBlocks]
  · have hsplit := @whole_append_of_dvd _ _ f n s (l.take (l.length / n * n)) (rest n l)
      (Nat.pos_of_ne_zero hn) dvd_length_take
    have hlt : (rest n l).length < n := by
      rw [length_rest]
      exact Nat.mod_lt _ (Nat.pos_of_ne_zero hn)
    rw [take_append_rest, whole_of_lt hlt] at hsplit
    exact hsplit.symm

theorem whole_append (hn : 0 < n) :
    whole f n s (l ++ m) = whole f n (whole f n s l) (rest n l ++ m) := by
  have hsplit := @whole_append_of_dvd _ _ f n s _ (rest n l ++ m) hn (dvd_length_take (l := l))
  rwa [← List.append_assoc, take_append_rest, whole_take] at hsplit

theorem rest_append (hn : 0 < n) : rest n (l ++ m) = rest n (rest n l ++ m) := by
  have hsplit := @rest_append_of_dvd _ n _ (rest n l ++ m) hn (dvd_length_take (l := l))
  rwa [← List.append_assoc, take_append_rest] at hsplit

theorem whole_block (hn : 0 < n) (h : l.length = n) :
    whole f n s (l ++ m) = whole f n (f s l) m := by
  have hone : whole f n s l = f s l := by
    rw [whole, h, Nat.div_self hn, afterBlocks, afterBlocks, List.take_of_length_le (by omega)]
  rw [whole_append_of_dvd hn (h ▸ Nat.dvd_refl _), hone]

theorem rest_block (hn : 0 < n) (h : l.length = n) : rest n (l ++ m) = rest n m :=
  rest_append_of_dvd hn (h ▸ Nat.dvd_refl _)

end Lemmas

end BlockStream
