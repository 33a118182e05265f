import Mathlib.Data.List.Basic

/-!
# Buffers

A buffer is the list of its bytes.  A write past the end has no outcome: `put` is one byte, `putAll`
is a run of bytes in order.  `splice` says what a run of writes leaves behind, and is what the
proofs compute with.
-/

namespace Buffer

variable {α : Type}

/-- The buffer after `bs` has been written at `pos`. -/
def splice (buf : List α) (pos : Nat) (bs : List α) : List α :=
  buf.take pos ++ bs ++ buf.drop (pos + bs.length)

/-- `buf[pos] = b`. -/
def put (buf : List α) (pos : Nat) (b : α) : Option (List α) :=
  if pos < buf.length then some (buf.set pos b) else none

/-- Writes the items of `bs` from `pos` on. -/
def putAll (buf : List α) (pos : Nat) : List α → Option (List α)
  | [] => some buf
  | b :: bs => do
    let buf ← put buf pos b
    putAll buf (pos + 1) bs

@[simp] theorem splice_nil (buf : List α) (pos : Nat) : splice buf pos [] = buf := by
  rw [splice, List.append_nil, List.length_nil, Nat.add_zero, List.take_append_drop]

theorem length_splice {buf bs : List α} {pos : Nat} (h : pos + bs.length ≤ buf.length) :
    (splice buf pos bs).length = buf.length := by
  rw [splice, List.length_append, List.length_append, List.length_take, List.length_drop]
  omega

theorem getElem?_splice_of_ge {buf bs : List α} {pos i : Nat} (h : pos + bs.length ≤ buf.length)
    (hi : pos + bs.length ≤ i) : (splice buf pos bs)[i]? = buf[i]? := by
  have hlen : (buf.take pos ++ bs).length = pos + bs.length := by
    rw [List.length_append, List.length_take]
    omega
  rw [splice, List.getElem?_append_right (by omega), hlen, List.getElem?_drop]
  congr 1
  omega

theorem getElem?_splice_of_lt {buf bs : List α} {pos i : Nat} (h : pos + bs.length ≤ buf.length)
    (hi : i < pos) : (splice buf pos bs)[i]? = buf[i]? := by
  have htake : (buf.take pos).length = pos := by
    rw [List.length_take]
    omega
  rw [splice, List.append_assoc, List.getElem?_append_left (by omega), List.getElem?_take,
    if_pos hi]

theorem getElem?_splice_of_mem {buf bs : List α} {pos i : Nat} (h : pos + bs.length ≤ buf.length)
    (hi : i < bs.length) : (splice buf pos bs)[pos + i]? = bs[i]? := by
  have htake : (buf.take pos).length = pos := by
    rw [List.length_take]
    omega
  rw [splice, List.append_assoc, List.getElem?_append_right (by omega), htake,
    Nat.add_sub_cancel_left, List.getElem?_append_left hi]

theorem take_splice {buf bs : List α} {pos : Nat} (h : pos ≤ buf.length) :
    (splice buf pos bs).take (pos + bs.length) = buf.take pos ++ bs := by
  have hlen : (buf.take pos ++ bs).length = pos + bs.length := by
    rw [List.length_append, List.length_take]
    omega
  rw [splice, ← hlen, List.take_left]

theorem take_splice_left {buf bs : List α} {pos : Nat} (h : pos ≤ buf.length) :
    (splice buf pos bs).take pos = buf.take pos := by
  rw [splice, List.append_assoc, List.take_append_of_le_length, List.take_take, Nat.min_self]
  rw [List.length_take]
  omega

theorem splice_splice {buf as bs : List α} {pos : Nat} (h : pos + as.length ≤ buf.length) :
    splice (splice buf pos as) (pos + as.length) bs = splice buf pos (as ++ bs) := by
  have hlen : (buf.take pos ++ as).length = pos + as.length := by
    rw [List.length_append, List.length_take]
    omega
  have hdrop : (splice buf pos as).drop (pos + as.length + bs.length) =
      buf.drop (pos + (as ++ bs).length) := by
    rw [splice, List.drop_append, List.drop_eq_nil_of_le (by omega), List.nil_append, hlen,
      List.drop_drop, List.length_append]
    congr 1
    omega
  rw [splice, take_splice (by omega), hdrop, splice, List.append_assoc (buf.take pos)]

theorem splice_over {buf as bs : List α} {pos : Nat} (hpos : pos ≤ buf.length)
    (h : bs.length ≤ as.length) :
    splice (splice buf pos as) pos bs = splice buf pos (bs ++ as.drop bs.length) := by
  have hlen : (buf.take pos).length = pos := by
    rw [List.length_take]
    omega
  have htake : (splice buf pos as).take pos = buf.take pos := by
    rw [splice, List.append_assoc, List.take_left' hlen]
  have hdrop : (splice buf pos as).drop (pos + bs.length) =
      as.drop bs.length ++ buf.drop (pos + as.length) := by
    rw [splice, List.append_assoc, ← List.drop_drop, List.drop_left' hlen,
      List.drop_append_of_le_length h]
  have hall : pos + (bs ++ as.drop bs.length).length = pos + as.length := by
    rw [List.length_append, List.length_drop]
    omega
  rw [splice, htake, hdrop, splice, hall]
  simp only [List.append_assoc]

theorem splice_over_end {buf as bs cs : List α} {pos : Nat} (h : bs.length = cs.length)
    (hroom : pos + (as ++ bs).length ≤ buf.length) :
    splice (splice buf pos (as ++ bs)) (pos + as.length) cs = splice buf pos (as ++ cs) := by
  have hfirst : pos + as.length ≤ buf.length := by
    rw [List.length_append] at hroom
    omega
  rw [← splice_splice hfirst, ← splice_splice hfirst]
  have hover := @splice_over _ (splice buf pos as) bs cs (pos + as.length)
    (by rw [length_splice hfirst]; exact hfirst) (Nat.le_of_eq h.symm)
  rw [hover, ← h, List.drop_length, List.append_nil]

theorem splice_before {buf as bs : List α} {pos : Nat}
    (h : pos + bs.length + as.length ≤ buf.length) :
    splice (splice buf (pos + bs.length) as) pos bs = splice buf pos (bs ++ as) := by
  have htake : (splice buf (pos + bs.length) as).take pos = buf.take pos := by
    rw [splice, List.append_assoc, List.take_append_of_le_length, List.take_take,
      Nat.min_eq_left (Nat.le_add_right _ _)]
    rw [List.length_take]
    omega
  have hlen : (buf.take (pos + bs.length)).length = pos + bs.length := by
    rw [List.length_take]
    omega
  have hdrop : (splice buf (pos + bs.length) as).drop (pos + bs.length) =
      as ++ buf.drop (pos + bs.length + as.length) := by
    rw [splice, List.append_assoc, List.drop_left' hlen]
  rw [splice, htake, hdrop, splice, List.length_append, ← Nat.add_assoc]
  simp only [List.append_assoc]

theorem put_eq {buf : List α} {pos : Nat} (b : α) (h : pos < buf.length) :
    put buf pos b = some (splice buf pos [b]) := by
  rw [put, if_pos h, splice, List.length_singleton, List.set_eq_take_append_cons_drop, if_pos h,
    List.append_assoc, List.singleton_append]

theorem put_none {buf : List α} {pos : Nat} (b : α) (h : buf.length ≤ pos) :
    put buf pos b = none := if_neg (by omega)

theorem putAll_eq : ∀ {buf : List α} {pos : Nat} {bs : List α}, pos + bs.length ≤ buf.length →
    putAll buf pos bs = some (splice buf pos bs)
  | buf, pos, [], _ => by rw [putAll, splice_nil]
  | buf, pos, b :: bs, h => by
    rw [List.length_cons] at h
    have hlen : pos + [b].length ≤ buf.length := by
      rw [List.length_singleton]
      omega
    have hrest : pos + 1 + bs.length ≤ (splice buf pos [b]).length := by
      rw [length_splice hlen]
      omega
    rw [putAll, put_eq b (by omega), Option.bind_eq_bind, Option.bind_some, putAll_eq hrest]
    exact congrArg some (splice_splice hlen)

theorem putAll_none : ∀ {buf : List α} {pos : Nat} {bs : List α}, bs ≠ [] →
    buf.length < pos + bs.length → putAll buf pos bs = none
  | _, _, [], hne, _ => absurd rfl hne
  | buf, pos, b :: bs, _, h => by
    rw [List.length_cons] at h
    rw [putAll, Option.bind_eq_bind]
    by_cases hpos : pos < buf.length
    · have hlen : (splice buf pos [b]).length = buf.length := by
        apply length_splice
        rw [List.length_singleton]
        omega
      have hrest : bs ≠ [] := by
        rintro rfl
        rw [List.length_nil] at h
        omega
      rw [put_eq b hpos, Option.bind_some, putAll_none hrest (by omega)]
    · rw [put_none b (by omega), Option.bind_none]

theorem put_some {buf buf' : List α} {pos : Nat} {b : α} (h : put buf pos b = some buf') :
    pos < buf.length ∧ buf'.length = buf.length := by
  by_cases hpos : pos < buf.length
  · rw [put, if_pos hpos] at h
    cases h
    exact ⟨hpos, List.length_set⟩
  · rw [put_none b (Nat.le_of_not_lt hpos)] at h
    cases h

theorem putAll_some {buf buf' bs : List α} {pos : Nat} (h : putAll buf pos bs = some buf') :
    buf'.length = buf.length ∧ (bs = [] ∨ pos + bs.length ≤ buf.length) := by
  by_cases hfit : pos + bs.length ≤ buf.length
  · rw [putAll_eq hfit] at h
    cases h
    exact ⟨length_splice hfit, .inr hfit⟩
  · by_cases hnil : bs = []
    · rw [hnil] at h
      cases h
      exact ⟨rfl, .inl hnil⟩
    · rw [putAll_none hnil (Nat.lt_of_not_le hfit)] at h
      cases h

theorem putAll_prefix {buf done bs : List α} (h : done <+: buf)
    (hfit : done.length + bs.length ≤ buf.length) :
    ∃ buf', putAll buf done.length bs = some buf' ∧ done ++ bs <+: buf' ∧
      buf'.length = buf.length := by
  have htake : (splice buf done.length bs).take (done ++ bs).length = done ++ bs := by
    rw [List.length_append, take_splice h.length_le, ← List.prefix_iff_eq_take.mp h]
  exact ⟨_, putAll_eq hfit, List.prefix_iff_eq_take.mpr htake.symm, length_splice hfit⟩

theorem putAll_singleton (buf : List α) (pos : Nat) (b : α) : putAll buf pos [b] = put buf pos b := by
  rw [putAll]
  cases put buf pos b <;> rfl

theorem put_prefix {buf as bs : List α} {a : α} (b : α) (h : as ++ a :: bs <+: buf) :
    ∃ buf', put buf as.length b = some buf' ∧ as ++ b :: bs <+: buf' ∧
      buf'.length = buf.length := by
  obtain ⟨rest, rfl⟩ := h
  have hlt : as.length < (as ++ a :: bs ++ rest).length := by
    rw [List.length_append, List.length_append, List.length_cons]
    omega
  refine ⟨_, if_pos hlt, ⟨rest, ?_⟩, List.length_set⟩
  rw [List.append_assoc, List.append_assoc, List.set_append_right _ _ (Nat.le_refl _),
    Nat.sub_self]
  rfl

theorem take_drop_splice_of_disjoint {buf bs : List α} {pos q n : Nat}
    (h : pos + bs.length ≤ buf.length) (hdis : q + n ≤ pos ∨ pos + bs.length ≤ q) :
    ((splice buf pos bs).drop q).take n = (buf.drop q).take n := by
  apply List.ext_getElem?
  intro i
  rw [List.getElem?_take, List.getElem?_take, List.getElem?_drop, List.getElem?_drop]
  by_cases hi : i < n
  · rw [if_pos hi, if_pos hi]
    rcases hdis with hlt | hge
    · exact getElem?_splice_of_lt h (by omega)
    · exact getElem?_splice_of_ge h (by omega)
  · rw [if_neg hi, if_neg hi]

theorem take_drop_splice {buf bs : List α} {pos : Nat} (h : pos + bs.length ≤ buf.length) :
    ((splice buf pos bs).drop pos).take bs.length = bs := by
  have htake : (buf.take pos).length = pos := by
    rw [List.length_take]
    omega
  rw [splice, List.append_assoc, List.drop_left' htake, List.take_left]

theorem splice_zero {buf bs : List α} (h : buf.length = bs.length) : splice buf 0 bs = bs := by
  rw [splice, List.take_zero, List.nil_append, Nat.zero_add, ← h, List.drop_length,
    List.append_nil]

end Buffer
