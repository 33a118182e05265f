import Mathlib.Data.List.Basic
import Mathlib.Data.Nat.Find

/-!
# Looking for a pattern

A scan tries one place of the stream after the other.  Every place it has left behind has a clash,
a position where stream and pattern differ; from the place it is at the two agree as far as it has
looked.
-/

namespace Matching

variable {α : Type} {p s : List α} {i n start off : Nat}

/-- The pattern stands at `i`, and at no place before. -/
def First (p s : List α) (i : Nat) : Prop := p <+: s.drop i ∧ ∀ k < i, ¬p <+: s.drop k

/-- A position where the stream from `i` on and the pattern differ. -/
def Clash (p s : List α) (i : Nat) : Prop :=
  ∃ j x y, s[i + j]? = some x ∧ p[j]? = some y ∧ x ≠ y

theorem prefix_drop_iff : p <+: s.drop i ↔ ∀ j < p.length, s[i + j]? = p[j]? := by
  rw [List.prefix_iff_getElem?]
  constructor
  · intro h j hj
    rw [← List.getElem?_drop, h j hj, List.getElem?_eq_getElem hj]
  · intro h j hj
    rw [List.getElem?_drop, h j hj, List.getElem?_eq_getElem hj]

theorem take_drop_eq_iff : (s.drop i).take n = p.take n ↔ ∀ j < n, s[i + j]? = p[j]? := by
  constructor
  · intro h j hj
    have hget := congrArg (·[j]?) h
    simp only [List.getElem?_take_of_lt hj, List.getElem?_drop] at hget
    exact hget
  · intro h
    apply List.ext_getElem?
    intro j
    by_cases hj : j < n
    · rw [List.getElem?_take_of_lt hj, List.getElem?_take_of_lt hj, List.getElem?_drop, h j hj]
    · rw [List.getElem?_take_eq_none (by omega), List.getElem?_take_eq_none (by omega)]

theorem Clash.append (h : Clash p s i) (t : List α) : Clash p (s ++ t) i := by
  rcases h with ⟨j, x, y, hx, hy, hne⟩
  refine ⟨j, x, y, ?_, hy, hne⟩
  obtain ⟨hj, -⟩ := List.getElem?_eq_some_iff.mp hx
  rw [List.getElem?_append_left hj, hx]

theorem Clash.excludes (h : Clash p s i) : ¬p <+: s.drop i := by
  rcases h with ⟨j, x, y, hx, hy, hne⟩
  intro hpre
  obtain ⟨hj, -⟩ := List.getElem?_eq_some_iff.mp hy
  rw [prefix_drop_iff.mp hpre j hj, hy] at hx
  injection hx with hx
  exact hne hx.symm

/-- A scan at `start` that has seen `off` elements of the pattern there. -/
structure Scan (p s : List α) (start off : Nat) : Prop where
  passed : ∀ i < start, Clash p s i
  agree : ∀ j < off, s[start + j]? = p[j]?
  le_pattern : off ≤ p.length
  le_stream : start + off ≤ s.length

namespace Scan

theorem nil (p : List α) : Scan p [] 0 0 where
  passed := fun _ h => absurd h (Nat.not_lt_zero _)
  agree := fun _ h => absurd h (Nat.not_lt_zero _)
  le_pattern := Nat.zero_le _
  le_stream := Nat.zero_le _

theorem append (h : Scan p s start off) (t : List α) : Scan p (s ++ t) start off where
  passed i hi := (h.passed i hi).append t
  agree j hj := by
    have := h.le_stream
    rw [List.getElem?_append_left (by omega), h.agree j hj]
  le_pattern := h.le_pattern
  le_stream := by
    have := h.le_stream
    rw [List.length_append]
    omega

theorem extend (h : Scan p s start off) (hagree : ∀ j, off ≤ j → j < off + n → s[start + j]? = p[j]?)
    (hp : off + n ≤ p.length) (hs : start + (off + n) ≤ s.length) :
    Scan p s start (off + n) where
  passed := h.passed
  agree j hj := by
    by_cases hlt : j < off
    · exact h.agree j hlt
    · exact hagree j (by omega) hj
  le_pattern := hp
  le_stream := hs

theorem move {start' off' : Nat} (h : Scan p s start off)
    (hclash : ∀ i, start ≤ i → i < start' → Clash p s i)
    (hagree : ∀ j < off', s[start' + j]? = p[j]?) (hp : off' ≤ p.length)
    (hs : start' + off' ≤ s.length) : Scan p s start' off' where
  passed i hi := by
    by_cases hlt : i < start
    · exact h.passed i hlt
    · exact hclash i (by omega) hi
  agree := hagree
  le_pattern := hp
  le_stream := hs

theorem first (h : Scan p s start p.length) : First p s start :=
  ⟨prefix_drop_iff.mpr h.agree, fun k hk => (h.passed k hk).excludes⟩

theorem le_of_first (h : Scan p s start off) {t : List α} (hfirst : First p (s ++ t) i) :
    start ≤ i := by
  by_contra hlt
  exact ((h.passed i (by omega)).append t).excludes hfirst.1

end Scan

theorem First.unique {k : Nat} (hi : First p s i) (hk : First p s k) : i = k := by
  rcases Nat.lt_trichotomy i k with hlt | heq | hgt
  · exact absurd hi.1 (hk.2 i hlt)
  · exact heq
  · exact absurd hk.1 (hi.2 k hgt)

theorem First.exists_le (h : p <+: s.drop i) : ∃ k ≤ i, First p s k := by
  classical
  have hex : ∃ k, p <+: s.drop k := ⟨i, h⟩
  exact ⟨Nat.find hex, Nat.find_le h, Nat.find_spec hex, fun k hk => Nat.find_min hex hk⟩

end Matching
