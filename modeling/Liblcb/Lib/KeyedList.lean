import Mathlib.Data.List.Basic

/-!
# Lists without repetitions

A list is kept free of items that are the same under a relation: an item like one of the list changes
that one, any other item goes to the end.  The relation need not be reflexive: an item that is not the
same as itself is never found again.
-/

namespace KeyedList

variable {α : Type}

/-- A comparison that is symmetric and transitive. -/
structure IsKey (same : α → α → Bool) : Prop where
  symm : ∀ a b, same a b = true → same b a = true
  trans : ∀ a b c, same a b = true → same b c = true → same a c = true

/-- No two items are the same. -/
def Distinct (same : α → α → Bool) (l : List α) : Prop := l.Pairwise fun a b => same a b = false

/-- `x` changes the first item it is the same as, or goes to the end. -/
def put (same : α → α → Bool) (change : α → α → α) (x : α) : List α → List α
  | [] => [x]
  | y :: l => if same y x then change x y :: l else y :: put same change x l

section

variable {same : α → α → Bool} {change : α → α → α} {l : List α} {x z : α}

theorem distinct_nil : Distinct same [] := .nil

theorem Distinct.filter (h : Distinct same l) (p : α → Bool) : Distinct same (l.filter p) :=
  List.Pairwise.filter p h

theorem IsKey.comm (hkey : IsKey same) (a b : α) : same a b = same b a := by
  rw [Bool.eq_iff_iff]
  exact ⟨hkey.symm a b, hkey.symm b a⟩

theorem put_eq_modify : ∀ {l : List α} {j : Nat}, l.findIdx? (same · x) = some j →
    put same change x l = l.modify j (change x)
  | [], _, h => by cases h
  | y :: l, j, h => by
    rw [List.findIdx?_cons] at h
    rw [put]
    by_cases hyx : same y x = true
    · rw [if_pos hyx, Option.some.injEq] at h
      rw [if_pos hyx, ← h, List.modify_zero_cons]
    · rw [if_neg hyx, Option.map_eq_some_iff] at h
      rcases h with ⟨i, hi, rfl⟩
      rw [if_neg hyx, put_eq_modify hi, List.modify_succ_cons]

theorem put_eq_concat : ∀ {l : List α}, l.findIdx? (same · x) = none →
    put same change x l = l ++ [x]
  | [], _ => rfl
  | y :: l, h => by
    rw [List.findIdx?_eq_none_iff, List.forall_mem_cons] at h
    rw [put, if_neg (Bool.eq_false_iff.mp h.1), List.cons_append,
      put_eq_concat (List.findIdx?_eq_none_iff.mpr h.2)]

theorem length_put_le : ∀ {l : List α}, (put same change x l).length ≤ l.length + 1
  | [] => Nat.le_refl 1
  | y :: l => by
    rw [put]
    split
    · exact Nat.le_succ _
    · exact Nat.succ_le_succ length_put_le

theorem length_foldl_put_le : ∀ {xs l : List α},
    (xs.foldl (fun l x => put same change x l) l).length ≤ l.length + xs.length
  | [], _ => Nat.le_refl _
  | x :: xs, l => by
    have hone := @length_put_le _ same change x l
    have hrest := @length_foldl_put_le xs (put same change x l)
    rw [List.foldl_cons, List.length_cons]
    omega

theorem mem_put_imp : ∀ {l : List α}, z ∈ put same change x l →
    z ∈ l ∨ z = x ∨ ∃ y ∈ l, same y x = true ∧ z = change x y
  | [], h => by
    rw [put, List.mem_singleton] at h
    exact .inr (.inl h)
  | y :: l, h => by
    rw [put] at h
    by_cases hyx : same y x = true
    · rw [if_pos hyx, List.mem_cons] at h
      rcases h with hz | hz
      · exact .inr (.inr ⟨y, List.mem_cons_self, hyx, hz⟩)
      · exact .inl (List.mem_cons_of_mem y hz)
    · rw [if_neg hyx, List.mem_cons] at h
      rcases h with hz | hz
      · exact .inl (hz ▸ List.mem_cons_self)
      · rcases mem_put_imp hz with hl | hx | ⟨c, hc, hcx, hz⟩
        · exact .inl (List.mem_cons_of_mem y hl)
        · exact .inr (.inl hx)
        · exact .inr (.inr ⟨c, List.mem_cons_of_mem y hc, hcx, hz⟩)

theorem distinct_put (hkey : IsKey same)
    (hchange : ∀ y z, same y x = true → same (change x y) z = same y z) :
    ∀ {l : List α}, Distinct same l → Distinct same (put same change x l)
  | [], _ => List.pairwise_singleton _ _
  | y :: l, h => by
    rcases List.pairwise_cons.mp h with ⟨hy, hl⟩
    rw [put]
    by_cases hyx : same y x = true
    · rw [if_pos hyx]
      apply List.Pairwise.cons
      · intro b hb
        rw [hchange y b hyx]
        exact hy b hb
      · exact hl
    · rw [if_neg hyx]
      apply List.Pairwise.cons
      · intro b hb
        rcases mem_put_imp hb with hb | hb | ⟨c, hc, hcx, hb⟩
        · exact hy b hb
        · rw [hb]
          exact Bool.eq_false_iff.mpr hyx
        · rw [hb, hkey.comm, hchange c y hcx, hkey.comm]
          exact hy c hc
      · exact distinct_put hkey hchange hl

theorem distinct_foldl_put (hkey : IsKey same)
    (hkeep : ∀ x y z, same y x = true → same (change x y) z = same y z) :
    ∀ {xs l : List α}, Distinct same l →
      Distinct same (xs.foldl (fun l x => put same change x l) l)
  | [], _, h => h
  | x :: _, _, h => by
    rw [List.foldl_cons]
    exact distinct_foldl_put hkey hkeep (distinct_put hkey (hkeep x) h)

end

/-! ## An item like one of the list is dropped -/

/-- `x` goes to the end when the list has nothing like it. -/
def add (same : α → α → Bool) (l : List α) (x : α) : List α :=
  if l.any (same · x) then l else l ++ [x]

variable {same : α → α → Bool} {l : List α} {x w : α}

theorem distinct_concat (h : Distinct same l) (hx : l.any (same · x) = false) :
    Distinct same (l ++ [x]) := by
  rw [List.any_eq_false] at hx
  refine List.pairwise_append.mpr ⟨h, List.pairwise_singleton _ _, ?_⟩
  intro a ha b hb
  rw [List.mem_singleton.mp hb]
  exact Bool.eq_false_iff.mpr (hx a ha)

theorem distinct_add (h : Distinct same l) : Distinct same (add same l x) := by
  rw [add]
  split
  · exact h
  · next hx => exact distinct_concat h (Bool.eq_false_iff.mpr hx)

theorem exists_mem_add (hkey : IsKey same) :
    (∃ a ∈ add same l x, same a w = true) ↔ (∃ a ∈ l, same a w = true) ∨ same x w = true := by
  rw [add]
  split
  · next hx =>
      rw [List.any_eq_true] at hx
      rcases hx with ⟨a, ha, hax⟩
      refine ⟨Or.inl, ?_⟩
      intro h
      rcases h with h | hxw
      · exact h
      · exact ⟨a, ha, hkey.trans a x w hax hxw⟩
  · constructor
    · intro h
      rcases h with ⟨a, ha, haw⟩
      rcases List.mem_append.mp ha with ha | ha
      · exact .inl ⟨a, ha, haw⟩
      · rw [List.mem_singleton.mp ha] at haw
        exact .inr haw
    · intro h
      rcases h with ⟨a, ha, haw⟩ | hxw
      · exact ⟨a, List.mem_append_left _ ha, haw⟩
      · exact ⟨x, List.mem_append_right _ (List.mem_singleton_self x), hxw⟩

end KeyedList
