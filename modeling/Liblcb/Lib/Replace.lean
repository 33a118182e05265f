import Mathlib.Data.List.Basic
import Mathlib.Data.List.Infix

/-!
# Replacing patterns in a text

A text is gone over once.  Where a rule is picked, its pattern is left out, its replacement is put
in, and the search goes on behind the pattern; elsewhere an element is kept.  Which rule is picked
may depend on a state, as where two patterns begin at one place.
-/

namespace Replace

variable {α σ : Type}

structure Rule (α : Type) where
  pat : List α
  new : List α
  deriving DecidableEq

/-- What is kept in front of a pattern, and the rule of the pattern. -/
structure Piece (α : Type) where
  kept : List α
  rule : Rule α

/-- A text in pieces, and what is kept behind the last of them. -/
structure Split (α : Type) where
  pieces : List (Piece α)
  tail : List α

def Piece.source (p : Piece α) : List α := p.kept ++ p.rule.pat

def Piece.target (p : Piece α) : List α := p.kept ++ p.rule.new

def Split.source (s : Split α) : List α := s.pieces.flatMap Piece.source ++ s.tail

def Split.target (s : Split α) : List α := s.pieces.flatMap Piece.target ++ s.tail

/-- Goes over a text; the next elements, as many as the number says, belong to a pattern. -/
def split (pick : σ → List α → Option (σ × Rule α)) : σ → List α → Nat → List α → Split α
  | _, kept, _, [] => ⟨[], kept⟩
  | st, kept, skip + 1, _ :: text => split pick st kept skip text
  | st, kept, 0, a :: text =>
    match pick st (a :: text) with
    | none => split pick st (kept ++ [a]) 0 text
    | some (st', r) =>
      let rest := split pick st' [] (r.pat.length - 1) text
      ⟨⟨kept, r⟩ :: rest.pieces, rest.tail⟩

/-! ## Going over a text -/

section Split

variable {pick : σ → List α → Option (σ × Rule α)} {st st' : σ} {kept text : List α} {r : Rule α}

theorem split_nil (skip : Nat) : split pick st kept skip [] = ⟨[], kept⟩ := by
  cases skip with
  | zero => rfl
  | succ skip => rfl

theorem split_drop : ∀ (skip : Nat) (text : List α),
    split pick st kept skip text = split pick st kept 0 (text.drop skip)
  | 0, _ => rfl
  | _ + 1, [] => rfl
  | skip + 1, _ :: text => split_drop skip text

theorem split_skip : ∀ (n : Nat) (kept text : List α), n ≤ text.length →
    (∀ k < n, pick st (text.drop k) = none) →
    split pick st kept 0 text = split pick st (kept ++ text.take n) 0 (text.drop n)
  | 0, kept, text, _, _ => by rw [List.take_zero, List.append_nil, List.drop_zero]
  | n + 1, kept, [], hn, _ => absurd hn (Nat.not_succ_le_zero n)
  | n + 1, kept, a :: text, hn, hnone => by
    have hhere : pick st (a :: text) = none := hnone 0 (Nat.succ_pos n)
    have hrest : ∀ k < n, pick st (text.drop k) = none :=
      fun k hk => hnone (k + 1) (Nat.succ_lt_succ hk)
    rw [split, hhere]
    dsimp only
    rw [split_skip n _ _ (Nat.le_of_succ_le_succ hn) hrest, List.take_succ_cons,
      List.append_assoc, List.drop_succ_cons]
    rfl

theorem split_none (hnone : ∀ k, pick st (text.drop k) = none) :
    split pick st kept 0 text = ⟨[], kept ++ text⟩ := by
  rw [split_skip text.length _ _ (Nat.le_refl _) fun k _ => hnone k, List.take_length,
    List.drop_length, split_nil]

/-- The rules that are picked stand where they are picked. -/
def Sound (pick : σ → List α → Option (σ × Rule α)) : Prop :=
  ∀ st text st' r, pick st text = some (st', r) → r.pat ≠ [] ∧ r.pat <+: text

theorem split_some (hsound : Sound pick) (hpick : pick st text = some (st', r)) :
    split pick st kept 0 text =
      ⟨⟨kept, r⟩ :: (split pick st' [] 0 (text.drop r.pat.length)).pieces,
        (split pick st' [] 0 (text.drop r.pat.length)).tail⟩ := by
  rcases hsound _ _ _ _ hpick with ⟨hne, hpre⟩
  have hpos := List.length_pos_iff.mpr hne
  cases text with
  | nil => exact absurd (List.prefix_nil.mp hpre) hne
  | cons a text =>
    obtain ⟨n, hn⟩ : ∃ n, r.pat.length = n + 1 := ⟨r.pat.length - 1, by omega⟩
    rw [split, hpick]
    dsimp only
    rw [hn, Nat.add_sub_cancel, split_drop, List.drop_succ_cons]

theorem source_split (hsound : Sound pick) : ∀ (n : Nat) (st : σ) (kept text : List α),
    text.length ≤ n → (split pick st kept 0 text).source = kept ++ text
  | _, st, kept, [], _ => by rw [split_nil, Split.source, List.flatMap_nil, List.nil_append,
      List.append_nil]
  | 0, _, _, _ :: _, hn => absurd hn (Nat.not_succ_le_zero _)
  | n + 1, st, kept, a :: text, hn => by
    have hlen : text.length ≤ n := Nat.le_of_succ_le_succ hn
    cases hpick : pick st (a :: text) with
    | none =>
      have hstep : split pick st kept 0 (a :: text) = split pick st (kept ++ [a]) 0 text := by
        rw [split, hpick]
      rw [hstep, source_split hsound n st _ text hlen, List.append_assoc, List.singleton_append]
    | some res =>
      rcases res with ⟨st', r⟩
      rcases hsound _ _ _ _ hpick with ⟨hne, hpre⟩
      have hpos := List.length_pos_iff.mpr hne
      have hrest := source_split hsound n st' [] ((a :: text).drop r.pat.length) (by
        rw [List.length_drop, List.length_cons]
        omega)
      rw [List.nil_append, Split.source] at hrest
      rw [split_some hsound hpick, Split.source, List.flatMap_cons, List.append_assoc, hrest,
        Piece.source, List.append_assoc]
      congr 1
      exact List.prefix_iff_eq_append.mp hpre

theorem rule_split (P : Rule α → Prop)
    (hP : ∀ st text st' r, pick st text = some (st', r) → P r) :
    ∀ (text kept : List α) (st : σ) (skip : Nat),
      ∀ p ∈ (split pick st kept skip text).pieces, P p.rule
  | [], kept, st, skip, p, hp => by
    rw [split_nil] at hp
    cases hp
  | _ :: text, kept, st, skip + 1, p, hp => rule_split P hP text kept st skip p hp
  | a :: text, kept, st, 0, p, hp => by
    rw [split] at hp
    cases hpick : pick st (a :: text) with
    | none =>
      rw [hpick] at hp
      exact rule_split P hP text (kept ++ [a]) st 0 p hp
    | some res =>
      rcases res with ⟨st', r⟩
      rw [hpick] at hp
      rcases List.mem_cons.mp hp with rfl | hp
      · exact hP _ _ _ _ hpick
      · exact rule_split P hP text [] st' (r.pat.length - 1) p hp

theorem target_kept : ∀ (text pre kept : List α) (st : σ) (skip : Nat),
    (split pick st (pre ++ kept) skip text).target = pre ++ (split pick st kept skip text).target
  | [], pre, kept, st, skip => by
    rw [split_nil, split_nil]
    rfl
  | a :: text, pre, kept, st, skip + 1 => target_kept text pre kept st skip
  | a :: text, pre, kept, st, 0 => by
    rw [split, split]
    cases hpick : pick st (a :: text) with
    | none =>
      dsimp only
      rw [List.append_assoc, target_kept text pre (kept ++ [a]) st 0]
    | some res =>
      dsimp only
      rw [Split.target, Split.target, List.flatMap_cons, List.flatMap_cons, Piece.target,
        Piece.target]
      simp only [List.append_assoc]

theorem target_none {a : α} (hpick : pick st (a :: text) = none) :
    (split pick st [] 0 (a :: text)).target = a :: (split pick st [] 0 text).target := by
  rw [split, hpick]
  exact target_kept text [a] [] st 0

theorem target_some (hsound : Sound pick) (hpick : pick st text = some (st', r)) :
    (split pick st [] 0 text).target =
      r.new ++ (split pick st' [] 0 (text.drop r.pat.length)).target := by
  rw [split_some hsound hpick, Split.target, List.flatMap_cons, List.append_assoc]
  rfl

end Split

/-! ## Which rule is picked -/

section Applies

variable {table : List (Rule α)} {text : List α} {r : Rule α} {i : Nat}

/-- The rule's pattern stands at the head of the text.  An empty pattern stands nowhere. -/
def Rule.Applies (r : Rule α) (text : List α) : Prop := r.pat ≠ [] ∧ r.pat <+: text

/-- No pattern begins with another one, so that at most one of them stands at a place. -/
def PrefixFree (table : List (Rule α)) : Prop :=
  ∀ (i j : Nat) (r r' : Rule α), table[i]? = some r → table[j]? = some r' →
    r.pat <+: r'.pat → i = j

theorem PrefixFree.eq_of_applies (hfree : PrefixFree table) {j : Nat} {r' : Rule α}
    (hr : table[i]? = some r) (hr' : table[j]? = some r') (happ : r.Applies text)
    (happ' : r'.Applies text) : i = j := by
  rcases List.prefix_or_prefix_of_prefix happ.2 happ'.2 with hle | hle
  · exact hfree i j r r' hr hr' hle
  · exact (hfree j i r' r hr' hr hle).symm

theorem prefixFree_of_pairwise
    (h : table.Pairwise fun r r' => ¬ r.pat <+: r'.pat ∧ ¬ r'.pat <+: r.pat) :
    PrefixFree table := by
  rw [List.pairwise_iff_getElem] at h
  intro i j r r' hr hr' hpre
  obtain ⟨hi, rfl⟩ := List.getElem?_eq_some_iff.mp hr
  obtain ⟨hj, rfl⟩ := List.getElem?_eq_some_iff.mp hr'
  rcases Nat.lt_trichotomy i j with hlt | heq | hgt
  · exact absurd hpre (h i j hi hj hlt).1
  · exact heq
  · exact absurd hpre (h j i hj hi hgt).2

end Applies

section Pick

variable [DecidableEq α] {table : List (Rule α)} {text : List α} {r : Rule α} {i last : Nat}

instance (r : Rule α) (text : List α) : Decidable (r.Applies text) :=
  inferInstanceAs (Decidable (_ ∧ _))

/-- The first rule of the table that applies. -/
def lowest (table : List (Rule α)) (_ : Nat) (text : List α) : Option (Nat × Rule α) :=
  (table.findIdx? (·.Applies text)).bind fun i => table[i]?.map (i, ·)

/-- The rule that was picked last where it applies, else the first one that does. -/
def sticky (table : List (Rule α)) (last : Nat) (text : List α) : Option (Nat × Rule α) :=
  match table[last]? with
  | none => lowest table last text
  | some r => if r.Applies text then some (last, r) else lowest table last text

theorem lowest_eq_none : lowest table last text = none ↔ ∀ r ∈ table, ¬ r.Applies text := by
  unfold lowest
  cases hidx : table.findIdx? (·.Applies text) with
  | none =>
    rw [List.findIdx?_eq_none_iff] at hidx
    exact iff_of_true rfl fun r hr h => absurd (hidx r hr) (by simp [h])
  | some i =>
    obtain ⟨hi, happ, -⟩ := List.findIdx?_eq_some_iff_getElem.mp hidx
    rw [Option.bind_some, List.getElem?_eq_getElem hi]
    refine iff_of_false (fun h => by cases h) fun h => ?_
    exact h _ (List.getElem_mem hi) (of_decide_eq_true happ)

theorem lowest_eq_some : lowest table last text = some (i, r) ↔
    table[i]? = some r ∧ r.Applies text ∧
      ∀ j < i, ∀ r', table[j]? = some r' → ¬ r'.Applies text := by
  unfold lowest
  constructor
  · intro h
    rw [Option.bind_eq_some_iff] at h
    obtain ⟨k, hk, hr⟩ := h
    obtain ⟨hlt, happ, hbefore⟩ := List.findIdx?_eq_some_iff_getElem.mp hk
    rw [List.getElem?_eq_getElem hlt] at hr
    cases hr
    refine ⟨List.getElem?_eq_getElem hlt, of_decide_eq_true happ, ?_⟩
    intro j hj r' hr' happ'
    obtain ⟨hjlt, rfl⟩ := List.getElem?_eq_some_iff.mp hr'
    have hno := hbefore j hj
    rw [decide_eq_true happ'] at hno
    exact absurd rfl hno
  · rintro ⟨hr, happ, hbefore⟩
    obtain ⟨hlt, rfl⟩ := List.getElem?_eq_some_iff.mp hr
    have hidx : table.findIdx? (·.Applies text) = some i := by
      rw [List.findIdx?_eq_some_iff_getElem]
      refine ⟨hlt, decide_eq_true happ, fun j hj => ?_⟩
      rw [decide_eq_true_eq]
      exact hbefore j hj _ (List.getElem?_eq_getElem (Nat.lt_trans hj hlt))
    rw [hidx, Option.bind_some, hr]
    rfl

theorem sticky_of_last (hr : table[last]? = some r) (happ : r.Applies text) :
    sticky table last text = some (last, r) := by
  rw [sticky, hr]
  exact if_pos happ

theorem sticky_of_not (h : ∀ r, table[last]? = some r → ¬ r.Applies text) :
    sticky table last text = lowest table last text := by
  unfold sticky
  cases hr : table[last]? with
  | none => rfl
  | some r => exact if_neg (h r hr)

theorem sticky_eq_none : sticky table last text = none ↔ ∀ r ∈ table, ¬ r.Applies text := by
  rw [← @lowest_eq_none _ _ table text last]
  by_cases hlast : ∃ r, table[last]? = some r ∧ r.Applies text
  · obtain ⟨r, hr, happ⟩ := hlast
    rw [sticky_of_last hr happ, lowest_eq_none]
    refine iff_of_false (fun h => by cases h) fun h => h r (List.mem_of_getElem? hr) happ
  · rw [sticky_of_not fun r hr happ => hlast ⟨r, hr, happ⟩]

theorem sound_lowest : Sound (lowest table) := by
  intro last text i r h
  exact (lowest_eq_some.mp h).2.1

theorem sound_sticky : Sound (sticky table) := by
  intro last text i r h
  by_cases hlast : ∃ r, table[last]? = some r ∧ r.Applies text
  · obtain ⟨r', hr, happ⟩ := hlast
    rw [sticky_of_last hr happ] at h
    cases h
    exact happ
  · rw [sticky_of_not fun r hr happ => hlast ⟨r, hr, happ⟩] at h
    exact sound_lowest _ _ _ _ h

theorem lowest_mem (h : lowest table last text = some (i, r)) : r ∈ table :=
  List.mem_of_getElem? (lowest_eq_some.mp h).1

theorem PrefixFree.lowest_eq (hfree : PrefixFree table) (last : Nat) (hr : r ∈ table)
    (happ : r.Applies text) : ∃ i, lowest table last text = some (i, r) := by
  obtain ⟨i, hi⟩ := List.getElem?_of_mem hr
  refine ⟨i, lowest_eq_some.mpr ⟨hi, happ, fun j hj r' hr' happ' => ?_⟩⟩
  exact absurd (hfree.eq_of_applies hr' hi happ' happ) (Nat.ne_of_lt hj)

theorem PrefixFree.sticky_eq (hfree : PrefixFree table) : sticky table = lowest table := by
  funext last text
  by_cases hlast : ∃ r, table[last]? = some r ∧ r.Applies text
  · obtain ⟨r, hr, happ⟩ := hlast
    rw [sticky_of_last hr happ, eq_comm, lowest_eq_some]
    refine ⟨hr, happ, fun j hj r' hr' happ' => ?_⟩
    exact absurd (hfree.eq_of_applies hr' hr happ' happ) (Nat.ne_of_lt hj)
  · exact sticky_of_not fun r hr happ => hlast ⟨r, hr, happ⟩

end Pick

end Replace
