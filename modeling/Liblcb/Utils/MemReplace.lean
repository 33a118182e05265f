import Liblcb.Lib.Buffer
import Liblcb.Lib.Replace
import Liblcb.Utils.Mem
import Liblcb.Utils.Wire

/-!
# Replacing patterns in memory

`mem_replace_arr` of `utils/mem_utils.h`.  The loop keeps the next occurrence of every pattern and
looks again only for those it has gone past; `split` of the library is the text it takes apart, with
the pattern that was replaced last preferred where several begin at one place.  Before a pattern is
replaced, the room is checked for what stands in the source, not for what is written; the end of the
source is copied without a check.
-/

namespace MemReplace

open Buffer Mem Replace

abbrev Repl := Rule Byte

/-- What a call that returns 0 leaves behind. -/
structure Done where
  dst : List Byte
  dstSizeRet : Nat
  replaced : Nat
  deriving DecidableEq

/-- What the call has written. -/
def Done.text (d : Done) : List Byte := d.dst.take d.dstSizeRet

/-- The variables of the loop.  `founded` holds the next occurrences as offsets in the source. -/
structure Loop where
  founded : List (Option Nat)
  foundedCnt : Nat
  firstIdx : Nat
  srcCurPrev : Nat
  dst : List Byte
  dstCur : Nat
  retCount : Nat

/-- `mem_find`, as an offset. -/
def memFind (buf pat : List Byte) : Option Nat := if pat = [] then none else memmem pat buf

/-- `mem_find_ptr`, as an offset. -/
def memFindPtr (ptr : Nat) (buf pat : List Byte) : Option Nat :=
  if pat = [] ∨ buf.length ≤ ptr then none else memFindOff ptr buf pat

def earlier : Option Nat → Option Nat → Bool
  | none, _ => false
  | some _, none => true
  | some p, some q => p < q

def pickFirst (founded : List (Option Nat)) (firstIdx : Nat) : Nat :=
  (List.range founded.length).foldl (fun first i =>
    if earlier (founded.getD i none) (founded.getD first none) then i else first) firstIdx

/-- The loop that looks again for the patterns that have been gone past, and counts those that are
still there. -/
def refresh (src : List Byte) (srcCurPrev : Nat) :
    List Repl → List (Option Nat) → Nat → List (Option Nat) × Nat
  | r :: table, f :: founded, cnt =>
    if f.all (srcCurPrev ≤ ·) then
      let rest := refresh src srcCurPrev table founded cnt
      (f :: rest.1, rest.2)
    else
      let f := memFindPtr srcCurPrev src r.pat
      let rest := refresh src srcCurPrev table founded (if f = none then cnt - 1 else cnt)
      (f :: rest.1, rest.2)
  | _, _, cnt => ([], cnt)

def finish (src : List Byte) (s : Loop) : Option (Except Errno Done) := do
  let dst ← putAll s.dst s.dstCur (src.drop s.srcCurPrev)
  some (.ok ⟨dst, s.dstCur + (src.drop s.srcCurPrev).length, s.retCount⟩)

def replaceLoop (src : List Byte) (table : List Repl) : Nat → Loop → Option (Except Errno Done)
  | 0, _ => none
  | fuel + 1, s =>
    if s.foundedCnt = 0 then finish src s
    else
      let first := pickFirst s.founded s.firstIdx
      match s.founded.getD first none with
      | none => finish src s
      | some pos =>
        let r := table.getD first ⟨[], []⟩
        let i := pos - s.srcCurPrev
        if s.dst.length ≤ s.dstCur + (i + r.pat.length) then some (.error .enobufs)
        else do
          let dst ← putAll s.dst s.dstCur ((src.drop s.srcCurPrev).take i)
          let dst ← putAll dst (s.dstCur + i) r.new
          let prev := pos + r.pat.length
          let founded := refresh src prev table s.founded s.foundedCnt
          replaceLoop src table fuel ⟨founded.1, founded.2, first, prev, dst,
            s.dstCur + i + r.new.length, s.retCount + 1⟩

/-- `mem_replace_arr`: `none` where it writes behind the destination. -/
def memReplaceArr (src : List Byte) (table : List Repl) (tmpArr : Bool) (dst : List Byte) :
    Option (Except Errno Done) :=
  if 31 < table.length ∧ ¬ tmpArr then some (.error .einval)
  else
    let founded := table.map fun r => memFind src r.pat
    replaceLoop src table (src.length + 1) ⟨founded, founded.countP Option.isSome, 0, 0, dst, 0, 0⟩

/-! ## The next occurrence of a pattern -/

/-- Where a pattern occurs next, from `prev` on. -/
def occ (src : List Byte) (prev : Nat) (r : Repl) : Option Nat :=
  if r.pat = [] then none else memFindOff prev src r.pat

section Occ

variable {src : List Byte} {prev prev' p : Nat} {r : Repl}

theorem occ_eq_some : occ src prev r = some p ↔
    prev ≤ p ∧ r.Applies (src.drop p) ∧ ∀ k, prev ≤ k → k < p → ¬ r.Applies (src.drop k) := by
  unfold occ
  by_cases hne : r.pat = []
  · rw [if_pos hne]
    exact iff_of_false (fun h => by cases h) fun h => h.2.1.1 hne
  · rw [if_neg hne, memFindOff_eq_some hne]
    constructor
    · rintro ⟨hle, hpre, hbefore⟩
      exact ⟨hle, ⟨hne, hpre⟩, fun k hk hlt happ => hbefore k hk hlt happ.2⟩
    · rintro ⟨hle, happ, hbefore⟩
      exact ⟨hle, happ.2, fun k hk hlt hpre => hbefore k hk hlt ⟨hne, hpre⟩⟩

theorem occ_eq_none : occ src prev r = none ↔ ∀ k, prev ≤ k → ¬ r.Applies (src.drop k) := by
  unfold occ
  by_cases hne : r.pat = []
  · rw [if_pos hne]
    exact iff_of_true rfl fun k _ happ => happ.1 hne
  · rw [if_neg hne, memFindOff_eq_none hne]
    constructor
    · exact fun h k hk happ => h k hk happ.2
    · exact fun h k hk hpre => h k hk ⟨hne, hpre⟩

theorem occ_le {k : Nat} (hle : prev ≤ k) (happ : r.Applies (src.drop k)) :
    ∃ p, occ src prev r = some p ∧ p ≤ k := by
  cases hocc : occ src prev r with
  | none => exact absurd happ (occ_eq_none.mp hocc k hle)
  | some p =>
    refine ⟨p, rfl, ?_⟩
    by_contra hlt
    exact (occ_eq_some.mp hocc).2.2 k hle (by omega) happ

theorem occ_none_mono (hle : prev ≤ prev') (h : occ src prev r = none) :
    occ src prev' r = none :=
  occ_eq_none.mpr fun k hk => occ_eq_none.mp h k (Nat.le_trans hle hk)

theorem occ_some_mono (hle : prev ≤ prev') (h : occ src prev r = some p) (hp : prev' ≤ p) :
    occ src prev' r = some p := by
  rcases occ_eq_some.mp h with ⟨-, happ, hbefore⟩
  exact occ_eq_some.mpr ⟨hp, happ, fun k hk => hbefore k (Nat.le_trans hle hk)⟩

theorem memFind_eq : memFind src r.pat = occ src 0 r := by
  have hfind : memFindOff 0 src r.pat = memmem r.pat src := by
    rw [memFindOff, List.drop_zero]
    cases memmem r.pat src with
    | none => rfl
    | some i => exact congrArg some (Nat.zero_add i)
  rw [memFind, occ, hfind]

theorem memFindPtr_eq : memFindPtr prev src r.pat = occ src prev r := by
  unfold memFindPtr
  by_cases hne : r.pat = []
  · rw [if_pos (.inl hne), occ, if_pos hne]
  · by_cases hend : src.length ≤ prev
    · rw [if_pos (.inr hend), eq_comm, occ_eq_none]
      intro k hk happ
      have hpre := happ.2
      rw [List.drop_eq_nil_of_le (Nat.le_trans hend hk), List.prefix_nil] at hpre
      exact hne hpre
    · rw [if_neg (fun h => h.elim hne hend), occ, if_neg hne]

theorem refresh_eq (src : List Byte) (hle : prev ≤ prev') : ∀ (table : List Repl) (k : Nat),
    refresh src prev' table (table.map (occ src prev))
        (k + (table.map (occ src prev)).countP Option.isSome) =
      (table.map (occ src prev'), k + (table.map (occ src prev')).countP Option.isSome)
  | [], k => rfl
  | r :: table, k => by
    rw [List.map_cons, List.map_cons, refresh, List.countP_cons, List.countP_cons]
    cases hocc : occ src prev r with
    | none =>
      -- what does not occur from `prev` on does not occur from `prev'` on
      have hnew : occ src prev' r = none := occ_none_mono hle hocc
      have hall : (none : Option Nat).all (prev' ≤ ·) = true := rfl
      rw [if_pos hall, hnew]
      simp only [Option.isSome_none, Bool.false_eq_true, if_false, Nat.add_zero]
      rw [refresh_eq src hle table k]
    | some p =>
      simp only [Option.isSome_some, if_true]
      by_cases hp : prev' ≤ p
      · have hnew : occ src prev' r = some p := occ_some_mono hle hocc hp
        rw [if_pos (by rw [Option.all_some]; exact decide_eq_true hp), hnew]
        have hrest := refresh_eq src hle table (k + 1)
        rw [Nat.add_right_comm, Nat.add_right_comm k 1] at hrest
        simp only [Option.isSome_some, if_true]
        rw [← Nat.add_assoc, ← Nat.add_assoc, hrest]
      · rw [if_neg (by rw [Option.all_some]; exact fun h => hp (of_decide_eq_true h)),
          memFindPtr_eq]
        -- gone past, so it is looked for again, and no longer counted if it is not found
        cases hnew : occ src prev' r with
        | none =>
          rw [if_pos rfl, ← Nat.add_assoc, Nat.add_sub_cancel, refresh_eq src hle table k]
          rfl
        | some q =>
          have hrest := refresh_eq src hle table (k + 1)
          rw [Nat.add_right_comm, Nat.add_right_comm k 1] at hrest
          rw [if_neg (fun h => by cases h), ← Nat.add_assoc, hrest]
          rfl

end Occ

/-! ## The first of them -/

section PickFirst

/-- `pickFirst` over the occurrences of the patterns below `n`. -/
def pickBelow (f : Nat → Option Nat) (n first : Nat) : Nat :=
  (List.range n).foldl (fun first i => if earlier (f i) (f first) then i else first) first

variable {f : Nat → Option Nat} {n first : Nat}

theorem earlier_some {p : Nat} {g : Option Nat} :
    earlier (some p) g = true ↔ ∀ q, g = some q → p < q := by
  cases g with
  | none => exact iff_of_true rfl fun q h => by cases h
  | some q =>
    rw [earlier, decide_eq_true_eq]
    exact ⟨fun h q' hq => by cases hq; exact h, fun h => h q rfl⟩

/-- The pattern where the search began is kept where it is one of the first, else it is the one of
the lowest index among them. -/
structure Picked (f : Nat → Option Nat) (n first c : Nat) : Prop where
  below : ∀ i < n, ∀ p, f i = some p → ∃ q, f c = some q ∧ q ≤ p
  start : ∀ p, f first = some p → ∃ q, f c = some q ∧ q ≤ p
  new : c ≠ first → c < n ∧ (∀ i < c, ∀ p q, f i = some p → f c = some q → q < p) ∧
    ∀ p q, f first = some p → f c = some q → q < p

theorem Picked.keep {c : Nat} (h : Picked f n first c) (hlate : ¬ earlier (f n) (f c) = true) :
    Picked f (n + 1) first c where
  below := by
    intro i hi p hp
    rcases Nat.lt_succ_iff_lt_or_eq.mp hi with hlt | rfl
    · exact h.below i hlt p hp
    · rw [hp, earlier_some] at hlate
      simp only [not_forall] at hlate
      obtain ⟨q, hq, hle⟩ := hlate
      exact ⟨q, hq, Nat.not_lt.mp hle⟩
  start := h.start
  new := fun hne => ⟨Nat.lt_succ_of_lt (h.new hne).1, (h.new hne).2⟩

theorem Picked.take {c p : Nat} (h : Picked f n first c) (hp : f n = some p)
    (hearlier : ∀ q, f c = some q → p < q) : Picked f (n + 1) first n := by
  have hbelow : ∀ i < n, ∀ p', f i = some p' → p < p' := by
    intro i hi p' hp'
    obtain ⟨q, hq, hle⟩ := h.below i hi p' hp'
    exact Nat.lt_of_lt_of_le (hearlier q hq) hle
  have hstart : ∀ p', f first = some p' → p < p' := by
    intro p' hp'
    obtain ⟨q, hq, hle⟩ := h.start p' hp'
    exact Nat.lt_of_lt_of_le (hearlier q hq) hle
  constructor
  · intro i hi p' hp'
    rcases Nat.lt_succ_iff_lt_or_eq.mp hi with hlt | rfl
    · exact ⟨p, hp, Nat.le_of_lt (hbelow i hlt p' hp')⟩
    · exact ⟨p', hp', Nat.le_refl _⟩
  · exact fun p' hp' => ⟨p, hp, Nat.le_of_lt (hstart p' hp')⟩
  · intro _
    refine ⟨Nat.lt_succ_self n, fun i hi p' q hp' hq => ?_, fun p' q hp' hq => ?_⟩
    · rw [hp, Option.some.injEq] at hq
      exact hq ▸ hbelow i hi p' hp'
    · rw [hp, Option.some.injEq] at hq
      exact hq ▸ hstart p' hp'

theorem pickBelow_picked (f : Nat → Option Nat) (first : Nat) :
    ∀ n, Picked f n first (pickBelow f n first) := by
  intro n
  induction n with
  | zero =>
    exact ⟨fun i hi => absurd hi (Nat.not_lt_zero i), fun p hp => ⟨p, hp, Nat.le_refl p⟩,
      fun h => absurd rfl h⟩
  | succ n ih =>
    have hstep : pickBelow f (n + 1) first =
        if earlier (f n) (f (pickBelow f n first)) then n else pickBelow f n first := by
      rw [pickBelow, List.range_succ, List.foldl_append]
      rfl
    rw [hstep]
    generalize pickBelow f n first = c at ih
    by_cases hearlier : earlier (f n) (f c) = true
    · rw [if_pos hearlier]
      cases hp : f n with
      | none =>
        rw [hp] at hearlier
        cases hearlier
      | some p =>
        rw [hp, earlier_some] at hearlier
        exact ih.take hp hearlier
    · rw [if_neg hearlier]
      exact ih.keep hearlier

end PickFirst

/-- The pattern the loop replaces next is the one that is picked at the first place where one is. -/
theorem pickFirst_spec {src : List Byte} {table : List Repl} {prev : Nat} (last : Nat)
    (hsome : ∃ r ∈ table, occ src prev r ≠ none) :
    ∃ pos r, (table.map (occ src prev)).getD (pickFirst (table.map (occ src prev)) last) none =
        some pos ∧
      table[pickFirst (table.map (occ src prev)) last]? = some r ∧ occ src prev r = some pos ∧
      sticky table last (src.drop pos) =
        some (pickFirst (table.map (occ src prev)) last, r) ∧
      ∀ k, prev ≤ k → k < pos → sticky table last (src.drop k) = none := by
  have hpicked := pickBelow_picked (fun i => (table.map (occ src prev)).getD i none) last
    (table.map (occ src prev)).length
  -- the array of the next occurrences, entry by entry
  have hf : ∀ i p, (table.map (occ src prev)).getD i none = some p ↔
      ∃ r, table[i]? = some r ∧ occ src prev r = some p := by
    intro i p
    rw [List.getD_eq_getElem?_getD, List.getElem?_map]
    cases table[i]? with
    | none =>
      refine iff_of_false (fun h => by cases h) ?_
      rintro ⟨r, hr, -⟩
      cases hr
    | some r =>
      refine ⟨fun h => ⟨r, rfl, h⟩, ?_⟩
      rintro ⟨r', hr, hocc⟩
      cases hr
      exact hocc
  change Picked _ _ last (pickFirst (table.map (occ src prev)) last) at hpicked
  generalize pickFirst (table.map (occ src prev)) last = c at hpicked
  rw [List.length_map] at hpicked
  -- no pattern stands in front of the occurrence that is picked
  have hfirst : ∀ (j : Nat) (r : Repl) (k : Nat), table[j]? = some r → prev ≤ k →
      r.Applies (src.drop k) → ∃ q, (table.map (occ src prev)).getD c none = some q ∧ q ≤ k := by
    intro j r k hr hle happ
    obtain ⟨p, hp, hpk⟩ := occ_le hle happ
    obtain ⟨q, hq, hqp⟩ := hpicked.below j (List.getElem?_eq_some_iff.mp hr).1 p
      ((hf j p).mpr ⟨r, hr, hp⟩)
    exact ⟨q, hq, Nat.le_trans hqp hpk⟩
  obtain ⟨r', hr', hne⟩ := hsome
  obtain ⟨p', hp'⟩ := Option.ne_none_iff_exists'.mp hne
  obtain ⟨j, hj⟩ := List.getElem?_of_mem hr'
  rcases occ_eq_some.mp hp' with ⟨hle, happ, -⟩
  obtain ⟨pos, hpos, -⟩ := hfirst j r' p' hj hle happ
  obtain ⟨r, hr, hocc⟩ := (hf c pos).mp hpos
  rcases occ_eq_some.mp hocc with ⟨hprev, happ, -⟩
  refine ⟨pos, r, hpos, hr, hocc, ?_, fun k hk hlt => ?_⟩
  · by_cases hc : c = last
    · rw [← hc]
      exact sticky_of_last hr happ
    · rcases hpicked.new hc with ⟨-, hlower, hlast⟩
      rw [sticky_of_not, lowest_eq_some]
      · refine ⟨hr, happ, fun i hi r' hr' happ' => ?_⟩
        obtain ⟨p, hp, hpk⟩ := occ_le hprev happ'
        have := hlower i hi p pos ((hf i p).mpr ⟨r', hr', hp⟩) hpos
        omega
      · intro r' hr' happ'
        obtain ⟨p, hp, hpk⟩ := occ_le hprev happ'
        have := hlast p pos ((hf last p).mpr ⟨r', hr', hp⟩) hpos
        omega
  · rw [sticky_eq_none]
    intro r' hr' happ'
    obtain ⟨i, hi⟩ := List.getElem?_of_mem hr'
    obtain ⟨q, hq, hqk⟩ := hfirst i r' k hi hk happ'
    rw [hpos] at hq
    cases hq
    omega

/-! ## What the loop writes -/

/-- The loop over the pieces of a text. -/
def emit (dst : List Byte) (cur cnt : Nat) (tail : List Byte) :
    List (Piece Byte) → Option (Except Errno Done)
  | [] => do
    let dst ← putAll dst cur tail
    some (.ok ⟨dst, cur + tail.length, cnt⟩)
  | p :: pieces =>
    if dst.length ≤ cur + (p.kept.length + p.rule.pat.length) then some (.error .enobufs)
    else do
      let dst ← putAll dst cur p.kept
      let dst ← putAll dst (cur + p.kept.length) p.rule.new
      emit dst (cur + p.kept.length + p.rule.new.length) (cnt + 1) tail pieces

theorem replaceLoop_eq (src : List Byte) (table : List Repl) : ∀ (fuel : Nat) (s : Loop),
    s.founded = table.map (occ src s.srcCurPrev) →
    s.foundedCnt = s.founded.countP Option.isSome →
    src.length - s.srcCurPrev < fuel →
    replaceLoop src table fuel s = emit s.dst s.dstCur s.retCount
      (split (sticky table) s.firstIdx [] 0 (src.drop s.srcCurPrev)).tail
      (split (sticky table) s.firstIdx [] 0 (src.drop s.srcCurPrev)).pieces
  | 0, s, _, _, hfuel => absurd hfuel (Nat.not_lt_zero _)
  | fuel + 1, ⟨founded, cnt, last, prev, dst, cur, ret⟩, hfounded, hcnt, hfuel => by
    dsimp only at hfounded hcnt hfuel ⊢
    subst hfounded hcnt
    rw [replaceLoop]
    dsimp only
    by_cases hsome : ∃ r ∈ table, occ src prev r ≠ none
    · obtain ⟨pos, r, hget, hr, hocc, hpick, hbefore⟩ := pickFirst_spec last hsome
      rcases occ_eq_some.mp hocc with ⟨hle, happ, -⟩
      have hcnt : (table.map (occ src prev)).countP Option.isSome ≠ 0 := by
        rw [Ne, List.countP_eq_zero]
        intro h
        obtain ⟨r', hr', hne⟩ := hsome
        exact hne (Option.not_isSome_iff_eq_none.mp (h _ (List.mem_map_of_mem hr')))
      have hlen := happ.2.length_le
      have hpos := List.length_pos_iff.mpr happ.1
      rw [List.length_drop] at hlen
      -- the piece that is taken off
      have hsplit : split (sticky table) last [] 0 (src.drop prev) =
          split (sticky table) last ((src.drop prev).take (pos - prev)) 0 (src.drop pos) := by
        have hnone : ∀ k < pos - prev, sticky table last ((src.drop prev).drop k) = none := by
          intro k hk
          rw [List.drop_drop]
          exact hbefore (prev + k) (Nat.le_add_right _ _) (by omega)
        have hskip := split_skip (pos - prev) [] _ (by rw [List.length_drop]; omega) hnone
        rwa [List.nil_append, List.drop_drop, Nat.add_sub_cancel' hle] at hskip
      have hkept : ((src.drop prev).take (pos - prev)).length = pos - prev := by
        rw [List.length_take, List.length_drop]
        omega
      have hrefresh := refresh_eq src (Nat.le_trans hle (Nat.le_add_right pos r.pat.length))
        table 0
      rw [Nat.zero_add, Nat.zero_add] at hrefresh
      have hgetD : table.getD (pickFirst (table.map (occ src prev)) last) ⟨[], []⟩ = r := by
        rw [List.getD_eq_getElem?_getD, hr]
        rfl
      rw [if_neg hcnt, hget]
      dsimp only
      rw [hgetD, hrefresh, hsplit, split_some sound_sticky hpick, emit, hkept]
      split
      · rfl
      · congr 1
        funext dst
        congr 1
        funext dst
        rw [replaceLoop_eq src table fuel _ rfl rfl (by dsimp only; omega)]
        dsimp only
        rw [List.drop_drop]
    · have hnone : ∀ r ∈ table, occ src prev r = none := by
        intro r hr
        by_contra hne
        exact hsome ⟨r, hr, hne⟩
      have hcnt : (table.map (occ src prev)).countP Option.isSome = 0 := by
        rw [List.countP_eq_zero]
        intro f hf
        obtain ⟨r, hr, rfl⟩ := List.mem_map.mp hf
        rw [hnone r hr]
        exact Bool.false_ne_true
      have hsplit : split (sticky table) last [] 0 (src.drop prev) = ⟨[], src.drop prev⟩ := by
        rw [split_none, List.nil_append]
        intro k
        rw [sticky_eq_none, List.drop_drop]
        intro r hr
        exact occ_eq_none.mp (hnone r hr) (prev + k) (Nat.le_add_right _ _)
      rw [if_pos hcnt, hsplit, finish, emit]

theorem memReplaceArr_eq {src : List Byte} {table : List Repl} {tmpArr : Bool}
    (htmp : table.length ≤ 31 ∨ tmpArr) (dst : List Byte) :
    memReplaceArr src table tmpArr dst = emit dst 0 0 (split (sticky table) 0 [] 0 src).tail
      (split (sticky table) 0 [] 0 src).pieces := by
  have hargs : ¬ (31 < table.length ∧ ¬ tmpArr) := by
    rintro ⟨hlt, hno⟩
    exact htmp.elim (fun h => absurd hlt (by omega)) hno
  have hfind : table.map (fun r => memFind src r.pat) = table.map (occ src 0) :=
    List.map_congr_left fun r _ => memFind_eq
  rw [memReplaceArr, if_neg hargs, hfind, replaceLoop_eq src table _ _ rfl rfl (by
    dsimp only
    omega)]
  rfl

/-! ## Where it fits -/

/-- In front of every piece, what it takes up in the source fits behind what is written before it,
with a byte to spare. -/
def Passes (size : Nat) : Nat → List (Piece Byte) → Prop
  | _, [] => True
  | cur, p :: pieces =>
    cur + p.source.length < size ∧ Passes size (cur + p.target.length) pieces

/-- In front of some piece it does not, and what is written before that piece fits. -/
def Stops (size : Nat) : Nat → List (Piece Byte) → Prop
  | _, [] => False
  | cur, p :: pieces => size ≤ cur + p.source.length ∨
      cur + p.target.length ≤ size ∧ Stops size (cur + p.target.length) pieces

section Emit

variable {dst tail : List Byte} {cur cnt : Nat} {p : Piece Byte} {pieces : List (Piece Byte)}

theorem length_source : p.source.length = p.kept.length + p.rule.pat.length := List.length_append

theorem length_target : p.target.length = p.kept.length + p.rule.new.length := List.length_append

theorem target_cons : (⟨p :: pieces, tail⟩ : Split Byte).target =
    p.target ++ (⟨pieces, tail⟩ : Split Byte).target := by
  rw [Split.target, List.flatMap_cons, List.append_assoc]
  rfl

theorem emit_step (hcheck : cur + p.source.length < dst.length)
    (hfit : cur + p.target.length ≤ dst.length) :
    emit dst cur cnt tail (p :: pieces) =
      emit (splice dst cur p.target) (cur + p.target.length) (cnt + 1) tail pieces := by
  rw [length_source] at hcheck
  rw [length_target] at hfit
  have hkept : (splice dst cur p.kept).length = dst.length := length_splice (by omega)
  rw [emit, if_neg (by omega), putAll_eq (by omega), Option.bind_eq_bind, Option.bind_some,
    putAll_eq (by omega), Option.bind_some, splice_splice (by omega), length_target, Nat.add_assoc]
  rfl

theorem emit_over (hcheck : cur + p.source.length < dst.length)
    (hover : dst.length < cur + p.target.length) :
    emit dst cur cnt tail (p :: pieces) = none := by
  rw [length_source] at hcheck
  rw [length_target] at hover
  have hkept : (splice dst cur p.kept).length = dst.length := length_splice (by omega)
  have hne : p.rule.new ≠ [] := by
    intro hnil
    rw [hnil, List.length_nil] at hover
    omega
  rw [emit, if_neg (by omega), putAll_eq (by omega), Option.bind_eq_bind, Option.bind_some,
    putAll_none hne (by omega)]
  rfl

theorem emit_ok (cnt : Nat) (tail : List Byte) (hpass : Passes dst.length cur pieces)
    (hfit : cur + (⟨pieces, tail⟩ : Split Byte).target.length ≤ dst.length) :
    emit dst cur cnt tail pieces =
      some (.ok ⟨splice dst cur (⟨pieces, tail⟩ : Split Byte).target,
        cur + (⟨pieces, tail⟩ : Split Byte).target.length, cnt + pieces.length⟩) := by
  induction pieces generalizing dst cur cnt with
  | nil =>
    have htail : (⟨[], tail⟩ : Split Byte).target = tail := rfl
    rw [htail] at hfit ⊢
    rw [emit, putAll_eq hfit]
    rfl
  | cons p pieces ih =>
    rcases hpass with ⟨hcheck, hpass⟩
    rw [target_cons, List.length_append] at hfit ⊢
    have hhere : cur + p.target.length ≤ dst.length := by omega
    have hlen : (splice dst cur p.target).length = dst.length := length_splice hhere
    rw [emit_step hcheck hhere, ih _ (by rw [hlen]; exact hpass) (by rw [hlen]; omega),
      splice_splice hhere, List.length_cons, Nat.add_assoc cur, Nat.add_right_comm cnt]
    rfl

theorem emit_stops (hcur : cur ≤ dst.length) (hstop : Stops dst.length cur pieces) :
    emit dst cur cnt tail pieces = some (.error .enobufs) := by
  induction pieces generalizing dst cur cnt with
  | nil => exact absurd hstop id
  | cons p pieces ih =>
    by_cases hcheck : cur + p.source.length < dst.length
    · rcases hstop with hstop | ⟨hfit, hstop⟩
      · omega
      · have hlen : (splice dst cur p.target).length = dst.length := length_splice hfit
        rw [emit_step hcheck hfit]
        exact ih (by rw [hlen]; exact hfit) (by rw [hlen]; exact hstop)
    · rw [length_source] at hcheck
      rw [emit, if_pos (by omega)]

theorem emit_none (hcur : cur ≤ dst.length) (hstop : ¬ Stops dst.length cur pieces)
    (hok : ¬ (Passes dst.length cur pieces ∧
      cur + (⟨pieces, tail⟩ : Split Byte).target.length ≤ dst.length)) :
    emit dst cur cnt tail pieces = none := by
  induction pieces generalizing dst cur cnt with
  | nil =>
    have hover : dst.length < cur + tail.length := by
      by_contra hfit
      exact hok ⟨trivial, Nat.not_lt.mp hfit⟩
    have hne : tail ≠ [] := by
      intro hnil
      rw [hnil, List.length_nil] at hover
      omega
    rw [emit, putAll_none hne hover]
    rfl
  | cons p pieces ih =>
    rw [Stops, not_or] at hstop
    have hcheck : cur + p.source.length < dst.length := by omega
    by_cases hfit : cur + p.target.length ≤ dst.length
    · have hlen : (splice dst cur p.target).length = dst.length := length_splice hfit
      rw [emit_step hcheck hfit]
      apply ih
      · rw [hlen]
        exact hfit
      · rw [hlen]
        exact fun h => hstop.2 ⟨hfit, h⟩
      · rw [hlen]
        rintro ⟨hpass, hall⟩
        refine hok ⟨⟨hcheck, hpass⟩, ?_⟩
        rw [target_cons, List.length_append]
        omega
    -- the check has passed, so it is the replacement that goes over the end
    · exact emit_over hcheck (by omega)

theorem passes_of_le {k size : Nat} (cur : Nat) (tail : List Byte) (hk : 0 < k)
    (hnew : ∀ p ∈ pieces, p.rule.new.length ≤ k * p.rule.pat.length)
    (hsize : cur + k * (⟨pieces, tail⟩ : Split Byte).source.length < size) :
    Passes size cur pieces ∧ cur + (⟨pieces, tail⟩ : Split Byte).target.length < size := by
  induction pieces generalizing cur with
  | nil =>
    refine ⟨trivial, ?_⟩
    have htail : (⟨[], tail⟩ : Split Byte).target = (⟨[], tail⟩ : Split Byte).source := rfl
    have hle := Nat.le_mul_of_pos_left (⟨[], tail⟩ : Split Byte).source.length hk
    rw [htail]
    omega
  | cons p pieces ih =>
    have hsource : (⟨p :: pieces, tail⟩ : Split Byte).source.length =
        p.source.length + (⟨pieces, tail⟩ : Split Byte).source.length := by
      rw [Split.source, List.flatMap_cons, List.append_assoc, List.length_append]
      rfl
    have hone := hnew p List.mem_cons_self
    -- what is kept is as long in the target as in the source, what is new at most `k` times
    have hpiece : p.target.length ≤ k * p.source.length := by
      rw [length_target, length_source, Nat.mul_add]
      exact Nat.add_le_add (Nat.le_mul_of_pos_left _ hk) hone
    have hle := Nat.le_mul_of_pos_left p.source.length hk
    rw [hsource, Nat.mul_add] at hsize
    rcases ih (cur + p.target.length) (fun q hq => hnew q (List.mem_cons_of_mem p hq))
      (by omega) with ⟨hpass, hall⟩
    refine ⟨⟨by omega, hpass⟩, ?_⟩
    rw [target_cons, List.length_append]
    omega

end Emit

/-! ## The call -/

/-- The text with every leftmost occurrence replaced, the first pattern of the table preferred. -/
def leftmost (table : List Repl) (src : List Byte) : Split Byte := split (lowest table) 0 [] 0 src

/-- The text with the pattern preferred that was replaced last, at first that of index 0. -/
def favouring (table : List Repl) (src : List Byte) : Split Byte := split (sticky table) 0 [] 0 src

/-- The call ends and writes inside the destination only, it returns `ENOBUFS` exactly where the
result does not fit, and what it leaves behind when it returns 0 is the result, its length and the
number of the patterns replaced. -/
def Replaces (src : List Byte) (table : List Repl) (tmpArr : Bool) (dst : List Byte) : Prop :=
  ∃ out, memReplaceArr src table tmpArr dst = some out ∧
    (out = .error .enobufs ↔ dst.length < (leftmost table src).target.length) ∧
    ∀ d, out = .ok d → d = ⟨splice dst 0 (leftmost table src).target,
      (leftmost table src).target.length, (leftmost table src).pieces.length⟩

variable {src dst : List Byte} {table : List Repl} {tmpArr : Bool}

theorem memReplaceArr_ok (htmp : table.length ≤ 31 ∨ tmpArr)
    (hpass : Passes dst.length 0 (favouring table src).pieces)
    (hfit : (favouring table src).target.length ≤ dst.length) :
    memReplaceArr src table tmpArr dst = some (.ok ⟨splice dst 0 (favouring table src).target,
      (favouring table src).target.length, (favouring table src).pieces.length⟩) := by
  have hrun := emit_ok 0 (favouring table src).tail hpass (by rw [Nat.zero_add]; exact hfit)
  rw [Nat.zero_add, Nat.zero_add] at hrun
  rw [memReplaceArr_eq htmp]
  exact hrun

theorem Done.text_eq (bs : List Byte) (cnt : Nat) :
    (⟨splice dst 0 bs, bs.length, cnt⟩ : Done).text = bs := by
  rw [Done.text, splice, List.take_zero, List.nil_append, List.take_left]

theorem memReplaceArr_free {k : Nat} (hfree : PrefixFree table) (hlen : table.length ≤ 31)
    (hk : 0 < k) (hnew : ∀ r ∈ table, r.new.length ≤ k * r.pat.length)
    (hsize : k * src.length < dst.length) :
    ∃ d, memReplaceArr src table false dst = some (.ok d) ∧
      d.text = (leftmost table src).target := by
  have hsame : favouring table src = leftmost table src := by
    rw [favouring, hfree.sticky_eq, leftmost]
  have hrules : ∀ p ∈ (leftmost table src).pieces, p.rule.new.length ≤ k * p.rule.pat.length := by
    refine rule_split (fun r => r.new.length ≤ k * r.pat.length) ?_ src [] 0 0
    intro last text i r h
    exact hnew r (lowest_mem h)
  have hsource : (leftmost table src).source = src :=
    source_split sound_lowest src.length 0 [] src (Nat.le_refl _)
  rcases passes_of_le 0 (leftmost table src).tail hk hrules (by
    rw [Nat.zero_add]
    exact (congrArg (fun bs => k * bs.length) hsource).trans_lt hsize) with ⟨hpass, hfit⟩
  rw [Nat.zero_add] at hfit
  rw [← hsame] at hpass ⊢
  refine ⟨_, memReplaceArr_ok (.inl hlen) hpass ?_, Done.text_eq _ _⟩
  rw [hsame]
  exact Nat.le_of_lt hfit

theorem Passes.not_stops {size : Nat} : ∀ {cur : Nat} {pieces : List (Piece Byte)},
    Passes size cur pieces → ¬ Stops size cur pieces
  | _, [], _ => id
  | cur, p :: pieces, hpass => by
    rintro (hstop | ⟨-, hstop⟩)
    · exact absurd hpass.1 (Nat.not_lt.mpr hstop)
    · exact hpass.2.not_stops hstop

theorem splice_zero_inj {bs bs' : List Byte} (hlen : bs.length = bs'.length)
    (h : splice dst 0 bs = splice dst 0 bs') : bs = bs' := by
  rw [splice, splice, List.take_zero, List.nil_append, List.nil_append, hlen] at h
  exact List.append_cancel_right h

theorem replaces_of_stops (htmp : table.length ≤ 31 ∨ tmpArr)
    (hstop : Stops dst.length 0 (favouring table src).pieces) :
    Replaces src table tmpArr dst ↔ dst.length < (leftmost table src).target.length := by
  have hrun : memReplaceArr src table tmpArr dst = some (.error .enobufs) := by
    rw [memReplaceArr_eq htmp]
    exact emit_stops (Nat.zero_le _) hstop
  constructor
  · rintro ⟨out, hout, hfull, -⟩
    rw [hrun, Option.some.injEq] at hout
    exact hfull.mp hout.symm
  · exact fun hfull => ⟨_, hrun, iff_of_true rfl hfull, fun d hd => by cases hd⟩

theorem replaces_of_passes (htmp : table.length ≤ 31 ∨ tmpArr)
    (hpass : Passes dst.length 0 (favouring table src).pieces)
    (hfit : (favouring table src).target.length ≤ dst.length) :
    Replaces src table tmpArr dst ↔ (favouring table src).target = (leftmost table src).target ∧
      (favouring table src).pieces.length = (leftmost table src).pieces.length := by
  have hrun := memReplaceArr_ok htmp hpass hfit
  constructor
  · rintro ⟨out, hout, -, hres⟩
    rw [hrun, Option.some.injEq] at hout
    have hd := hres _ hout.symm
    rw [Done.mk.injEq] at hd
    rcases hd with ⟨hdst, hlen, hcnt⟩
    exact ⟨splice_zero_inj hlen hdst, hcnt⟩
  · rintro ⟨htarget, hcnt⟩
    rw [htarget] at hfit
    refine ⟨_, hrun, iff_of_false (fun h => by cases h) (Nat.not_lt.mpr hfit), fun d hd => ?_⟩
    rw [← Except.ok.inj hd, htarget, hcnt]

theorem not_replaces (htmp : table.length ≤ 31 ∨ tmpArr)
    (hstop : ¬ Stops dst.length 0 (favouring table src).pieces)
    (hok : ¬ (Passes dst.length 0 (favouring table src).pieces ∧
      (favouring table src).target.length ≤ dst.length)) : ¬ Replaces src table tmpArr dst := by
  have hrun : memReplaceArr src table tmpArr dst = none := by
    rw [memReplaceArr_eq htmp]
    refine emit_none (Nat.zero_le _) hstop fun h => hok ⟨h.1, ?_⟩
    have hfit := h.2
    rw [Nat.zero_add] at hfit
    exact hfit
  rintro ⟨out, hout, -⟩
  rw [hrun] at hout
  cases hout

/-- Right are the calls where every check passes and the preference makes no difference, and of
those whose result does not fit the ones that a check stops in time. -/
theorem replaces_iff (src dst : List Byte) {table : List Repl} {tmpArr : Bool}
    (htmp : table.length ≤ 31 ∨ tmpArr) :
    Replaces src table tmpArr dst ↔
      ((leftmost table src).target.length ≤ dst.length ∧
        Passes dst.length 0 (favouring table src).pieces ∧
        (favouring table src).target = (leftmost table src).target ∧
        (favouring table src).pieces.length = (leftmost table src).pieces.length) ∨
      (dst.length < (leftmost table src).target.length ∧
        Stops dst.length 0 (favouring table src).pieces) := by
  by_cases hstop : Stops dst.length 0 (favouring table src).pieces
  · rw [replaces_of_stops htmp hstop]
    refine ⟨fun hfull => .inr ⟨hfull, hstop⟩, ?_⟩
    rintro (⟨-, hpass, -⟩ | ⟨hfull, -⟩)
    · exact absurd hstop hpass.not_stops
    · exact hfull
  by_cases hok : Passes dst.length 0 (favouring table src).pieces ∧
      (favouring table src).target.length ≤ dst.length
  · rw [replaces_of_passes htmp hok.1 hok.2]
    refine ⟨fun h => .inl ⟨h.1 ▸ hok.2, hok.1, h⟩, ?_⟩
    rintro (⟨-, -, hsame⟩ | ⟨-, hstops⟩)
    · exact hsame
    · exact absurd hstops hstop
  · refine iff_of_false (not_replaces htmp hstop hok) ?_
    rintro (⟨hfit, hpass, htarget, -⟩ | ⟨-, hstops⟩)
    · exact hok ⟨hpass, by rw [htarget]; exact hfit⟩
    · exact hstop hstops

/-- Two patterns that begin at one place, and room to spare. -/
theorem replaces_iff_two : Replaces [chr 'a', chr 'b', chr 'c']
    [⟨[chr 'b'], [chr 'x']⟩, ⟨[chr 'b', chr 'c'], []⟩] false [0, 0, 0, 0] := by
  refine (replaces_iff _ _ (.inl (by decide))).mpr (.inl ⟨by decide, ⟨by decide, trivial⟩, ?_⟩)
  exact ⟨by decide, by decide⟩

/-- The pattern of index 1 is replaced first, and again where that of index 0 begins too. -/
example : memReplaceArr [chr 'a', chr 'c', chr 'a', chr 'b']
    [⟨[chr 'a', chr 'b'], [chr 'x']⟩, ⟨[chr 'a'], [chr 'y']⟩] false [0, 0, 0, 0, 0] =
      some (.ok ⟨[chr 'y', chr 'c', chr 'y', chr 'b', 0], 4, 2⟩) := by decide

/-- A pattern of one byte in a destination of two, with a replacement of three. -/
theorem longer_not_replaces :
    ¬ Replaces [chr 'a'] [⟨[chr 'a'], [chr 'x', chr 'y', chr 'z']⟩] false [0, 0] := by
  rintro ⟨out, hout, -⟩
  have hnone : memReplaceArr [chr 'a'] [⟨[chr 'a'], [chr 'x', chr 'y', chr 'z']⟩] false [0, 0] =
      none := by decide
  rw [hnone] at hout
  cases hout

end MemReplace
