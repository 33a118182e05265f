import Liblcb.Proto.Http
import Liblcb.Utils.MemRead
import Mathlib.Data.List.Basic

/-!
# Removing header fields

`http_hdr_val_remove` of `proto/http.c`.  The two blocks are edited alike, and a read or a move
outside them has no outcome.
-/

namespace Http

open Mem

/-- The two blocks, the size of what is left in them, and how many fields have been removed. -/
structure HdrBufs where
  httpHdr : List Byte
  hdrLcase : List Byte
  hdrSize : Nat
  ret : Nat
  deriving DecidableEq, Repr

/-- A CRLF is in front of `val`. -/
def crlfBefore (hdrLcase : List Byte) (val : Nat) : Option Bool :=
  if 2 < val then (readAt hdrLcase (val - 2) 2).map fun bs => decide (bs = crlf) else some false

def startsField (hdrLcase : List Byte) (val valNameSize : Nat) : Option Bool := do
  let b ← hdrLcase[val + valNameSize]?
  if b = chr ':' then
    if val = 0 then return true else crlfBefore hdrLcase val
  else return false

def removeRange (s : HdrBufs) (val valNameSize : Nat) : Option (Nat × Nat) :=
  let text := s.hdrLcase.take s.hdrSize
  match memFindOff (val + valNameSize + 1) text crlf with
  | some valEnd => some (val, valEnd + 2)
  | none =>
    match memChrOff (val + valNameSize + 1) text lf with
    | some valEnd => some (val, valEnd + 1)
    | none => (crlfBefore s.hdrLcase val).map fun before =>
      (if before then val - 2 else val, s.hdrSize)

/-- The loop of `http_hdr_val_remove`. -/
def removeLoop (valName : List Byte) : Nat → Nat → HdrBufs → Option (Except Err HdrBufs)
  | 0, _, _ => some (.error .noReturn)
  | fuel + 1, val, s =>
    match memFindOff val (s.hdrLcase.take s.hdrSize) valName with
    | none => some (.ok s)
    | some val => do
      if ← startsField s.hdrLcase val valName.length then
        let (val, valEnd) ← removeRange s val valName.length
        let hdrLcase ← memmove s.hdrLcase val valEnd (s.hdrSize - valEnd)
        let httpHdr ← memmove s.httpHdr val valEnd (s.hdrSize - valEnd)
        removeLoop valName fuel val
          ⟨httpHdr, hdrLcase, s.hdrSize - (valEnd - val), s.ret + 1⟩
      else removeLoop valName fuel (val + 1) s

def httpHdrValRemove (httpHdr hdrLcase : List Byte) (hdrSize : Nat) (valName : List Byte) :
    Option (Except Err HdrBufs) :=
  if hdrSize = 0 ∨ valName = [] then some (.ok ⟨httpHdr, hdrLcase, hdrSize, 0⟩)
  else removeLoop valName (hdrSize + 1) 0 ⟨httpHdr, hdrLcase, hdrSize, 0⟩

/-!
# Lines that are removed

Over lines that end in CRLF, `http_hdr_val_remove` takes out the ones that begin with the name and a
`:`.  It leaves a line at offset 2 alone.
-/

variable {valName l rest pre tx : List Byte} {ls : List (List Byte)} {j k n : Nat}

/-! ## Lines -/

/-- A text in lower case. -/
def low (s : List Byte) : List Byte := s.map lower

/-- Lines, each with a CRLF behind it. -/
def joined (ls : List (List Byte)) : List Byte := ls.flatMap (· ++ crlf)

/-- A line has no CRLF in it. -/
def IsLine (l : List Byte) : Prop := ¬ crlf <:+: l

/-- The line begins with the name and a `:`. -/
def begins (valName l : List Byte) : Bool := (valName ++ [chr ':']).isPrefixOf (low l)

/-- The lines that are left, from the offset `pos` on. -/
def keep (valName : List Byte) : Nat → List (List Byte) → List (List Byte)
  | _, [] => []
  | pos, l :: ls =>
    if begins valName l ∧ pos ≠ 2 then keep valName pos ls
    else l :: keep valName (pos + l.length + 2) ls

/-- A name of a field, in lower case. -/
structure FieldName (valName : List Byte) : Prop where
  ne_nil : valName ≠ []
  low : valName.map lower = valName
  cr : cr ∉ valName
  lf : lf ∉ valName
  colon : chr ':' ∉ valName
  blank : valName.head? ≠ some ht ∧ valName.head? ≠ some sp

theorem low_append (a b : List Byte) : low (a ++ b) = low a ++ low b := List.map_append

theorem length_low (s : List Byte) : (low s).length = s.length := List.length_map lower

theorem low_crlf : low crlf = crlf := by decide

theorem joined_cons (l : List Byte) (ls : List (List Byte)) :
    joined (l :: ls) = l ++ (crlf ++ joined ls) := by
  rw [joined, List.flatMap_cons, List.append_assoc]
  rfl

theorem lower_crlf : ∀ b : Byte, (lower b = cr → b = cr) ∧ (lower b = lf → b = lf) := by
  decide +kernel

theorem infix_of_getElem? {i : Nat} (hcr : l[i]? = some cr) (hlf : l[i + 1]? = some lf) :
    crlf <:+: l := by
  refine ⟨l.take i, l.drop (i + 2), ?_⟩
  have hdrop : l.drop i = cr :: lf :: l.drop (i + 2) := by
    rw [List.drop_eq_getElem?_toList_append, hcr, List.drop_eq_getElem?_toList_append, hlf]
    rfl
  conv_rhs => rw [← List.take_append_drop i l, hdrop]
  rw [List.append_assoc]
  rfl

theorem getElem?_low {c : Byte} {i : Nat} (hc : ∀ b, lower b = c → b = c)
    (h : (low l)[i]? = some c) : l[i]? = some c := by
  rw [low, List.getElem?_map, Option.map_eq_some_iff] at h
  obtain ⟨b, hb, hlow⟩ := h
  rw [hb, hc b hlow]

theorem isLine_low (h : IsLine l) : IsLine (low l) := by
  rintro ⟨a, b, hab⟩
  have hcr : (low l)[a.length]? = some cr := by
    rw [← hab, List.append_assoc, List.getElem?_append_right (Nat.le_refl _), Nat.sub_self]
    rfl
  have hlf : (low l)[a.length + 1]? = some lf := by
    rw [← hab, List.append_assoc, List.getElem?_append_right (Nat.le_add_right _ 1),
      Nat.add_sub_cancel_left]
    rfl
  exact h (infix_of_getElem? (getElem?_low (fun c => (lower_crlf c).1) hcr)
    (getElem?_low (fun c => (lower_crlf c).2) hlf))

theorem not_crlf_inside (hline : IsLine l) (hk : k < l.length) :
    ¬ crlf <+: (l ++ (crlf ++ rest)).drop k := by
  rintro ⟨t, ht⟩
  have hget : ∀ m, (l ++ (crlf ++ rest))[k + m]? = (crlf ++ t)[m]? := by
    intro m
    rw [← List.getElem?_drop, ht]
  have hcr := hget 0
  have hlf := hget 1
  rw [Nat.add_zero, List.getElem?_append_left hk] at hcr
  rcases (by omega : k + 1 < l.length ∨ k + 1 = l.length) with hin | hlast
  · rw [List.getElem?_append_left hin] at hlf
    exact hline (infix_of_getElem? hcr hlf)
  · -- the line ends with CR, and another CR follows
    rw [hlast, List.getElem?_append_right (Nat.le_refl _), Nat.sub_self] at hlf
    exact absurd (Option.some.inj hlf) (by decide)

theorem memmem_line (hline : IsLine l) :
    memmem crlf (l ++ (crlf ++ rest)) = some l.length := by
  rw [memmem_eq_some (by decide)]
  refine ⟨?_, fun k hk => not_crlf_inside hline hk⟩
  rw [List.drop_left]
  exact List.prefix_append _ _

theorem prefix_before {c : Byte} : ∀ {name a b : List Byte}, c ∉ name → name <+: a ++ c :: b →
    name <+: a
  | [], a, _, _, _ => List.nil_prefix
  | d :: name, [], b, hc, h => by
    rw [List.nil_append, List.cons_prefix_cons] at h
    exact absurd (h.1 ▸ List.mem_cons_self) hc
  | d :: name, a0 :: a, b, hc, h => by
    rw [List.cons_append, List.cons_prefix_cons] at h
    rw [List.cons_prefix_cons]
    exact ⟨h.1, prefix_before (fun hmem => hc (List.mem_cons_of_mem d hmem)) h.2⟩

theorem name_in_line (hname : FieldName valName) (hj : j < l.length + 2)
    (h : valName <+: (l ++ (crlf ++ rest)).drop j) : j < l.length ∧ valName <+: l.drop j := by
  obtain ⟨c, name, rfl⟩ := List.exists_cons_of_ne_nil hname.ne_nil
  have hhead : ∀ {d : Byte} {s : List Byte}, c :: name <+: d :: s → c = d :=
    fun h => (List.cons_prefix_cons.mp h).1
  rcases Nat.lt_or_ge j l.length with hlt | hge
  · rw [List.drop_append_of_le_length (Nat.le_of_lt hlt)] at h
    exact ⟨hlt, prefix_before hname.cr h⟩
  · -- the name would begin with CR or LF
    rw [List.drop_append, List.drop_eq_nil_of_le hge, List.nil_append] at h
    rcases (by omega : j - l.length = 0 ∨ j - l.length = 1) with hj | hj
    · rw [hj] at h
      exact absurd (hhead h ▸ List.mem_cons_self) hname.cr
    · rw [hj] at h
      exact absurd (hhead h ▸ List.mem_cons_self) hname.lf

/-! ## Where a field starts -/

def StartsAt (tx : List Byte) (k n : Nat) : Prop :=
  tx[k + n]? = some (chr ':') ∧ (k = 0 ∨ 2 < k ∧ (tx.drop (k - 2)).take 2 = crlf)

instance : Decidable (StartsAt tx k n) := inferInstanceAs (Decidable (_ ∧ _))

theorem startsField_eq {buf : List Byte} {size : Nat} (hsize : size ≤ buf.length)
    (hk : k + n < size) : startsField buf k n = some (decide (StartsAt (buf.take size) k n)) := by
  have hget : buf[k + n]? = (buf.take size)[k + n]? := by
    rw [List.getElem?_take, if_pos hk]
  have hlen : (buf.take size).length = size := List.length_take_of_le hsize
  obtain ⟨b, hb⟩ : ∃ b, (buf.take size)[k + n]? = some b :=
    ⟨_, List.getElem?_eq_getElem (by omega)⟩
  rw [startsField, hget, hb, Option.bind_eq_bind, Option.bind_some]
  -- the two tests of the loop: the `:` behind the name, and the line break before it
  by_cases hcolon : b = chr ':'
  · rw [if_pos hcolon]
    by_cases hzero : k = 0
    · have hstart : StartsAt (buf.take size) k n := ⟨by rw [hb, hcolon], .inl hzero⟩
      rw [if_pos hzero, decide_eq_true hstart]
      rfl
    · rw [if_neg hzero, crlfBefore]
      by_cases htwo : 2 < k
      · have hread : readAt buf (k - 2) 2 = some (((buf.take size).drop (k - 2)).take 2) := by
          rw [readAt_eq (by omega), List.drop_take, List.take_take, Nat.min_eq_left (by omega)]
        rw [if_pos htwo, hread, Option.map_some]
        congr 1
        apply decide_eq_decide.mpr
        exact ⟨fun h => ⟨by rw [hb, hcolon], .inr ⟨htwo, h⟩⟩,
          fun h => (h.2.resolve_left hzero).2⟩
      · rw [if_neg htwo, decide_eq_false]
        exact fun h => htwo (h.2.resolve_left hzero).1
  · rw [if_neg hcolon, decide_eq_false]
    · rfl
    · exact fun h => hcolon (Option.some.inj (hb.symm.trans h.1))

def Breaks (pre : List Byte) : Prop := pre = [] ∨ ∃ q, pre = q ++ crlf

theorem begins_iff : begins valName l = true ↔ valName ++ [chr ':'] <+: low l :=
  List.isPrefixOf_iff_prefix

theorem not_startsAt_inside (hline : IsLine l) (hpre : Breaks pre) (hpos : 0 < j)
    (hj : j < l.length) : ¬ StartsAt (pre ++ (l ++ rest)) (pre.length + j) n := by
  rintro ⟨-, hzero | ⟨htwo, hcrlf⟩⟩
  · omega
  · have hget : ∀ i, i < 2 → (pre ++ (l ++ rest))[pre.length + j - 2 + i]? = crlf[i]? := by
      intro i hi
      rw [← hcrlf, List.getElem?_take, if_pos hi, List.getElem?_drop]
    have hcr := hget 0 (by decide)
    have hlf := hget 1 (by decide)
    have hin : ∀ i, i < l.length → (pre ++ (l ++ rest))[pre.length + i]? = l[i]? := by
      intro i hi
      rw [List.getElem?_append_right (Nat.le_add_right _ _), Nat.add_sub_cancel_left,
        List.getElem?_append_left hi]
    rcases (by omega : j = 1 ∨ 2 ≤ j) with rfl | hge
    · -- the byte before the line is the LF of the line break
      rcases hpre with rfl | ⟨q, rfl⟩
      · rw [List.length_nil] at htwo
        omega
      · have hlast : (q ++ crlf).length + 1 - 2 + 0 = q.length + 1 := by
          have h2 : crlf.length = 2 := rfl
          rw [List.length_append, h2]
          omega
        rw [hlast, List.append_assoc, List.getElem?_append_right (Nat.le_add_right _ 1),
          Nat.add_sub_cancel_left] at hcr
        exact absurd (Option.some.inj hcr) (by decide)
    · -- both bytes lie in the line, which has no CRLF
      apply hline
      apply infix_of_getElem? (i := j - 2)
      · rw [← hin (j - 2) (by omega), ← Nat.add_sub_assoc hge]
        exact hcr
      · rw [← hin (j - 2 + 1) (by omega)]
        have hidx : pre.length + (j - 2 + 1) = pre.length + j - 2 + 1 := by omega
        rw [hidx]
        exact hlf

theorem startsAt_line (hpre : Breaks pre) :
    (valName <+: low l ∧ StartsAt (pre ++ (low l ++ (crlf ++ rest))) pre.length valName.length) ↔
      begins valName l = true ∧ pre.length ≠ 2 := by
  have hcolon : ∀ (h : valName <+: low l),
      (pre ++ (low l ++ (crlf ++ rest)))[pre.length + valName.length]? = some (chr ':') ↔
        begins valName l = true := by
    intro h
    rw [begins_iff]
    obtain ⟨t, ht⟩ := h
    rw [List.getElem?_append_right (Nat.le_add_right _ _), Nat.add_sub_cancel_left, ← ht,
      List.append_assoc, List.getElem?_append_right (Nat.le_refl _), Nat.sub_self,
      List.prefix_append_right_inj]
    cases t with
    | nil =>
      refine iff_of_false (fun h => ?_) fun h => ?_
      · exact absurd (Option.some.inj h) (by decide)
      · exact absurd (List.prefix_nil.mp h) (List.cons_ne_nil _ _)
    | cons b t =>
      rw [List.cons_append, List.getElem?_cons_zero, Option.some.injEq, List.cons_prefix_cons]
      exact ⟨fun h => ⟨h.symm, List.nil_prefix⟩, fun h => h.1.symm⟩
  -- a line break stands before every line but the first; the loop cannot see it at offset 0
  have hwhere : (pre.length = 0 ∨ 2 < pre.length ∧
      ((pre ++ (low l ++ (crlf ++ rest))).drop (pre.length - 2)).take 2 = crlf) ↔
      pre.length ≠ 2 := by
    rcases hpre with rfl | ⟨q, rfl⟩
    · exact iff_of_true (.inl rfl) (by decide)
    · have h2 : crlf.length = 2 := rfl
      have hlen : (q ++ crlf).length = q.length + 2 := by rw [List.length_append, h2]
      have htake : ((q ++ crlf ++ (low l ++ (crlf ++ rest))).drop ((q ++ crlf).length - 2)).take 2 =
          crlf := by
        rw [hlen, Nat.add_sub_cancel, List.append_assoc, List.drop_left, ← h2, List.take_left]
      rw [htake, hlen, eq_self_iff_true, and_true]
      omega
  constructor
  · rintro ⟨hpref, hstart⟩
    exact ⟨(hcolon hpref).mp hstart.1, hwhere.mp hstart.2⟩
  · rintro ⟨hbegins, htwo⟩
    have hpref : valName <+: low l := (List.prefix_append valName _).trans (begins_iff.mp hbegins)
    exact ⟨hpref, (hcolon hpref).mpr hbegins, hwhere.mpr htwo⟩

/-! ## The loop -/

variable {s s' : HdrBufs} {fuel : Nat}

/-- What the loop has left of the block. -/
def HdrBufs.text (s : HdrBufs) : List Byte := s.hdrLcase.take s.hdrSize

theorem removeLoop_none (h : memFindOff k s.text valName = none) :
    removeLoop valName (fuel + 1) k s = some (.ok s) := by
  rw [removeLoop, ← HdrBufs.text, h]

theorem removeLoop_pass {i : Nat} (h : memFindOff k s.text valName = some i)
    (hstart : startsField s.hdrLcase i valName.length = some false) :
    removeLoop valName (fuel + 1) k s = removeLoop valName fuel (i + 1) s := by
  rw [removeLoop, ← HdrBufs.text, h]
  dsimp only
  rw [hstart]
  rfl

theorem removeLoop_skip (hne : valName ≠ []) {v' : Nat} : ∀ {fuel v : Nat}, v ≤ v' →
    (∀ k, v ≤ k → k < v' → valName <+: s.text.drop k →
      startsField s.hdrLcase k valName.length = some false) →
    s.text.length - v < fuel → ∃ fuel', s.text.length - v' < fuel' ∧
      removeLoop valName fuel v s = removeLoop valName fuel' v' s
  | 0, _, _, _, h => absurd h (Nat.not_lt_zero _)
  | fuel + 1, v, hle, hskip, hfuel => by
    cases hfind : memFindOff v s.text valName with
    | none =>
      have hnone : memFindOff v' s.text valName = none := by
        rw [memFindOff_eq_none hne] at hfind ⊢
        exact fun k hk => hfind k (Nat.le_trans hle hk)
      exact ⟨fuel + 1, by omega, by rw [removeLoop_none hfind, removeLoop_none hnone]⟩
    | some i =>
      have hi := (memFindOff_eq_some hne).mp hfind
      rcases Nat.lt_or_ge i v' with hlt | hge
      · have hbounds := memFindOff_bounds hne hfind
        have hpos := List.length_pos_iff.mpr hne
        obtain ⟨fuel', hfuel', hrun⟩ := @removeLoop_skip hne _ fuel (i + 1) hlt
          (fun k hk => hskip k (by omega)) (by omega)
        exact ⟨fuel', hfuel',
          (removeLoop_pass hfind (hskip i hi.1 hlt hi.2.1)).trans hrun⟩
      · -- the next place of the name is not passed over: both searches find it
        have hsame : memFindOff v' s.text valName = some i :=
          (memFindOff_eq_some hne).mpr
            ⟨hge, hi.2.1, fun k hk hlt => hi.2.2 k (Nat.le_trans hle hk) hlt⟩
        refine ⟨fuel + 1, by omega, ?_⟩
        rw [removeLoop, removeLoop, ← HdrBufs.text, hfind, hsame]

/-- The loop is behind `pre`, in front of the lines `ls`. -/
structure AtLines (s : HdrBufs) (pre : List Byte) (ls : List (List Byte)) : Prop where
  hdr : s.httpHdr.take s.hdrSize = pre ++ joined ls
  lcase : s.text = low pre ++ low (joined ls)
  hdrLen : s.hdrSize ≤ s.httpHdr.length
  lcaseLen : s.hdrSize ≤ s.hdrLcase.length

theorem AtLines.length_text (h : AtLines s pre ls) : s.text.length = s.hdrSize :=
  List.length_take_of_le h.lcaseLen

theorem AtLines.cons (h : AtLines s pre (l :: ls)) :
    s.text = low pre ++ (low l ++ (crlf ++ low (joined ls))) := by
  rw [h.lcase, joined_cons, low_append, low_append, low_crlf]

theorem AtLines.size_eq (h : AtLines s pre (l :: ls)) :
    s.hdrSize = pre.length + (l.length + (2 + (joined ls).length)) := by
  have h2 : crlf.length = 2 := rfl
  rw [← h.length_text, h.cons, List.length_append, List.length_append, List.length_append,
    length_low, length_low, length_low, h2]

theorem breaks_low (h : Breaks pre) : Breaks (low pre) := by
  rcases h with rfl | ⟨q, rfl⟩
  · exact .inl rfl
  · exact .inr ⟨low q, by rw [low_append, low_crlf]⟩

theorem breaks_line (pre l : List Byte) : Breaks (pre ++ (l ++ crlf)) :=
  .inr ⟨pre ++ l, (List.append_assoc pre l crlf).symm⟩

theorem AtLines.pass (h : AtLines s pre (l :: ls)) (hline : IsLine l) (hpre : Breaks pre)
    (hname : FieldName valName) (hkeep : ¬ (begins valName l = true ∧ pre.length ≠ 2))
    (hfuel : s.hdrSize - pre.length < fuel) :
    AtLines s (pre ++ (l ++ crlf)) ls ∧
      ∃ fuel', s.hdrSize - (pre ++ (l ++ crlf)).length < fuel' ∧
        removeLoop valName fuel pre.length s =
          removeLoop valName fuel' (pre ++ (l ++ crlf)).length s := by
  have hsize := h.size_eq
  have h2 : crlf.length = 2 := rfl
  have hlen : (pre ++ (l ++ crlf)).length = pre.length + (l.length + 2) := by
    rw [List.length_append, List.length_append, h2]
  refine ⟨⟨?_, ?_, h.hdrLen, h.lcaseLen⟩, ?_⟩
  · rw [h.hdr, joined_cons, List.append_assoc pre, List.append_assoc l]
  · rw [h.cons, low_append, low_append, low_crlf, List.append_assoc, List.append_assoc]
  · rw [← h.length_text] at hfuel ⊢
    apply removeLoop_skip hname.ne_nil _ _ hfuel
    · rw [hlen]
      omega
    · intro k hk hlt hpref
      obtain ⟨j, rfl⟩ := Nat.exists_eq_add_of_le hk
      have hdrop : s.text.drop (pre.length + j) = (low l ++ (crlf ++ low (joined ls))).drop j := by
        rw [h.cons, ← length_low pre, ← List.drop_drop, List.drop_left]
      rw [hdrop] at hpref
      obtain ⟨hj, hin⟩ := name_in_line hname (by rw [length_low]; omega) hpref
      have hfits := hin.length_le
      rw [length_low] at hj
      rw [List.length_drop, length_low] at hfits
      rw [startsField_eq h.lcaseLen (by omega), ← HdrBufs.text, h.cons, decide_eq_false]
      rcases Nat.eq_zero_or_pos j with rfl | hpos
      · -- at the beginning of the line
        intro hstart
        apply hkeep
        have hiff := @startsAt_line valName l (low (joined ls)) _ (breaks_low hpre)
        rw [length_low] at hiff
        exact hiff.mp ⟨hin, hstart⟩
      · have hinside := @not_startsAt_inside _ (crlf ++ low (joined ls)) _ _ valName.length
          (isLine_low hline) (breaks_low hpre) hpos (by rw [length_low]; exact hj)
        rwa [length_low] at hinside

theorem AtLines.find_end (h : AtLines s pre (l :: ls)) (hline : IsLine l)
    (hn : n + 1 ≤ l.length) :
    memFindOff (pre.length + n + 1) s.text crlf = some (pre.length + l.length) := by
  rw [memFindOff_eq_some (by decide)]
  have hdrop : ∀ i, s.text.drop (pre.length + i) =
      (low l ++ (crlf ++ low (joined ls))).drop i := by
    intro i
    rw [h.cons, ← length_low pre, ← List.drop_drop, List.drop_left]
  refine ⟨by omega, ?_, fun k hk hlt hpref => ?_⟩
  · rw [hdrop, ← length_low l, List.drop_left]
    exact List.prefix_append _ _
  · -- a CRLF before it would be one in the line
    obtain ⟨i, rfl⟩ := Nat.exists_eq_add_of_le (by omega : pre.length ≤ k)
    have hlt' : i < (low l).length := by
      rw [length_low]
      omega
    rw [hdrop] at hpref
    exact not_crlf_inside (isLine_low hline) hlt' hpref

theorem HdrBufs.text_mk (httpHdr hdrLcase : List Byte) (size ret : Nat) :
    HdrBufs.text ⟨httpHdr, hdrLcase, size, ret⟩ = hdrLcase.take size := rfl

/-- A line that begins with the name is taken out of both blocks. -/
theorem AtLines.take_out (h : AtLines s pre (l :: ls)) (hline : IsLine l) (hpre : Breaks pre)
    (hne : valName ≠ []) (hbegins : begins valName l = true) (htwo : pre.length ≠ 2) :
    ∃ s', removeLoop valName (fuel + 1) pre.length s = removeLoop valName fuel pre.length s' ∧
      AtLines s' pre ls ∧ s'.ret = s.ret + 1 ∧ s'.hdrSize + (l.length + 2) = s.hdrSize ∧
      s'.httpHdr.length = s.httpHdr.length ∧ s'.hdrLcase.length = s.hdrLcase.length := by
  have hsize := h.size_eq
  have h2 : crlf.length = 2 := rfl
  have hfit := (begins_iff.mp hbegins).length_le
  rw [List.length_append, List.length_singleton, length_low] at hfit
  -- the search stops at the line, and the field is found
  have hiff := @startsAt_line valName l (low (joined ls)) _ (breaks_low hpre)
  rw [length_low, ← h.cons] at hiff
  obtain ⟨hpref, hstart⟩ := hiff.mpr ⟨hbegins, htwo⟩
  have hfind : memFindOff pre.length s.text valName = some pre.length := by
    rw [memFindOff_eq_some hne]
    refine ⟨Nat.le_refl _, ?_, fun k hk hlt => absurd hlt (Nat.not_lt.mpr hk)⟩
    rw [h.cons, ← length_low pre, List.drop_left]
    exact hpref.trans (List.prefix_append _ _)
  have hfield : startsField s.hdrLcase pre.length valName.length = some true := by
    rw [startsField_eq h.lcaseLen (by omega), ← HdrBufs.text, decide_eq_true hstart]
  have hrange : removeRange s pre.length valName.length =
      some (pre.length, pre.length + l.length + 2) := by
    rw [removeRange, ← HdrBufs.text]
    rw [h.find_end hline hfit]
  -- the moves close the gap in both blocks
  obtain ⟨lcase, hmove, hlen, htake, -⟩ := @memmove_gap s.hdrLcase _ pre.length
    (pre.length + l.length + 2) h.lcaseLen (by omega) (by omega)
  obtain ⟨hdr, hmove', hlen', htake', -⟩ := @memmove_gap s.httpHdr _ pre.length
    (pre.length + l.length + 2) h.hdrLen (by omega) (by omega)
  have hgap : pre.length + l.length + 2 - pre.length = l.length + 2 := by omega
  rw [hgap] at htake htake'
  have hlow : low pre ++ (low l ++ (crlf ++ low (joined ls))) =
      (low pre ++ (low l ++ crlf)) ++ low (joined ls) := by
    rw [List.append_assoc, List.append_assoc]
  have hplain : pre ++ joined (l :: ls) = (pre ++ (l ++ crlf)) ++ joined ls := by
    rw [joined_cons, List.append_assoc, List.append_assoc]
  have hsum : pre.length + l.length + 2 = (pre ++ (l ++ crlf)).length := by
    rw [List.length_append, List.length_append, h2, Nat.add_assoc]
  have hsum' : pre.length + l.length + 2 = (low pre ++ (low l ++ crlf)).length := by
    rw [List.length_append, List.length_append, length_low, length_low, h2, Nat.add_assoc]
  refine ⟨⟨hdr, lcase, s.hdrSize - (l.length + 2), s.ret + 1⟩, ?_, ⟨?_, ?_, ?_, ?_⟩, rfl, ?_,
    hlen', hlen⟩
  · rw [removeLoop, ← HdrBufs.text, hfind]
    dsimp only
    rw [hfield, Option.bind_eq_bind, Option.bind_some, if_pos rfl, hrange]
    dsimp only [Option.bind_eq_bind, Option.bind_some]
    rw [hmove, hmove', hgap]
    rfl
  · dsimp only
    rw [htake', h.hdr, List.take_left, hsum, hplain, List.drop_left]
  · rw [HdrBufs.text_mk, htake, ← HdrBufs.text, h.cons]
    conv_lhs => rw [← length_low pre]
    rw [List.take_left, length_low, hsum', hlow, List.drop_left]
  · dsimp only
    have hle := h.hdrLen
    omega
  · dsimp only
    have hle := h.lcaseLen
    omega
  · dsimp only
    omega

/-- What a run of the loop leaves of the lines `ls` behind `pre`. -/
structure Removed (valName : List Byte) (s s' : HdrBufs) (pre : List Byte)
    (ls : List (List Byte)) : Prop where
  hdr : s'.httpHdr.take s'.hdrSize = pre ++ joined (keep valName pre.length ls)
  lcase : s'.text = low (pre ++ joined (keep valName pre.length ls))
  ret : s'.ret + (keep valName pre.length ls).length = s.ret + ls.length
  size_le : s'.hdrSize ≤ s.hdrSize

theorem removeLoop_spec (hname : FieldName valName) : ∀ {ls : List (List Byte)} {fuel : Nat}
    {s : HdrBufs} {pre : List Byte}, AtLines s pre ls → (∀ l ∈ ls, IsLine l) → Breaks pre →
    s.hdrSize - pre.length < fuel →
      ∃ s', removeLoop valName fuel pre.length s = some (.ok s') ∧ Removed valName s s' pre ls
  | [], 0, _, _, _, _, _, h => absurd h (Nat.not_lt_zero _)
  | [], fuel + 1, s, pre, h, _, _, _ => by
    have hnone : memFindOff pre.length s.text valName = none := by
      have hdrop : s.text.drop pre.length = [] := by
        rw [h.lcase]
        conv_lhs => rw [← length_low pre]
        exact List.drop_left
      rw [memFindOff, hdrop]
      rfl
    refine ⟨s, removeLoop_none hnone, h.hdr, ?_, rfl, Nat.le_refl _⟩
    rw [h.lcase, keep, low_append]
  | l :: ls, fuel, s, pre, h, hlines, hpre, hfuel => by
    have hline := hlines l List.mem_cons_self
    have hrest : ∀ m ∈ ls, IsLine m := fun m hm => hlines m (List.mem_cons_of_mem l hm)
    by_cases hkeep : begins valName l = true ∧ pre.length ≠ 2
    · cases fuel with
      | zero => exact absurd hfuel (Nat.not_lt_zero _)
      -- the line is taken out, and the loop goes on at the same place
      | succ fuel =>
        obtain ⟨s₁, hrun, hat, hret, hsize, -, -⟩ :=
          @AtLines.take_out _ _ _ _ _ fuel h hline hpre hname.ne_nil hkeep.1 hkeep.2
        have hcons := h.size_eq
        obtain ⟨s₂, hrun', hrem⟩ :=
          @removeLoop_spec hname _ fuel _ _ hat hrest hpre (by omega)
        have hle := hrem.size_le
        have hcnt := hrem.ret
        have hskip : keep valName pre.length (l :: ls) = keep valName pre.length ls := by
          rw [keep, if_pos hkeep]
        refine ⟨s₂, hrun.trans hrun', ?_, ?_, ?_, by omega⟩
        · rw [hskip, hrem.hdr]
        · rw [hskip, hrem.lcase]
        · rw [hskip, List.length_cons]
          omega
    · -- the line stays, and the loop goes on behind it
      obtain ⟨hat, fuel', hfuel', hrun⟩ := h.pass hline hpre hname hkeep hfuel
      obtain ⟨s₂, hrun', hrem⟩ := removeLoop_spec hname hat hrest (breaks_line pre l) hfuel'
      have hlen : (pre ++ (l ++ crlf)).length = pre.length + l.length + 2 := by
        have h2 : crlf.length = 2 := rfl
        rw [List.length_append, List.length_append, h2, Nat.add_assoc]
      have hstays : keep valName pre.length (l :: ls) =
          l :: keep valName (pre ++ (l ++ crlf)).length ls := by
        rw [keep, if_neg hkeep, hlen]
      have hcnt := hrem.ret
      refine ⟨s₂, hrun.trans hrun', ?_, ?_, ?_, hrem.size_le⟩
      · rw [hstays, joined_cons, hrem.hdr, List.append_assoc, List.append_assoc]
      · rw [hstays, joined_cons, hrem.lcase, List.append_assoc, List.append_assoc]
      · rw [hstays, List.length_cons, List.length_cons]
        omega

end Http
