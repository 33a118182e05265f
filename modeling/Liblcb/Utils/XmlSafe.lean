import Liblcb.Utils.XmlScan
import Mathlib.Data.List.TakeWhile

/-!
# The scanner stays in its data

What a turn of the scanner can do, for any data and any path.  It has no outcome in three cases: the
`<` it has found is the last byte; a tag closes with nothing of the path open; an element inside the
one that is looked for, or another one the path has no entry for, has its name compared.
-/

namespace Xml

open Mem Progress

variable {data : List Byte} {tags : List (List Byte)} {s s' : Scan}

/-! ## Runs of bytes -/

theorem length_slice_le (data : List Byte) (p n : Nat) : (slice data p n).length ≤ n := by
  rw [slice, List.length_take]
  exact Nat.min_le_left _ _

theorem slice_succ {p : Nat} (n : Nat) {b : Byte} (hb : data[p]? = some b) :
    slice data p (n + 1) = b :: slice data (p + 1) n := by
  obtain ⟨hp, rfl⟩ := List.getElem?_eq_some_iff.mp hb
  rw [slice, List.drop_eq_getElem_cons hp, List.take_succ_cons]
  rfl

theorem skipWhile_eq (test : Byte → Bool) {last : Nat} (hlast : last < data.length) :
    ∀ (fuel p : Nat), p ≤ last → last - p < fuel →
    skipWhile test data last fuel p =
      some (min (p + ((slice data p (last + 1 - p)).takeWhile test).length) last)
  | 0, p, _, hfuel => absurd hfuel (Nat.not_lt_zero _)
  | fuel + 1, p, hp, hfuel => by
    have hget : data[p]? = some data[p] := List.getElem?_eq_getElem (by omega)
    have hlen : last + 1 - p = last - p + 1 := by omega
    rw [skipWhile, hget, Option.bind_eq_bind, Option.bind_some, hlen, slice_succ _ hget,
      List.takeWhile_cons]
    cases htest : test data[p] with
    | false => simp [hp]
    | true =>
      by_cases hlt : p < last
      · have hnext : last - p = last + 1 - (p + 1) := by omega
        simp only [hlt, decide_true, Bool.and_true, if_true, List.length_cons]
        rw [skipWhile_eq test hlast fuel (p + 1) (by omega) (by omega), hnext, Nat.add_assoc,
          Nat.add_comm 1]
      · have heq : p = last := by omega
        simp [heq]

theorem skipWhile_end (test : Byte → Bool) {last fuel p : Nat} (hlt : last < p)
    (hp : p < data.length) : skipWhile test data last (fuel + 1) p = some p := by
  rw [skipWhile, List.getElem?_eq_getElem hp, Option.bind_eq_bind, Option.bind_some]
  have hno : decide (p < last) = false := decide_eq_false (by omega)
  rw [hno, Bool.and_false]
  rfl

/-! ## The tag of an element -/

/-- The name in a tag that goes up to `tagEnd`. -/
def nameOf (data : List Byte) (tagStart tagEnd : Nat) : List Byte :=
  (slice data tagStart (tagEnd + 1 - tagStart)).takeWhile (!isSpace ·)

def openTurn (tags : List (List Byte)) (s : Scan) (name : List Byte) (ee : Bool)
    (tagEnd attr : Nat) : Option Turn :=
  let level := if ee then s.level else s.level + 1
  if level ≠ 1 ∧ ¬ ee then some (.again { s with tagEnd := tagEnd, level := level })
  else do
    let tag ← tags[s.curTag]?
    if ¬ memCmpn tag name then some (.again { s with tagEnd := tagEnd, level := level })
    else if s.curTag + 1 < tags.length then
      some (.again { s with tagEnd := tagEnd, curTag := s.curTag + 1, level := 0 })
    else if ee then some (.done (.ok ⟨tagEnd + 2, none, none⟩))
    else some (.again ⟨tagEnd, s.curTag + 1, 0, some (attr, tagEnd + 1 - attr), some (tagEnd + 2)⟩)

def compareTurn (tags : List (List Byte)) (s : Scan) (name : List Byte) (level : Int)
    (tagEnd : Nat) (found : Turn) (tag : List Byte) : Option Turn :=
  if ¬ memCmpn tag name then some (.again { s with tagEnd := tagEnd, level := level })
  else if s.curTag + 1 < tags.length then
    some (.again { s with tagEnd := tagEnd, curTag := s.curTag + 1, level := 0 })
  else some found

section OpenTurn

variable {name : List Byte} {tagEnd attr : Nat}

theorem openTurn_ee : openTurn tags s name true tagEnd attr = tags[s.curTag]?.bind
    (compareTurn tags s name s.level tagEnd (.done (.ok ⟨tagEnd + 2, none, none⟩))) := by
  rw [openTurn]
  simp only [if_true, not_true, and_false, if_false]
  rfl

theorem openTurn_sub (hlevel : s.level ≠ 0) : openTurn tags s name false tagEnd attr =
    some (.again { s with tagEnd := tagEnd, level := s.level + 1 }) := by
  rw [openTurn]
  simp only [Bool.false_eq_true, if_false, not_false_eq_true, and_true]
  rw [if_pos (by omega)]

theorem openTurn_top (hlevel : s.level = 0) : openTurn tags s name false tagEnd attr =
    tags[s.curTag]?.bind (compareTurn tags s name 1 tagEnd (.again ⟨tagEnd, s.curTag + 1, 0,
      some (attr, tagEnd + 1 - attr), some (tagEnd + 2)⟩)) := by
  rw [openTurn]
  simp only [Bool.false_eq_true, if_false, not_false_eq_true, and_true, hlevel, Int.zero_add,
    ne_eq, not_true]
  rfl

end OpenTurn

/-- Where the tag ends: in front of `>` or of `/>`. -/
def tagEndOf (data : List Byte) (gt : Nat) : Nat :=
  if data[gt - 1]? = some (chr '/') then gt - 2 else gt - 1

theorem tagStart_le {tagStart gt : Nat} {b : Byte}
    (hgt : memChrOff tagStart data (chr '>') = some gt) (hb : data[tagStart]? = some b)
    (hne : b ≠ chr '>') (hslash : b ≠ chr '/') :
    tagStart ≤ tagEndOf data gt ∧ tagEndOf data gt + 1 ≤ gt ∧ gt < data.length := by
  rcases memChrOff_eq_some hgt with ⟨hle, hget, -⟩
  have hlt := (List.getElem?_eq_some_iff.mp hget).1
  have hstart : tagStart ≠ gt := by
    rintro rfl
    rw [hb, Option.some.injEq] at hget
    exact hne hget
  unfold tagEndOf
  by_cases hee : data[gt - 1]? = some (chr '/')
  · have hprev : tagStart ≠ gt - 1 := by
      intro heq
      rw [← heq, hb, Option.some.injEq] at hee
      exact hslash hee
    rw [if_pos hee]
    omega
  · rw [if_neg hee]
    omega

theorem takeWhile_stops {α : Type} (p : α → Bool) : ∀ (l : List α),
    (l.takeWhile p).length < l.length → ∃ a, l[(l.takeWhile p).length]? = some a ∧ p a = false
  | [], h => absurd h (Nat.lt_irrefl 0)
  | a :: l, h => by
    rw [List.takeWhile_cons] at h ⊢
    cases hp : p a with
    | false => exact ⟨a, rfl, hp⟩
    | true =>
      simp only [hp, if_true, List.length_cons] at h
      obtain ⟨b, hb, hpb⟩ := takeWhile_stops p l (Nat.lt_of_succ_lt_succ h)
      exact ⟨b, hb, hpb⟩

theorem getElem?_slice {p n i : Nat} (hi : i < n) : (slice data p n)[i]? = data[p + i]? := by
  rw [slice, List.getElem?_take_of_lt hi, List.getElem?_drop]

/-- The loops that look for the end of the name and for the first attribute. -/
theorem nameEnd_eq {tagStart tagEnd : Nat} (hpos : 0 < tagStart) (hle : tagStart ≤ tagEnd)
    (hlt : tagEnd + 1 < data.length) :
    ∃ nameEnd b attr,
      skipWhile (!isSpace ·) data tagEnd (data.length + 1) tagStart = some nameEnd ∧
      data[nameEnd]? = some b ∧
      (if isSpace b then nameEnd - 1 else nameEnd) + 1 =
        tagStart + (nameOf data tagStart tagEnd).length ∧
      skipWhile isSpace data tagEnd (data.length + 1)
        (tagStart + (nameOf data tagStart tagEnd).length) = some attr ∧ attr ≤ tagEnd + 1 := by
  have hlen : (slice data tagStart (tagEnd + 1 - tagStart)).length = tagEnd + 1 - tagStart := by
    rw [slice, List.length_take, List.length_drop]
    omega
  have hskip := skipWhile_eq (!isSpace ·) (Nat.lt_of_succ_lt hlt) (data.length + 1) tagStart hle
    (by omega)
  change skipWhile _ _ _ _ _ = some (min (tagStart + (nameOf data tagStart tagEnd).length) tagEnd)
    at hskip
  have hname : (nameOf data tagStart tagEnd).length ≤ tagEnd + 1 - tagStart := by
    rw [← hlen]
    exact (List.takeWhile_prefix _).length_le
  by_cases hall : (nameOf data tagStart tagEnd).length = tagEnd + 1 - tagStart
  · -- no blank: the name is all of the tag
    have hself : nameOf data tagStart tagEnd = slice data tagStart (tagEnd + 1 - tagStart) :=
      (List.takeWhile_prefix _).eq_of_length (by rw [hlen]; exact hall)
    have hget : data[tagEnd]? = some data[tagEnd] := List.getElem?_eq_getElem (by omega)
    have hmem : data[tagEnd] ∈ nameOf data tagStart tagEnd := by
      rw [hself]
      apply List.mem_of_getElem? (i := tagEnd - tagStart)
      rw [getElem?_slice (by omega), Nat.add_sub_cancel' hle, hget]
    have hspace : isSpace data[tagEnd] = false := by
      have htest := List.mem_takeWhile_imp hmem
      simpa using htest
    rw [Nat.min_eq_right (by omega)] at hskip
    refine ⟨tagEnd, data[tagEnd], tagEnd + 1, hskip, hget, ?_, ?_, Nat.le_refl _⟩
    · rw [hspace, hall]
      simp only [Bool.false_eq_true, if_false]
      omega
    · rw [hall, Nat.add_sub_cancel' (Nat.le_succ_of_le hle)]
      exact skipWhile_end isSpace (Nat.lt_succ_self _) hlt
  · obtain ⟨b, hget, hspace⟩ := takeWhile_stops (!isSpace ·)
      (slice data tagStart (tagEnd + 1 - tagStart)) (by
        rw [hlen]
        exact Nat.lt_of_le_of_ne hname hall)
    change (slice data tagStart (tagEnd + 1 - tagStart))[(nameOf data tagStart tagEnd).length]? =
      some b at hget
    rw [getElem?_slice (by omega)] at hget
    rw [Bool.not_eq_false'] at hspace
    rw [Nat.min_eq_left (by omega)] at hskip
    have hattr := skipWhile_eq isSpace (Nat.lt_of_succ_lt hlt) (data.length + 1)
      (tagStart + (nameOf data tagStart tagEnd).length) (by omega) (by omega)
    refine ⟨_, b, _, hskip, hget, ?_, hattr, Nat.le_succ_of_le (Nat.min_le_right _ _)⟩
    rw [hspace, if_pos rfl]
    omega

theorem slice_nameOf {tagStart tagEnd : Nat} :
    slice data tagStart (nameOf data tagStart tagEnd).length = nameOf data tagStart tagEnd := by
  have hpre : nameOf data tagStart tagEnd <+: slice data tagStart (tagEnd + 1 - tagStart) :=
    List.takeWhile_prefix _
  have hle := hpre.length_le
  have hbound := length_slice_le data tagStart (tagEnd + 1 - tagStart)
  conv_rhs => rw [List.prefix_iff_eq_take.mp hpre]
  rw [slice, slice, List.take_take, Nat.min_eq_left (Nat.le_trans hle hbound)]

theorem scanOpen_eq {tagStart gt : Nat} {b : Byte} (hpos : 0 < tagStart)
    (hgt : memChrOff tagStart data (chr '>') = some gt) (hb : data[tagStart]? = some b)
    (hne : b ≠ chr '>') (hslash : b ≠ chr '/') :
    ∃ attr ≤ tagEndOf data gt + 1, scanOpen data tags s tagStart =
      openTurn tags s (nameOf data tagStart (tagEndOf data gt)) (data[gt - 1]? = some (chr '/'))
        (tagEndOf data gt) attr := by
  rcases tagStart_le hgt hb hne hslash with ⟨hle, hend, hlt⟩
  have hin : tagEndOf data gt + 1 < data.length := by omega
  obtain ⟨nameEnd, c, attr, hskip, hc, hname, hattr, hbound⟩ := nameEnd_eq hpos hle hin
  have hlast : data[gt - 1]? = some data[gt - 1] := List.getElem?_eq_getElem (by omega)
  have hdef : tagEndOf data gt = if data[gt - 1] = chr '/' then gt - 2 else gt - 1 := by
    rw [tagEndOf, hlast]
    simp only [Option.some.injEq]
  refine ⟨attr, hbound, ?_⟩
  rw [scanOpen, hgt]
  dsimp only
  simp only [hlast, Option.bind_eq_bind, Option.bind_some, ← hdef, hskip, hc, hname,
    Nat.add_sub_cancel_left, slice_nameOf, hattr, openTurn, Option.some.injEq, decide_eq_true_eq]

/-! ## One turn -/

/-- The bytes behind `<` that begin something else than an element. -/
def markup : List Byte := [chr '?', chr '!', chr '>', chr '/']

/-- A turn that reads nothing it must not: behind the `<` there is a byte; a tag that closes an
element of the path closes one that is open; the path has an entry for a name that is compared. -/
def Legal (data : List Byte) (tags : List (List Byte)) (s : Scan) : Prop :=
  ∀ lt, memChrOff s.tagEnd data (chr '<') = some lt → ∃ b, data[lt + 1]? = some b ∧
    ∀ gt, memChrOff (lt + 1) data (chr '>') = some gt →
      (b = chr '/' → gt ≠ lt + 2 → s.level ≤ 0 → 0 < s.curTag) ∧
      (b ∉ markup → s.level = 0 ∨ data[gt - 1]? = some (chr '/') → s.curTag < tags.length)

/-- What a turn that goes on does to the variables. -/
structure Moves (data : List Byte) (tags : List (List Byte)) (s s' : Scan) (lt : Nat) : Prop where
  past : lt < s'.tagEnd
  curTag : s'.curTag ≤ s.curTag ∨ s'.curTag ≤ tags.length
  value : (s'.attr = s.attr ∧ s'.value = s.value) ∨
    ∃ gt attr, data[gt]? = some (chr '>') ∧ attr ≤ gt ∧ s'.tagEnd + 1 = gt ∧
      s'.attr = some (attr, gt - attr) ∧ s'.value = some (gt + 1)

def Returns (data : List Byte) (s : Scan) (lt : Nat) (r : Found) : Prop :=
  (∃ gt < data.length, r = ⟨gt, none, none⟩) ∨
  ∃ gt value, gt < data.length ∧ data[lt + 1]? = some (chr '/') ∧ s.value = some value ∧
    r = ⟨gt + 1, s.attr, some (extractCdata data value (lt - value))⟩

/-- A turn with an outcome, with what it does. -/
def Outcome (data : List Byte) (tags : List (List Byte)) (s : Scan) (lt : Nat) : Turn → Prop
  | .again s' => Moves data tags s s' lt
  | .done (.ok r) => Returns data s lt r
  | .done (.error e) => e = .espipe

theorem outcome_tagEnd {lt p : Nat} (h : lt < p) :
    Outcome data tags s lt (.again { s with tagEnd := p }) :=
  ⟨h, .inl (Nat.le_refl _), .inl ⟨rfl, rfl⟩⟩

theorem outcome_skipTo {lt n : Nat} {found : Option Nat} (h : ∀ p, found = some p → lt < p + n) :
    Outcome data tags s lt (skipTo s found n) := by
  cases found with
  | none => rfl
  | some p => exact outcome_tagEnd (h p rfl)

theorem outcome_scanDecl (lt : Nat) : Outcome data tags s lt (scanDecl data s (lt + 2)) := by
  unfold scanDecl
  dsimp only
  split
  · refine outcome_skipTo fun p hp => ?_
    have hle := (memFindOff_bounds (by decide) hp).1
    omega
  split
  · refine outcome_skipTo fun p hp => ?_
    have hle := (memFindOff_bounds (by decide) hp).1
    omega
  split
  · refine outcome_skipTo fun p hp => ?_
    have hle := (memChrOff_bounds hp).1
    omega
  · rfl

theorem outcome_scanClose {lt : Nat} (hb : data[lt + 1]? = some (chr '/')) :
    (∃ t, scanClose data tags s (lt + 1) = some t ∧ Outcome data tags s lt t) ∨
    (scanClose data tags s (lt + 1) = none ∧ (s.curTag ≤ tags.length →
      ∃ gt, memChrOff (lt + 1) data (chr '>') = some gt ∧ gt ≠ lt + 2 ∧ s.level ≤ 0 ∧
        s.curTag = 0)) := by
  unfold scanClose
  cases hgt : memChrOff (lt + 1) data (chr '>') with
  | none => exact .inl ⟨_, rfl, rfl⟩
  | some gt =>
    rcases memChrOff_eq_some hgt with ⟨hle, hget, -⟩
    have hlen := (List.getElem?_eq_some_iff.mp hget).1
    have hne : gt ≠ lt + 1 := by
      rintro rfl
      rw [hb, Option.some.injEq] at hget
      exact absurd hget (by decide)
    dsimp only
    -- `</>` only moves the scan
    by_cases hempty : gt - 1 = lt + 1
    · rw [if_pos hempty]
      exact .inl ⟨_, rfl, outcome_tagEnd (by omega)⟩
    rw [if_neg hempty]
    by_cases hlevel : 0 ≤ s.level - 1
    · rw [if_pos hlevel]
      exact .inl ⟨_, rfl, by show lt < gt - 1; omega, .inl (Nat.le_refl _), .inl ⟨rfl, rfl⟩⟩
    rw [if_neg hlevel]
    -- the end of an element of the path: `tag_arr[cur_tag - 1]` is read
    by_cases hzero : s.curTag = 0
    · rw [if_pos hzero]
      exact .inr ⟨rfl, fun _ => ⟨gt, rfl, by omega, by omega, hzero⟩⟩
    rw [if_neg hzero]
    -- the entry is there, as the cursor is within the path
    cases htag : tags[s.curTag - 1]? with
    | none =>
      refine .inr ⟨rfl, fun hcur => ?_⟩
      rw [List.getElem?_eq_none_iff] at htag
      omega
    | some tag =>
      rw [Option.bind_eq_bind, Option.bind_some]
      left
      split
      · cases hvalue : s.value with
        | none =>
          refine ⟨_, rfl, by show lt < gt - 1; omega, .inl ?_, .inl ⟨rfl, hvalue.symm⟩⟩
          exact Nat.sub_le _ _
        | some value =>
          refine ⟨_, rfl, .inr ⟨gt, value, hlen, hb, hvalue, ?_⟩⟩
          rw [Nat.add_sub_cancel, show gt - 1 + 2 = gt + 1 by omega]
      · exact ⟨_, rfl, by show lt < gt - 1; omega, .inl (Nat.le_refl _), .inl ⟨rfl, rfl⟩⟩

theorem outcome_compare {lt tagEnd : Nat} {name : List Byte} {level : Int} {found : Turn}
    (hpast : lt < tagEnd) (hfound : s.curTag < tags.length → Outcome data tags s lt found) :
    (∃ t, tags[s.curTag]?.bind (compareTurn tags s name level tagEnd found) = some t ∧
      Outcome data tags s lt t) ∨
    (tags[s.curTag]?.bind (compareTurn tags s name level tagEnd found) = none ∧
      tags.length ≤ s.curTag) := by
  cases htag : tags[s.curTag]? with
  | none => exact .inr ⟨rfl, List.getElem?_eq_none_iff.mp htag⟩
  | some tag =>
    have hcur := (List.getElem?_eq_some_iff.mp htag).1
    rw [Option.bind_some, compareTurn]
    left
    split
    · exact ⟨_, rfl, hpast, .inl (Nat.le_refl _), .inl ⟨rfl, rfl⟩⟩
    split
    · exact ⟨_, rfl, hpast, .inr hcur, .inl ⟨rfl, rfl⟩⟩
    · exact ⟨_, rfl, hfound hcur⟩

theorem outcome_scanOpen {lt : Nat} {b : Byte} (hb : data[lt + 1]? = some b) (hno : b ∉ markup) :
    (∃ t, scanOpen data tags s (lt + 1) = some t ∧ Outcome data tags s lt t) ∨
    (scanOpen data tags s (lt + 1) = none ∧ ∃ gt, memChrOff (lt + 1) data (chr '>') = some gt ∧
      (s.level = 0 ∨ data[gt - 1]? = some (chr '/')) ∧ tags.length ≤ s.curTag) := by
  have hne : b ≠ chr '>' := by
    rintro rfl
    exact hno (by decide)
  have hslash : b ≠ chr '/' := by
    rintro rfl
    exact hno (by decide)
  cases hgt : memChrOff (lt + 1) data (chr '>') with
  | none =>
    have hopen : scanOpen data tags s (lt + 1) = some (.done (.error .espipe)) := by
      rw [scanOpen, hgt]
    exact .inl ⟨_, hopen, rfl⟩
  | some gt =>
    rcases tagStart_le hgt hb hne hslash with ⟨hle, hend, hlen⟩
    obtain ⟨attr, hattr, hopen⟩ :=
      @scanOpen_eq data tags s _ _ _ (Nat.succ_pos lt) hgt hb hne hslash
    have hget := (memChrOff_eq_some hgt).2.1
    have hpast : lt < tagEndOf data gt := by omega
    rw [hopen]
    -- the name of an empty element is compared at any depth
    by_cases hee : data[gt - 1]? = some (chr '/')
    · have hfound : Outcome data tags s lt
          (.done (.ok ⟨tagEndOf data gt + 2, none, none⟩)) := by
        refine .inl ⟨gt, hlen, ?_⟩
        rw [tagEndOf, if_pos hee] at hle ⊢
        rw [show gt - 2 + 2 = gt by omega]
      rw [decide_eq_true hee, openTurn_ee]
      rcases outcome_compare hpast fun _ => hfound with hok | ⟨hnone, hlen⟩
      · exact .inl hok
      · exact .inr ⟨hnone, gt, rfl, .inr hee, hlen⟩
    · have hdef : tagEndOf data gt = gt - 1 := if_neg hee
      have hsucc : tagEndOf data gt + 1 = gt := by omega
      rw [decide_eq_false hee]
      -- the name of any other one only at level 0
      by_cases hlevel : s.level = 0
      · have hfound : s.curTag < tags.length → Outcome data tags s lt
            (.again ⟨tagEndOf data gt, s.curTag + 1, 0,
              some (attr, tagEndOf data gt + 1 - attr), some (tagEndOf data gt + 2)⟩) := by
          intro hcur
          refine ⟨hpast, .inr hcur, .inr ⟨gt, attr, hget, by omega, hsucc, ?_, ?_⟩⟩
          · rw [hsucc]
          · show some (tagEndOf data gt + 2) = some (gt + 1)
            congr 1
            omega
        rw [openTurn_top hlevel]
        rcases outcome_compare hpast hfound with hok | ⟨hnone, hlen⟩
        · exact .inl hok
        · exact .inr ⟨hnone, gt, rfl, .inl hlevel, hlen⟩
      · rw [openTurn_sub hlevel]
        exact .inl ⟨_, rfl, hpast, .inl (Nat.le_refl _), .inl ⟨rfl, rfl⟩⟩

/-- A turn has an outcome where it is legal, and there only. -/
theorem scanTag_outcome {lt : Nat} (hlt : memChrOff s.tagEnd data (chr '<') = some lt) :
    (∃ t, scanTag data tags s = some t ∧ Outcome data tags s lt t) ∨
    (scanTag data tags s = none ∧ (s.curTag ≤ tags.length → ¬ Legal data tags s)) := by
  unfold scanTag
  rw [hlt]
  dsimp only
  cases hb : data[lt + 1]? with
  | none =>
    -- the byte behind `<` is behind the data
    refine .inr ⟨rfl, fun _ hlegal => ?_⟩
    obtain ⟨b, hget, -⟩ := hlegal lt hlt
    rw [hb] at hget
    cases hget
  | some b =>
    rw [Option.bind_eq_bind, Option.bind_some]
    by_cases hpi : b = chr '?'
    · rw [if_pos hpi]
      refine .inl ⟨_, rfl, outcome_skipTo fun p hp => ?_⟩
      have hle := (memFindOff_bounds (by decide) hp).1
      omega
    by_cases hdecl : b = chr '!'
    · rw [if_neg hpi, if_pos hdecl]
      exact .inl ⟨_, rfl, outcome_scanDecl lt⟩
    by_cases hgt : b = chr '>'
    · rw [if_neg hpi, if_neg hdecl, if_pos hgt]
      exact .inl ⟨_, rfl, outcome_tagEnd (by omega)⟩
    by_cases hslash : b = chr '/'
    · rw [if_neg hpi, if_neg hdecl, if_neg hgt, if_pos hslash]
      rcases outcome_scanClose (hslash ▸ hb) with hok | ⟨hnone, hbad⟩
      · exact .inl hok
      · refine .inr ⟨hnone, fun hcur hlegal => ?_⟩
        obtain ⟨gt, hclose, hne, hle, hzero⟩ := hbad hcur
        obtain ⟨b', hget, hall⟩ := hlegal lt hlt
        rw [hb, Option.some.injEq] at hget
        have hpos := (hall gt hclose).1 (hget ▸ hslash) hne hle
        omega
    · have hno : b ∉ markup := by
        intro hmem
        simp only [markup, List.mem_cons, List.not_mem_nil, or_false] at hmem
        tauto
      rw [if_neg hpi, if_neg hdecl, if_neg hgt, if_neg hslash]
      rcases outcome_scanOpen hb hno with hok | ⟨hnone, gt, hclose, hcompared, hle⟩
      · exact .inl hok
      · refine .inr ⟨hnone, fun _ hlegal => ?_⟩
        obtain ⟨b', hget, hall⟩ := hlegal lt hlt
        rw [hb, Option.some.injEq] at hget
        have hlt' := (hall gt hclose).2 (hget ▸ hno) hcompared
        omega

theorem scanTag_end (hlt : memChrOff s.tagEnd data (chr '<') = none) :
    scanTag data tags s = some (.done (.error .espipe)) := by
  rw [scanTag, hlt]

theorem scanTag_none (hbad : ¬ Legal data tags s) : scanTag data tags s = none := by
  simp only [Legal, not_forall] at hbad
  obtain ⟨lt, hlt, hbad⟩ := hbad
  unfold scanTag
  rw [hlt]
  dsimp only
  cases hb : data[lt + 1]? with
  | none => rfl
  | some b =>
    have hall : ¬ ∀ gt, memChrOff (lt + 1) data (chr '>') = some gt →
        (b = chr '/' → gt ≠ lt + 2 → s.level ≤ 0 → 0 < s.curTag) ∧
        (b ∉ markup → s.level = 0 ∨ data[gt - 1]? = some (chr '/') →
          s.curTag < tags.length) := fun h => hbad ⟨b, hb, h⟩
    simp only [not_forall] at hall
    obtain ⟨gt, hgt, hall⟩ := hall
    rw [Option.bind_eq_bind, Option.bind_some]
    -- the two ways in which a turn is not legal with a byte behind its `<`
    rcases not_and_or.mp hall with hclose | hopen
    · simp only [not_forall, Nat.not_lt, Nat.le_zero_eq] at hclose
      obtain ⟨rfl, hne, hlevel, hzero⟩ := hclose
      rw [if_neg (by decide), if_neg (by decide), if_neg (by decide), if_pos rfl, scanClose, hgt]
      dsimp only
      rw [if_neg (by omega), if_neg (by omega), if_pos hzero]
    · simp only [not_forall, Nat.not_lt] at hopen
      obtain ⟨hno, hcompared, hlen⟩ := hopen
      have hnone : tags[s.curTag]? = none := List.getElem?_eq_none_iff.mpr hlen
      have hbytes : b ≠ chr '?' ∧ b ≠ chr '!' ∧ b ≠ chr '>' ∧ b ≠ chr '/' := by
        simpa [markup] using hno
      rcases hbytes with ⟨hpi, hdecl, hne, hslash⟩
      rw [if_neg hpi, if_neg hdecl, if_neg hne, if_neg hslash]
      obtain ⟨attr, -, hturn⟩ :=
        @scanOpen_eq data tags s _ _ _ (Nat.succ_pos lt) hgt hb hne hslash
      rw [hturn]
      by_cases hee : data[gt - 1]? = some (chr '/')
      · rw [decide_eq_true hee, openTurn_ee, hnone]
        rfl
      · have hlevel : s.level = 0 := hcompared.elim id fun h => absurd h hee
        rw [decide_eq_false hee, openTurn_top hlevel, hnone]
        rfl

theorem scanTag_none_iff (hcur : s.curTag ≤ tags.length) :
    scanTag data tags s = none ↔ ¬ Legal data tags s := by
  refine ⟨fun hnone hlegal => ?_, scanTag_none⟩
  cases hlt : memChrOff s.tagEnd data (chr '<') with
  | none =>
    rw [scanTag_end hlt] at hnone
    cases hnone
  | some lt =>
    rcases @scanTag_outcome data tags s lt hlt with ⟨t, ht, -⟩ | ⟨-, hillegal⟩
    · rw [ht] at hnone
      cases hnone
    · exact hillegal hcur hlegal

/-! ## A run -/

/-- The variables as every turn leaves them: the attributes are in the data, and the value begins
behind the `>` of a tag that has been gone past. -/
structure Bounded (data : List Byte) (tags : List (List Byte)) (s : Scan) : Prop where
  curTag : s.curTag ≤ tags.length
  attr : ∀ a, s.attr = some a → a.1 + a.2 ≤ data.length
  value : ∀ v, s.value = some v →
    v ≤ s.tagEnd + 2 ∧ ∃ gt, v = gt + 1 ∧ data[gt]? = some (chr '>')

theorem outcome_of_scanTag {t : Turn} (h : scanTag data tags s = some t)
    (hne : t ≠ .done (.error .espipe)) :
    ∃ lt, memChrOff s.tagEnd data (chr '<') = some lt ∧ Outcome data tags s lt t := by
  cases hlt : memChrOff s.tagEnd data (chr '<') with
  | none =>
    rw [scanTag_end hlt, Option.some.injEq] at h
    exact absurd h.symm hne
  | some lt =>
    rcases @scanTag_outcome data tags s lt hlt with ⟨t', ht, hout⟩ | ⟨hnone, -⟩
    · rw [h, Option.some.injEq] at ht
      exact ⟨lt, rfl, ht ▸ hout⟩
    · rw [h] at hnone
      cases hnone

theorem bounded_step (hs : Bounded data tags s) (h : scanTag data tags s = some (.again s')) :
    Bounded data tags s' := by
  obtain ⟨lt, hlt, hmoves⟩ := outcome_of_scanTag h (fun h => by cases h)
  have hge := (memChrOff_eq_some hlt).1
  have hpast := hmoves.past
  have hcur := hs.curTag
  refine ⟨by rcases hmoves.curTag with h | h <;> omega, fun a ha => ?_, fun v hv => ?_⟩
  · rcases hmoves.value with ⟨hattr, -⟩ | ⟨gt, attr, hget, hle, -, hattr, -⟩
    · exact hs.attr a (hattr ▸ ha)
    · have hlen := (List.getElem?_eq_some_iff.mp hget).1
      rw [hattr, Option.some.injEq] at ha
      rw [← ha]
      show attr + (gt - attr) ≤ data.length
      omega
  · rcases hmoves.value with ⟨-, hvalue⟩ | ⟨gt, attr, hget, -, hend, -, hvalue⟩
    · rcases hs.value v (hvalue ▸ hv) with ⟨hle, hgt⟩
      exact ⟨by omega, hgt⟩
    · rw [hvalue, Option.some.injEq] at hv
      exact ⟨by omega, gt, hv.symm, hget⟩

theorem value_le (hs : Bounded data tags s) {lt v : Nat}
    (hlt : memChrOff s.tagEnd data (chr '<') = some lt) (hslash : data[lt + 1]? = some (chr '/'))
    (hv : s.value = some v) : v ≤ lt := by
  rcases memChrOff_eq_some hlt with ⟨hge, hget, -⟩
  rcases hs.value v hv with ⟨hle, gt, rfl, hgt⟩
  by_contra hlt'
  rcases (by omega : lt = gt ∨ lt + 1 = gt) with rfl | heq
  · rw [hget, Option.some.injEq] at hgt
    exact absurd hgt (by decide)
  · rw [heq, hgt, Option.some.injEq] at hslash
    exact absurd hslash (by decide)

theorem extractCdata_le (data : List Byte) (value dataAvail : Nat) :
    (extractCdata data value dataAvail).1 + (extractCdata data value dataAvail).2 ≤
      value + dataAvail := by
  unfold extractCdata
  split
  · exact Nat.le_refl _
  split
  · split
    · exact Nat.le_refl _
    · rename_i tagEnd hfind
      rcases memFindOff_bounds (by decide) hfind with ⟨hle, hbound⟩
      have hlen := length_slice_le data value dataAvail
      dsimp only
      omega
  · exact Nat.le_refl _

/-- What is returned lies in the data. -/
def Inside (data : List Byte) (r : Found) : Prop :=
  r.nextPos ≤ data.length ∧ (∀ a, r.attr = some a → a.1 + a.2 ≤ data.length) ∧
    ∀ v, r.value = some v → v.1 + v.2 ≤ data.length

theorem inside_found (hs : Bounded data tags s) {r : Found}
    (h : scanTag data tags s = some (.done (.ok r))) : Inside data r := by
  obtain ⟨lt, hlt, hret⟩ := outcome_of_scanTag h (fun h => by cases h)
  rcases hret with ⟨gt, hgt, rfl⟩ | ⟨gt, value, hgt, hslash, hvalue, rfl⟩
  · refine ⟨Nat.le_of_lt hgt, fun a ha => ?_, fun v hv => ?_⟩
    · cases ha
    · cases hv
  · refine ⟨hgt, hs.attr, fun v hv => ?_⟩
    have hle := value_le hs hlt hslash hvalue
    have hlen := (memChrOff_bounds hlt).2
    have hbound := extractCdata_le data value (lt - value)
    rw [← Option.some.inj hv]
    omega

/-- What is left of the data. -/
def left (data : List Byte) (s : Scan) : Nat := data.length - s.tagEnd

theorem lowers_left : Lowers (scanTag data tags) (left data) := by
  intro s s' h
  obtain ⟨lt, hlt, hmoves⟩ := outcome_of_scanTag h (fun h => by cases h)
  have hge := (memChrOff_eq_some hlt).1
  have hlen := (memChrOff_bounds hlt).2
  have hpast := hmoves.past
  unfold left
  omega

theorem bounded_start (nextPos : Option Int) :
    Bounded data tags (scanStart data nextPos tags.length) := by
  have hzero : Bounded data tags ⟨0, 0, 0, none, none⟩ := by
    refine ⟨Nat.zero_le _, fun a ha => ?_, fun v hv => ?_⟩
    · cases ha
    · cases hv
  unfold scanStart
  split
  · exact hzero
  split
  · refine ⟨?_, fun a ha => ?_, fun v hv => ?_⟩
    · dsimp only
      split
      · exact Nat.zero_le _
      · exact Nat.sub_le _ _
    · cases ha
    · cases hv
  · exact hzero

theorem xmlGetValArr_eq (nextPos : Option Int) : xmlGetValArr data nextPos tags =
    run (scanTag data tags) (left data) (scanStart data nextPos tags.length) :=
  loop_eq_run lowers_left (Nat.lt_succ_of_le (Nat.sub_le _ _))

/-- The call ends, no turn reads outside the data or the path, and what it returns lies in the
data. -/
def Safe (data : List Byte) (nextPos : Option Int) (tags : List (List Byte)) : Prop :=
  ∃ out, xmlGetValArr data nextPos tags = some out ∧ ∀ r, out = .ok r → Inside data r

/-- The call is safe exactly when every turn it comes to is legal. -/
theorem safe_iff (data : List Byte) (nextPos : Option Int) (tags : List (List Byte)) :
    Safe data nextPos tags ↔
      ∀ s, Reaches (scanTag data tags) (scanStart data nextPos tags.length) s →
        Legal data tags s := by
  have hstart := @bounded_start data tags nextPos
  have hkeep : ∀ s s', Bounded data tags s → scanTag data tags s = some (.again s') →
      Bounded data tags s' := fun s s' hs h => bounded_step hs h
  have hsome := @run_isSome_iff _ _ _ _ (scanStart data nextPos tags.length)
    (@lowers_left data tags)
  unfold Safe
  rw [xmlGetValArr_eq]
  constructor
  · rintro ⟨out, hout, -⟩ s hs
    by_contra hillegal
    exact hsome.mp ⟨out, hout⟩ s hs (scanTag_none hillegal)
  · intro hlegal
    obtain ⟨out, hout⟩ := hsome.mpr fun s hs hnone => by
      have hbounded : Bounded data tags s := hs.invariant hstart hkeep
      exact (scanTag_none_iff hbounded.curTag).mp hnone (hlegal s hs)
    refine ⟨out, hout, fun r hr => ?_⟩
    obtain ⟨s, hs, hend⟩ := run_ends lowers_left hstart hkeep hout
    exact inside_found hs (hr ▸ hend)

/-- A tag that closes what has not been opened. -/
example : xmlGetValArr ("</a>".toList.map chr) none [[chr 'a']] = none := by decide

/-- A single `<`: the byte behind it is read. -/
theorem lt_not_safe : ¬ Safe [chr '<'] none [[chr 'a']] := by
  rintro ⟨out, hout, -⟩
  have hnone : xmlGetValArr [chr '<'] none [[chr 'a']] = none := by decide
  rw [hnone] at hout
  cases hout

end Xml
