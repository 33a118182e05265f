import Liblcb.Proto.HttpHdrRemoveSpec

/-!
# The lookup after a field has been removed

The bytes that `http_hdr_val_get` finds before and after `http_hdr_val_remove`.
-/

namespace Http

open Mem

variable {valName n l f : List Byte} {ls lines fs : List (List Byte)} {pos : Nat}
  {r : Nat × List Byte} {hdr : List Byte}

/-! ## The bytes of a value -/

/-- The bytes at the place that the lookup returns. -/
def valBytes (hdr : List Byte) (v : Option Nat × Option Nat) : List Byte :=
  (hdr.drop (v.1.getD 0)).take (v.2.getD 0)

/-- `http_hdr_val_get`, with the bytes of the value. -/
def hdrValue (hdr valName : List Byte) : Option (Except Err (List Byte)) :=
  (httpHdrValGet hdr valName).map fun res => res.map (valBytes hdr)

def trimVal (f : List Byte) : List Byte := ((fieldVal f).drop (leadBlanks f)).rdropWhile isBlank

theorem valBytes_trimmed (h : StandsIn hdr r) :
    valBytes hdr ((trimmed r).valRet, (trimmed r).valRetSize) = trimVal r.2 := by
  obtain ⟨pre, name, val, tail, rfl, hname, rfl⟩ := h
  obtain ⟨hcolon, hval⟩ := @fieldVal_eq _ val hname
  have hlead : leadBlanks (name ++ chr ':' :: val) ≤ val.length := by
    rw [leadBlanks, hval]
    exact (List.takeWhile_prefix isBlank).length_le
  have hdrop : (pre ++ ((name ++ chr ':' :: val) ++ tail)).drop
      (pre.length + (name.length + 1) + leadBlanks (name ++ chr ':' :: val)) =
      val.drop (leadBlanks (name ++ chr ':' :: val)) ++ tail := by
    have hcons : (name ++ chr ':' :: val) ++ tail = (name ++ [chr ':']) ++ (val ++ tail) := by
      rw [List.append_assoc, List.append_assoc]
      rfl
    have hlen : name.length + 1 = (name ++ [chr ':']).length := by
      rw [List.length_append, List.length_singleton]
    rw [Nat.add_assoc, ← List.drop_drop, List.drop_left, ← List.drop_drop, hcons, hlen,
      List.drop_left, List.drop_append_of_le_length hlead]
  have hpref := List.rdropWhile_prefix isBlank (l := val.drop (leadBlanks (name ++ chr ':' :: val)))
  rw [valBytes, trimmed, trimVal]
  dsimp only [Option.getD_some]
  rw [hcolon, hval, hdrop]
  exact (List.prefix_iff_eq_take.mp (hpref.trans (List.prefix_append _ tail))).symm

/-! ## Blocks of lines -/

theorem linesAt_lt (hlines : ∀ l ∈ ls, IsLine l) :
    ∀ {pos : Nat}, ∀ r ∈ linesAt pos (fields (joined ls)), r.2 ≠ [] →
      fieldEnd r < pos + (joined ls).length := by
  induction ls with
  | nil =>
    intro pos r hr hne
    rw [List.mem_singleton.mp hr] at hne
    exact absurd rfl hne
  | cons l ls ih =>
    intro pos r hr hne
    have ih := @ih (fun m hm => hlines m (List.mem_cons_of_mem l hm)) (pos + l.length + 2)
    have h2 : crlf.length = 2 := rfl
    have hlen : pos + (joined (l :: ls)).length = pos + l.length + 2 + (joined ls).length := by
      rw [joined_cons, List.length_append, List.length_append, h2]
      omega
    rw [hlen]
    rw [fields_joined (hlines l List.mem_cons_self)] at hr
    by_cases hfold : Folded (joined ls)
    · rw [if_pos hfold] at hr
      cases hfs : fields (joined ls) with
      | nil => exact absurd hfs (fields_ne_nil _)
      | cons g gs =>
        -- a folded line: the field ends where the field of the remaining lines ends
        have hpos : pos + (l ++ crlf ++ g).length + 2 = pos + l.length + 2 + g.length + 2 := by
          rw [List.length_append, List.length_append, h2]
          omega
        rw [hfs, prepend, linesAt, hpos] at hr
        rw [hfs, linesAt] at ih
        rcases List.mem_cons.mp hr with rfl | hr
        · have hg : g ≠ [] := by
            rintro rfl
            exact not_folded_nil (folded_head hfs hfold)
          have hlt := ih _ List.mem_cons_self hg
          rw [fieldEnd] at hlt ⊢
          dsimp only at hlt ⊢
          omega
        · exact ih r (List.mem_cons_of_mem _ hr) hne
    · rw [if_neg hfold, linesAt] at hr
      rcases List.mem_cons.mp hr with rfl | hr
      · rw [fieldEnd]
        dsimp only
        omega
      · exact ih r hr hne

theorem scannedAt_joined (hline : IsLine l) (ls : List (List Byte)) :
    scannedAt (joined (l :: ls)) = linesAt (l.length + 2) (fields (joined ls)) := by
  have hdrop : (l ++ (crlf ++ joined ls)).drop (l.length + 2) = joined ls := by
    rw [← List.drop_drop, List.drop_left]
    rfl
  rw [joined_cons, scannedAt, memmem_line hline]
  dsimp only
  rw [hdrop]

theorem not_endBlank (hline : IsLine l) (hlines : ∀ m ∈ ls, IsLine m)
    (hr : r ∈ scannedRecords (joined (l :: ls))) (hn : named n r.2 = true) :
    ¬ EndBlank (joined (l :: ls)) r := by
  rintro ⟨hend, -⟩
  rw [scannedRecords, scannedAt_joined hline] at hr
  obtain ⟨m, hm, a, htext, hpos, ha⟩ := records_last hr
  obtain ⟨name, val, hval, -, -⟩ := named_iff.mp hn
  have hne : m.2 ≠ [] := by
    intro hnil
    rw [hnil, List.append_nil] at htext
    apply ha
    rw [← htext, hval]
    exact List.mem_append_right name List.mem_cons_self
  have hlt := linesAt_lt hlines m hm hne
  have hsame : fieldEnd m = fieldEnd r := by
    rw [fieldEnd, fieldEnd, hpos, htext, List.length_append, Nat.add_assoc]
  have h2 : crlf.length = 2 := rfl
  rw [hsame, hend, joined_cons, List.length_append, List.length_append, h2] at hlt
  omega

theorem hdrValue_joined (hline : IsLine l) (hlines : ∀ m ∈ ls, IsLine m) (n : List Byte) :
    hdrValue (joined (l :: ls)) n = some (((recTexts (fields (joined ls))).find? (named n)).elim
      (.error .espipe) fun f => .ok (trimVal f)) := by
  have hstart := fromStart (joined (l :: ls)) n
  have htexts : (scannedRecords (joined (l :: ls))).map Prod.snd =
      recTexts (fields (joined ls)) := by
    rw [scannedRecords, scannedAt_joined hline, recTexts_eq]
  have hhead : (withName n (scannedRecords (joined (l :: ls)))).head? =
      (scannedRecords (joined (l :: ls))).find? fun r => named n r.2 := List.head?_filter
  have hfind : (recTexts (fields (joined ls))).find? (named n) =
      ((scannedRecords (joined (l :: ls))).find? fun r => named n r.2).map Prod.snd := by
    rw [← htexts, List.find?_map]
    rfl
  have hstands := hstart.stands
  rw [hdrValue, hstart.get, hfind, hhead]
  rw [hhead] at hstands
  cases hr : (scannedRecords (joined (l :: ls))).find? fun r => named n r.2 with
  | none => rfl
  | some r =>
    have hn : named n r.2 = true :=
      List.find?_some (p := fun q : Nat × List Byte => named n q.2) hr
    have hend := not_endBlank hline hlines (List.mem_of_find?_eq_some hr) hn
    rw [Option.elim_some, if_neg hend, Option.map_some, Option.map_some, Option.elim_some]
    exact congrArg some (congrArg Except.ok (valBytes_trimmed (hstands r hr)))

/-! ## The first lines -/

theorem keep_eq_others : ∀ {ls : List (List Byte)} {pos : Nat}, 2 < pos →
    keep valName pos ls = others valName ls
  | [], _, _ => rfl
  | l :: ls, pos, hpos => by
    rw [keep, others_cons]
    by_cases hbegins : begins valName l = true
    · rw [if_pos ⟨hbegins, by omega⟩, if_pos hbegins, keep_eq_others hpos]
    · rw [if_neg (fun h => hbegins h.1), if_neg hbegins, keep_eq_others (by omega)]

/-- The start line does not begin with the name, and the line behind an empty start line, which is
at offset 2, does not either. -/
def StartApart (valName : List Byte) : List (List Byte) → Prop
  | [] => True
  | l :: ls => begins valName l = false ∧ (l = [] → ∀ m ∈ ls.head?, begins valName m = false)

theorem keep_apart (h : StartApart valName (l :: ls)) :
    keep valName 0 (l :: ls) = l :: others valName ls := by
  obtain ⟨hfirst, hsecond⟩ := h
  rw [keep, if_neg (fun h => Bool.false_ne_true (hfirst.symm.trans h.1)), Nat.zero_add]
  by_cases hnil : l = []
  · subst hnil
    have hsecond := hsecond rfl
    cases ls with
    | nil => rfl
    | cons m ls =>
      have hm : begins valName m = false := hsecond m rfl
      rw [keep, if_neg (fun h => Bool.false_ne_true (hm.symm.trans h.1)), others_cons, hm,
        if_neg Bool.false_ne_true, keep_eq_others (by rw [List.length_nil]; omega)]
  · have hpos := List.length_pos_iff.mpr hnil
    rw [keep_eq_others (by omega)]

theorem others_begins : ∀ m ∈ others valName ls, begins valName m = false := by
  intro m hm
  have h := (List.mem_filter.mp hm).2
  rwa [Bool.not_eq_true'] at h

theorem keep_zero (valName : List Byte) : ∀ lines : List (List Byte),
    (∀ m ∈ keep valName 0 lines, begins valName m = false) ∨
      ∃ m rest, keep valName 0 lines = [] :: m :: rest ∧ begins valName m = true
  | [] => .inl fun m hm => absurd hm List.not_mem_nil
  | l :: ls => by
    rw [keep]
    by_cases hbegins : begins valName l = true
    · rw [if_pos ⟨hbegins, by decide⟩]
      exact keep_zero valName ls
    · rw [if_neg (fun h => hbegins h.1), Nat.zero_add]
      by_cases hnil : l = []
      · -- the second line stands at offset 2
        subst hnil
        cases ls with
        | nil => exact .inl fun m hm => (List.mem_singleton.mp hm) ▸ Bool.eq_false_iff.mpr hbegins
        | cons m ls =>
          rw [keep, if_neg (fun h => h.2 rfl)]
          by_cases hm : begins valName m = true
          · exact .inr ⟨m, _, rfl, hm⟩
          · rw [keep_eq_others (by rw [List.length_nil]; omega)]
            refine .inl fun k hk => ?_
            rcases List.mem_cons.mp hk with rfl | hk
            · exact Bool.eq_false_iff.mpr hbegins
            · rcases List.mem_cons.mp hk with rfl | hk
              · exact Bool.eq_false_iff.mpr hm
              · exact others_begins k hk
      · have hpos := List.length_pos_iff.mpr hnil
        rw [keep_eq_others (by omega)]
        refine .inl fun k hk => ?_
        rcases List.mem_cons.mp hk with rfl | hk
        · exact Bool.eq_false_iff.mpr hbegins
        · exact others_begins k hk

theorem keep_count (valName : List Byte) : ∀ (lines : List (List Byte)) (pos : Nat),
    (keep valName pos lines).length + lines.countP (begins valName) =
      lines.length + (keep valName pos lines).countP (begins valName)
  | [], _ => rfl
  | l :: ls, pos => by
    rw [keep, List.countP_cons, List.length_cons]
    by_cases hkeep : begins valName l = true ∧ pos ≠ 2
    · have ih := keep_count valName ls pos
      rw [if_pos hkeep, if_pos hkeep.1]
      omega
    · have ih := keep_count valName ls (pos + l.length + 2)
      rw [if_neg hkeep, List.length_cons, List.countP_cons]
      omega

theorem keep_lines (hlines : ∀ l ∈ lines, IsLine l) :
    ∀ {pos : Nat}, ∀ l ∈ keep valName pos lines, IsLine l := by
  have hsub : ∀ {lines : List (List Byte)} {pos : Nat},
      ∀ l ∈ keep valName pos lines, l ∈ lines := by
    intro lines
    induction lines with
    | nil => exact fun l hl => hl
    | cons m ms ih =>
      intro pos l hl
      rw [keep] at hl
      split_ifs at hl with hkeep
      · exact List.mem_cons_of_mem m (ih l hl)
      · rcases List.mem_cons.mp hl with rfl | hl
        · exact List.mem_cons_self
        · exact List.mem_cons_of_mem m (ih l hl)
  exact fun {pos} l hl => hlines l (hsub l hl)

/-! ## The lookups after it -/

theorem recTexts_mem : ∀ {fs : List (List Byte)} {g : List Byte}, g ∈ recTexts fs →
    ∃ f ∈ fs, g = f ∨ ∃ g', g = f ++ (crlf ++ g')
  | [], _, h => absurd h List.not_mem_nil
  | f :: fs, g, h => by
    cases hr : recTexts (f :: fs) with
    | nil =>
      rw [hr] at h
      exact absurd h List.not_mem_nil
    | cons g₀ gs =>
      rw [hr] at h
      rcases List.mem_cons.mp h with rfl | hmem
      · exact ⟨f, List.mem_cons_self, recTexts_head hr⟩
      · have htail : g ∈ recTexts fs := by
          rw [recTexts] at hr
          split_ifs at hr with hf
          · exact (List.cons.inj hr).2 ▸ hmem
          · cases hrs : recTexts fs with
            | nil =>
              rw [hrs] at hr
              cases hr
            | cons g₁ gs₁ =>
              rw [hrs] at hr
              exact List.mem_cons_of_mem g₁ ((List.cons.inj hr).2 ▸ hmem)
        obtain ⟨f', hf', hg⟩ := recTexts_mem htail
        exact ⟨f', List.mem_cons_of_mem f hf', hg⟩

theorem hdrValue_gone (hname : FieldName valName) (hline : IsLine l) (hlines : ∀ m ∈ ls, IsLine m)
    (h : ∀ m ∈ ls, begins valName m = false) :
    hdrValue (joined (l :: ls)) valName = some (.error .espipe) := by
  have hfields : ∀ f ∈ fields (joined ls), named valName f = false := by
    have hcount := countP_fields hname hlines
    rw [List.countP_eq_zero.mpr fun m hm => Bool.eq_false_iff.mp (h m hm),
      List.countP_eq_zero] at hcount
    exact fun f hf => Bool.eq_false_iff.mpr (hcount f hf)
  have hnone : (recTexts (fields (joined ls))).find? (named valName) = none := by
    rw [List.find?_eq_none]
    intro g hg
    obtain ⟨f, hf, hfirst⟩ := recTexts_mem hg
    rcases hfirst with rfl | ⟨g', rfl⟩
    · rw [hfields g hf]
      exact Bool.false_ne_true
    · rw [named_eq_begins hname, begins_append hname, ← named_eq_begins hname, hfields f hf]
      exact Bool.false_ne_true
  rw [hdrValue_joined hline hlines, hnone]
  rfl

theorem hdrValue_found (hname : FieldName valName) (hline : IsLine l) {m : List Byte}
    (hlines : ∀ k ∈ m :: ls, IsLine k) (h : begins valName m = true) :
    hdrValue (joined (l :: m :: ls)) valName ≠ some (.error .espipe) := by
  -- the first field begins with the line
  obtain ⟨f, fs, hfs, hf⟩ : ∃ f fs, fields (joined (m :: ls)) = f :: fs ∧
      named valName f = true := by
    rw [fields_joined (hlines m List.mem_cons_self)]
    by_cases hfold : Folded (joined ls)
    · rw [if_pos hfold]
      cases hr : fields (joined ls) with
      | nil => exact absurd hr (fields_ne_nil _)
      | cons g gs =>
        refine ⟨_, gs, rfl, ?_⟩
        rw [named_eq_begins hname, List.append_assoc, begins_append hname, h]
    · rw [if_neg hfold]
      exact ⟨m, _, rfl, by rw [named_eq_begins hname, h]⟩
  have hcolon : chr ':' ∈ f := by
    obtain ⟨name, val, rfl, -, -⟩ := named_iff.mp hf
    exact List.mem_append_right name List.mem_cons_self
  rw [hdrValue_joined hline hlines, hfs, recTexts, if_pos hcolon, List.find?_cons_of_pos hf]
  intro h
  cases h

/-! ## The removal -/

/-- What is left of the block. -/
def HdrBufs.left (s : HdrBufs) : List Byte := s.httpHdr.take s.hdrSize

/-- The fields with the name are counted, and the name is not found any more. -/
def CountedGone (hdr valName : List Byte) (s : HdrBufs) : Prop :=
  s.ret = fieldCount hdr valName ∧ hdrValue s.left valName = some (.error .espipe)

/-- Every other name is looked up with the same result as before. -/
def OthersSame (hdr valName : List Byte) (s : HdrBufs) : Prop :=
  ∀ n, memCmpin n valName = false → hdrValue s.left n = hdrValue hdr n

theorem httpHdrValRemove_lines (hlines : ∀ l ∈ lines, IsLine l) (hname : FieldName valName) :
    ∃ s, httpHdrValRemove (joined lines) (low (joined lines)) (joined lines).length valName =
        some (.ok s) ∧
      s.left = joined (keep valName 0 lines) ∧ s.text = low s.left ∧
      s.ret + (keep valName 0 lines).length = lines.length := by
  by_cases hnil : (joined lines).length = 0
  · have hempty : lines = [] := by
      cases lines with
      | nil => rfl
      | cons l ls =>
        have h2 : crlf.length = 2 := rfl
        rw [joined_cons, List.length_append, List.length_append, h2] at hnil
        omega
    subst hempty
    exact ⟨⟨[], [], 0, 0⟩, by rw [httpHdrValRemove, if_pos (.inl rfl)]; rfl, rfl, rfl, rfl⟩
  · have hat : AtLines ⟨joined lines, low (joined lines), (joined lines).length, 0⟩ [] lines := by
      refine ⟨List.take_length, ?_, Nat.le_refl _, Nat.le_of_eq (length_low _).symm⟩
      rw [HdrBufs.text_mk, ← length_low, List.take_length]
      rfl
    obtain ⟨s, hrun, hrem⟩ := @removeLoop_spec _ hname _ ((joined lines).length + 1) _ _ hat hlines
      (.inl rfl) (Nat.lt_succ_of_le (Nat.sub_le _ _))
    refine ⟨s, ?_, hrem.hdr, ?_, ?_⟩
    · rw [httpHdrValRemove, if_neg (not_or.mpr ⟨hnil, hname.ne_nil⟩)]
      exact hrun
    · rw [hrem.lcase, HdrBufs.left, hrem.hdr]
    · exact hrem.ret.trans (Nat.zero_add _)

theorem fieldCount_joined (hname : FieldName valName) (hline : IsLine l)
    (hlines : ∀ m ∈ ls, IsLine m) :
    fieldCount (joined (l :: ls)) valName = ls.countP (begins valName) := by
  have hblank : ¬ Folded (valName.map lower) := by
    rw [hname.low]
    rintro (h | h)
    · exact hname.blank.1 h
    · exact hname.blank.2 h
  rw [← countP_scanned hblank, scanned_joined hline, countP_fields hname hlines]

theorem others_length (valName : List Byte) (ls : List (List Byte)) :
    ls.countP (begins valName) + (others valName ls).length = ls.length := by
  rw [others, ← List.countP_eq_length_filter]
  have h := List.length_eq_countP_add_countP (begins valName) (l := ls)
  rw [h]
  congr 1
  apply List.countP_congr
  intro m _
  rw [Bool.not_eq_true', decide_eq_true_iff, Bool.not_eq_true]

/-- The count and the name itself are right exactly where the first lines are no matches. -/
theorem countedGone_iff (hlines : ∀ l ∈ lines, IsLine l) (hname : FieldName valName)
    {s : HdrBufs} (hleft : s.left = joined (keep valName 0 lines))
    (hret : s.ret + (keep valName 0 lines).length = lines.length) :
    CountedGone (joined lines) valName s ↔ StartApart valName lines := by
  cases lines with
  | nil =>
    refine iff_of_true ⟨hret, ?_⟩ trivial
    rw [hleft]
    rfl
  | cons l ls =>
    have hline := hlines l List.mem_cons_self
    have hrest : ∀ m ∈ ls, IsLine m := fun m hm => hlines m (List.mem_cons_of_mem l hm)
    rw [CountedGone, fieldCount_joined hname hline hrest, hleft]
    constructor
    · rintro ⟨hcnt, hgone⟩
      rcases keep_zero valName (l :: ls) with hnone | ⟨m, rest, hkeep, hm⟩
      · -- nothing with the name is left, so the first lines do not begin with it
        have hsum := keep_count valName (l :: ls) 0
        rw [List.countP_eq_zero.mpr fun m hm => Bool.eq_false_iff.mp (hnone m hm),
          List.countP_cons] at hsum
        have hfirst : begins valName l = false := by
          by_contra hbegins
          rw [if_pos (Bool.not_eq_false _ ▸ hbegins)] at hsum
          omega
        refine ⟨hfirst, fun hnil m hm => ?_⟩
        subst hnil
        cases ls with
        | nil => cases hm
        | cons k ls =>
          cases hm
          apply Bool.eq_false_iff.mpr
          intro hbegins
          have hmem : m ∈ keep valName 0 ([] :: m :: ls) := by
            rw [keep, if_neg (fun h => Bool.false_ne_true (hfirst.symm.trans h.1)), keep,
              if_neg (fun h => h.2 rfl)]
            exact List.mem_cons_of_mem _ List.mem_cons_self
          exact Bool.false_ne_true ((hnone m hmem).symm.trans hbegins)
      · -- a field with the name is left at offset 2, and the lookup finds it
        have hlines' := @keep_lines valName _ hlines 0
        rw [hkeep] at hgone hlines'
        exact absurd hgone (hdrValue_found hname (hlines' [] List.mem_cons_self)
          (fun k hk => hlines' k (List.mem_cons_of_mem _ hk)) hm)
    · intro h
      rw [keep_apart h, List.length_cons, List.length_cons] at hret
      rw [keep_apart h]
      have hlen := others_length valName ls
      refine ⟨by omega, hdrValue_gone hname hline (fun m hm => ?_) others_begins⟩
      exact hrest m (List.mem_filter.mp hm).1

theorem find?_filter_ne {name : List Byte} (hn : memCmpin n name = false) :
    ∀ gs : List (List Byte),
      (gs.filter fun g => !named name g).find? (named n) = gs.find? (named n)
  | [] => rfl
  | g :: gs => by
    have ih := find?_filter_ne hn gs
    rw [List.filter_cons]
    cases hg : named name g with
    | false => rw [Bool.not_false, if_pos rfl, List.find?_cons, List.find?_cons, ih]
    -- a removed field has no other name
    | true =>
      have hother : named n g = false := by
        obtain ⟨x, val, rfl, hx, hcmp⟩ := named_iff.mp hg
        rw [named_append hx, Bool.eq_false_iff]
        intro hcmp'
        apply Bool.eq_false_iff.mp hn
        rw [memCmpin_iff] at hcmp hcmp' ⊢
        exact hcmp'.symm.trans hcmp
      rw [Bool.not_true, if_neg Bool.false_ne_true, ih, List.find?_cons, hother]

theorem othersSame_of_oneLine (hlines : ∀ l ∈ lines, IsLine l) (hname : FieldName valName)
    {s : HdrBufs} (hleft : s.left = joined (keep valName 0 lines))
    (hstart : StartApart valName lines) (hone : OneLine valName (scanned (joined lines))) :
    OthersSame (joined lines) valName s := by
  intro n hn
  cases lines with
  | nil => rw [hleft]; rfl
  | cons l ls =>
    have hline := hlines l List.mem_cons_self
    have hrest : ∀ m ∈ ls, IsLine m := fun m hm => hlines m (List.mem_cons_of_mem l hm)
    have hothers : ∀ m ∈ others valName ls, IsLine m := fun m hm =>
      hrest m (List.mem_filter.mp hm).1
    rw [scanned_joined hline] at hone
    rw [hleft, keep_apart hstart, hdrValue_joined hline hothers, hdrValue_joined hline hrest,
      fields_others hname hrest hone.line, recTexts_filter hname hone.shown,
      find?_filter_ne hn]

/-- `http_hdr_val_remove` ends and keeps the two blocks alike.  It counts the fields with the name,
and that name is gone, exactly where no match is in the first line or at offset 2.  It leaves every
other name alone where moreover the removed fields have one line each and stand behind no line
without `:`. -/
theorem httpHdrValRemove_spec (lines : List (List Byte)) (valName : List Byte)
    (hlines : ∀ l ∈ lines, IsLine l) (hname : FieldName valName) :
    ∃ s, httpHdrValRemove (joined lines) (low (joined lines)) (joined lines).length valName =
        some (.ok s) ∧
      s.hdrLcase.take s.hdrSize = low s.left ∧
      (CountedGone (joined lines) valName s ↔ StartApart valName lines) ∧
      (StartApart valName lines → OneLine valName (scanned (joined lines)) →
        OthersSame (joined lines) valName s) := by
  obtain ⟨s, hrun, hleft, hlow, hret⟩ := httpHdrValRemove_lines hlines hname
  exact ⟨s, hrun, hlow, countedGone_iff hlines hname hleft hret,
    othersSame_of_oneLine hlines hname hleft⟩

/-- A block with a `Host` field in its last line. -/
def hostLines : List (List Byte) := ["s", "foo:a", "host:b"].map fun l => l.toList.map chr

theorem fieldName_host : FieldName host :=
  ⟨by decide, by decide, by decide, by decide, by decide, by decide⟩

theorem httpHdrValRemove_spec_host : ∃ s,
    httpHdrValRemove (joined hostLines) (low (joined hostLines)) (joined hostLines).length host =
      some (.ok s) ∧ CountedGone (joined hostLines) host s ∧
      OthersSame (joined hostLines) host s := by
  have hlines : ∀ l ∈ hostLines, IsLine l := by
    unfold IsLine
    decide +kernel
  have hstart : StartApart host hostLines := ⟨by decide +kernel, fun h => (by cases h)⟩
  have hone : OneLine host (scanned (joined hostLines)) := by
    refine ⟨?_, by decide +kernel⟩
    unfold IsLine
    decide +kernel
  obtain ⟨s, hrun, -, hcnt, hothers⟩ :=
    httpHdrValRemove_spec hostLines host hlines fieldName_host
  exact ⟨s, hrun, hcnt.mpr hstart, hothers hstart hone⟩

/-- A folded `Host` field behind another field. -/
def foldedLines : List (List Byte) := ["s", "foo:a", "host:b", " c"].map fun l => l.toList.map chr

/-- The line that is left goes on with the field before it. -/
theorem httpHdrValRemove_not_right : ¬ ∃ s,
    httpHdrValRemove (joined foldedLines) (low (joined foldedLines)) (joined foldedLines).length
      host = some (.ok s) ∧ CountedGone (joined foldedLines) host s ∧
      OthersSame (joined foldedLines) host s := by
  rintro ⟨s, hrun, -, hothers⟩
  have hdone : httpHdrValRemove (joined foldedLines) (low (joined foldedLines))
      (joined foldedLines).length host =
      some (.ok ⟨"s\r\nfoo:a\r\n c\r\n:b\r\n c\r\n".toList.map chr,
        "s\r\nfoo:a\r\n c\r\n:b\r\n c\r\n".toList.map chr, 14, 1⟩) := by
    decide +kernel
  rw [hdone, Option.some.injEq, Except.ok.injEq] at hrun
  have hfoo := hothers ("foo".toList.map chr) (by decide)
  rw [← hrun] at hfoo
  revert hfoo
  decide +kernel

end Http
