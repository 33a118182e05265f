import Liblcb.Proto.HttpHdrRemove
import Liblcb.Proto.HttpHdrLookup

/-!
# What is left after a field has been removed

Removing works by lines, looking up by fields.  The two agree where the removed fields have one line
each and do not stand behind a line without `:`.
-/

namespace Http

open Mem

variable {valName l f : List Byte} {ls fs : List (List Byte)} {pos : Nat}

/-! ## Fields of lines -/

theorem not_folded_nil : ¬ Folded ([] : List Byte) := by decide

theorem folded_joined (l : List Byte) (ls : List (List Byte)) :
    Folded (joined (l :: ls)) ↔ Folded l := by
  rw [joined_cons]
  cases l with
  | nil => exact iff_of_false (by rw [Folded]; rintro (h | h) <;> cases h) not_folded_nil
  | cons b l => exact Iff.rfl

theorem fields_joined (hline : IsLine l) (ls : List (List Byte)) :
    fields (joined (l :: ls)) = if Folded (joined ls) then prepend (l ++ crlf) (fields (joined ls))
      else l :: fields (joined ls) := by
  rw [joined_cons]
  have hmem := @memmem_line _ (joined ls) hline
  rcases memmem_crlf (l ++ (crlf ++ joined ls)) with ⟨hnone, -⟩ | ⟨a, rest, heq, hsome, hfs⟩
  · rw [hmem] at hnone
    cases hnone
  · rw [hmem, Option.some.injEq] at hsome
    obtain ⟨rfl, hrest⟩ := List.append_inj heq hsome
    have htail : joined ls = rest := (List.cons.inj (List.cons.inj hrest).2).2
    rw [hfs, htail]

theorem scanned_joined (hline : IsLine l) (ls : List (List Byte)) :
    scanned (joined (l :: ls)) = fields (joined ls) := by
  have hdrop : (l ++ (crlf ++ joined ls)).drop (l.length + 2) = joined ls := by
    rw [← List.drop_drop, List.drop_left]
    rfl
  rw [joined_cons, scanned, memmem_line hline]
  dsimp only
  rw [hdrop]

theorem prefix_low {n : List Byte} (hcr : cr ∉ n) {g : List Byte} :
    n <+: low (l ++ (crlf ++ g)) ↔ n <+: low l := by
  rw [low_append, low_append, low_crlf]
  exact ⟨fun h => prefix_before hcr h, fun h => h.trans (List.prefix_append _ _)⟩

theorem begins_append (hname : FieldName valName) (g : List Byte) :
    begins valName (l ++ (crlf ++ g)) = begins valName l := by
  have hcr : cr ∉ valName ++ [chr ':'] := by
    rw [List.mem_append, not_or]
    exact ⟨hname.cr, by decide⟩
  rw [Bool.eq_iff_iff, begins_iff, begins_iff, prefix_low hcr]

theorem lower_colon : ∀ b : Byte, lower b = chr ':' → b = chr ':' := by decide +kernel

theorem named_eq_begins (hname : FieldName valName) (f : List Byte) :
    named valName f = begins valName f := by
  rw [Bool.eq_iff_iff, named_iff, begins_iff]
  constructor
  · rintro ⟨name, val, rfl, -, hcmp⟩
    have hlow : low name = valName := (memCmpin_iff.mp hcmp).trans hname.low
    refine ⟨low val, ?_⟩
    rw [low_append, hlow, List.append_assoc]
    rfl
  · rintro ⟨t, ht⟩
    rw [List.append_assoc, low, eq_comm, List.map_eq_append_iff] at ht
    obtain ⟨name, rest, rfl, hlow, hrest⟩ := ht
    cases rest with
    | nil => cases hrest
    | cons b val =>
      obtain ⟨hb, -⟩ := List.cons.inj hrest
      refine ⟨name, val, by rw [lower_colon b hb], fun hmem => ?_, ?_⟩
      · apply hname.colon
        rw [← hlow]
        exact List.mem_map.mpr ⟨chr ':', hmem, by decide⟩
      · exact memCmpin_iff.mpr (hlow.trans hname.low.symm)

theorem lower_blank : ∀ b : Byte, (b = ht → lower b = ht) ∧ (b = sp → lower b = sp) := by
  decide +kernel

theorem begins_folded (hname : FieldName valName) (h : Folded f) : begins valName f = false := by
  rw [Bool.eq_false_iff]
  intro hbegins
  obtain ⟨t, ht⟩ := begins_iff.mp hbegins
  obtain ⟨c, name, hc⟩ := List.exists_cons_of_ne_nil hname.ne_nil
  obtain ⟨hht, hsp⟩ := hname.blank
  rw [hc, List.head?_cons, Ne, Option.some.injEq] at hht hsp
  cases f with
  | nil => exact not_folded_nil h
  | cons b f =>
    rw [hc] at ht
    have hb : c = lower b := (List.cons.inj ht).1
    rcases h with h | h
    · exact hht (hb.trans ((lower_blank b).1 (Option.some.inj h)))
    · exact hsp (hb.trans ((lower_blank b).2 (Option.some.inj h)))

theorem folded_head {s : List Byte} (h : fields s = f :: fs) (hfold : Folded s) : Folded f := by
  rcases fields_split h with ⟨rfl, -⟩ | ⟨rest, rfl, -⟩
  · exact hfold
  · cases f with
    | nil =>
      rcases hfold with h | h
      · exact absurd (Option.some.inj h) (by decide)
      · exact absurd (Option.some.inj h) (by decide)
    | cons b f => exact hfold

theorem countP_fields (hname : FieldName valName) (hlines : ∀ l ∈ ls, IsLine l) :
    (fields (joined ls)).countP (named valName) = ls.countP (begins valName) := by
  induction ls with
  | nil =>
    have hnil : named valName [] = false := named_false List.not_mem_nil
    show [([] : List Byte)].countP (named valName) = 0
    rw [List.countP_singleton, hnil]
    rfl
  | cons l ls ih =>
    have ih := ih fun m hm => hlines m (List.mem_cons_of_mem l hm)
    rw [fields_joined (hlines l List.mem_cons_self), List.countP_cons]
    by_cases hfold : Folded (joined ls)
    · rw [if_pos hfold]
      cases hfs : fields (joined ls) with
      | nil => exact absurd hfs (fields_ne_nil _)
      | cons f fs =>
        have hf : named valName f = false := by
          rw [named_eq_begins hname, begins_folded hname (folded_head hfs hfold)]
        rw [hfs, List.countP_cons, hf] at ih
        rw [prepend, List.countP_cons, List.append_assoc, named_eq_begins hname,
          begins_append hname, ← ih]
        rfl
    · rw [if_neg hfold, List.countP_cons, ih, named_eq_begins hname]

/-! ## Fields that are one line each -/

/-- The fields that are taken out have one line each, and do not stand behind a line without `:`. -/
structure OneLine (valName : List Byte) (fs : List (List Byte)) : Prop where
  line : ∀ f ∈ fs, named valName f = true → IsLine f
  shown : ∀ f ∈ hidden false fs, named valName f = false

/-- The lines without the ones that begin with the name. -/
def others (valName : List Byte) (ls : List (List Byte)) : List (List Byte) :=
  ls.filter fun l => !begins valName l

theorem others_cons (l : List Byte) (ls : List (List Byte)) :
    others valName (l :: ls) = if begins valName l then others valName ls
      else l :: others valName ls := by
  rw [others, List.filter_cons]
  cases begins valName l with
  | true => rfl
  | false => rfl

theorem line_mem_fields (hline : IsLine l) (hname : FieldName valName)
    (h : ∀ f ∈ fields (joined (l :: ls)), named valName f = true → IsLine f) :
    (begins valName l = true → ¬ Folded (joined ls)) ∧
      ∀ f ∈ fields (joined ls), named valName f = true → IsLine f := by
  rw [fields_joined hline] at h
  by_cases hfold : Folded (joined ls)
  · rw [if_pos hfold] at h
    cases hfs : fields (joined ls) with
    | nil => exact absurd hfs (fields_ne_nil _)
    | cons g gs =>
      rw [hfs, prepend] at h
      refine ⟨fun hbegins => ?_, fun f hf hn => ?_⟩
      · have hfirst := h _ List.mem_cons_self (by
          rw [named_eq_begins hname, List.append_assoc, begins_append hname, hbegins])
        exact absurd ⟨l, g, rfl⟩ hfirst
      · rcases List.mem_cons.mp hf with rfl | hf
        · rw [named_eq_begins hname, begins_folded hname (folded_head hfs hfold)] at hn
          exact absurd hn Bool.false_ne_true
        · exact h f (List.mem_cons_of_mem _ hf) hn
  · rw [if_neg hfold] at h
    exact ⟨fun _ => hfold, fun f hf => h f (List.mem_cons_of_mem _ hf)⟩

theorem folded_others (hname : FieldName valName) (hlines : ∀ l ∈ ls, IsLine l)
    (h : ∀ f ∈ fields (joined ls), named valName f = true → IsLine f) :
    Folded (joined (others valName ls)) ↔ Folded (joined ls) := by
  induction ls with
  | nil => exact Iff.rfl
  | cons l ls ih =>
    obtain ⟨hnext, hrest⟩ := line_mem_fields (hlines l List.mem_cons_self) hname h
    rw [others_cons]
    cases hbegins : begins valName l with
    | true =>
      rw [if_pos rfl, ih (fun m hm => hlines m (List.mem_cons_of_mem l hm)) hrest,
        folded_joined]
      refine iff_of_false (hnext hbegins) fun hfold => ?_
      rw [begins_folded hname hfold] at hbegins
      cases hbegins
    | false => rw [if_neg Bool.false_ne_true, folded_joined, folded_joined]

theorem fields_others (hname : FieldName valName) (hlines : ∀ l ∈ ls, IsLine l)
    (h : ∀ f ∈ fields (joined ls), named valName f = true → IsLine f) :
    fields (joined (others valName ls)) =
      (fields (joined ls)).filter fun f => !named valName f := by
  induction ls with
  | nil =>
    have hnil : named valName [] = false := named_false List.not_mem_nil
    show [[]] = [[]].filter fun f => !named valName f
    rw [List.filter_singleton, hnil]
    rfl
  | cons l ls ih =>
    have hline := hlines l List.mem_cons_self
    have hlines' : ∀ m ∈ ls, IsLine m := fun m hm => hlines m (List.mem_cons_of_mem l hm)
    obtain ⟨hnext, hrest⟩ := line_mem_fields hline hname h
    have ih := ih hlines' hrest
    rw [others_cons, fields_joined hline]
    -- A line that goes is a field of its own, for no folded line follows it. One that stays may be
    -- continued, and then the lines that continue it stay as well.
    cases hbegins : begins valName l with
    | true =>
      have hn : named valName l = true := by rw [named_eq_begins hname, hbegins]
      rw [if_pos rfl, if_neg (hnext hbegins), ih, List.filter_cons, hn]
      rfl
    | false =>
      rw [if_neg Bool.false_ne_true, fields_joined hline,
        if_congr (folded_others hname hlines' hrest) rfl rfl, ih]
      by_cases hfold : Folded (joined ls)
      · rw [if_pos hfold, if_pos hfold]
        cases hfs : fields (joined ls) with
        | nil => exact absurd hfs (fields_ne_nil _)
        | cons g gs =>
          have hg : named valName g = false := by
            rw [named_eq_begins hname, begins_folded hname (folded_head hfs hfold)]
          have hlg : named valName (l ++ crlf ++ g) = false := by
            rw [named_eq_begins hname, List.append_assoc, begins_append hname, hbegins]
          rw [List.filter_cons, hg, prepend, List.filter_cons, hlg]
          rfl
      · have hn : named valName l = false := by rw [named_eq_begins hname, hbegins]
        rw [if_neg hfold, if_neg hfold, List.filter_cons, hn]
        rfl

/-! ## The records that are left -/

def recTexts : List (List Byte) → List (List Byte)
  | [] => []
  | f :: fs =>
    if chr ':' ∈ f then f :: recTexts fs
    else
      match recTexts fs with
      | [] => []
      | g :: gs => (f ++ (crlf ++ g)) :: gs

theorem recTexts_eq : ∀ {fs : List (List Byte)} {pos : Nat},
    (records (linesAt pos fs)).map Prod.snd = recTexts fs
  | [], _ => rfl
  | f :: fs, pos => by
    have ih := @recTexts_eq fs (pos + f.length + 2)
    rw [linesAt, records, recTexts]
    by_cases hf : chr ':' ∈ f
    · rw [if_pos hf, if_pos hf, List.map_cons, ih]
    · rw [if_neg hf, if_neg hf, ← ih]
      cases records (linesAt (pos + f.length + 2) fs) with
      | nil => rfl
      | cons r rs => rfl

theorem recTexts_head {g : List Byte} {gs : List (List Byte)} (h : recTexts (f :: fs) = g :: gs) :
    g = f ∨ ∃ g', g = f ++ (crlf ++ g') := by
  rw [recTexts] at h
  split_ifs at h with hf
  · exact .inl (List.cons.inj h).1.symm
  · cases hr : recTexts fs with
    | nil =>
      rw [hr] at h
      cases h
    | cons g' gs' =>
      rw [hr] at h
      exact .inr ⟨g', (List.cons.inj h).1.symm⟩

theorem hidden_subset : ∀ {fs : List (List Byte)}, ∀ f ∈ hidden false fs, f ∈ hidden true fs
  | [], _, h => absurd h List.not_mem_nil
  | g :: gs, f, h => by
    rw [hidden] at h
    rw [hidden]
    by_cases hg : chr ':' ∈ g
    · rw [decide_eq_false (not_not.mpr hg)] at h
      rw [if_pos hg]
      exact List.mem_cons_of_mem g h
    · rw [decide_eq_true hg] at h
      rwa [if_neg hg]

theorem recTexts_hidden (hname : FieldName valName) :
    ∀ {fs : List (List Byte)} {g : List Byte} {gs : List (List Byte)},
      (∀ f ∈ hidden true fs, named valName f = false) → recTexts fs = g :: gs →
      named valName g = false
  | [], _, _, _, h => by cases h
  | f :: fs, g, gs, hshown, h => by
    rw [hidden] at hshown
    by_cases hf : chr ':' ∈ f
    · rw [if_pos hf] at hshown
      rw [recTexts, if_pos hf] at h
      rw [← (List.cons.inj h).1]
      exact hshown f List.mem_cons_self
    · rw [if_neg hf] at hshown
      rcases recTexts_head h with rfl | ⟨g', rfl⟩
      · exact named_false hf
      · rw [named_eq_begins hname, begins_append hname, ← named_eq_begins hname, named_false hf]

theorem recTexts_filter (hname : FieldName valName) : ∀ {fs : List (List Byte)},
    (∀ f ∈ hidden false fs, named valName f = false) →
      recTexts (fs.filter fun f => !named valName f) =
        (recTexts fs).filter fun f => !named valName f
  | [], _ => rfl
  | f :: fs, hshown => by
    rw [hidden] at hshown
    by_cases hf : chr ':' ∈ f
    · rw [decide_eq_false (not_not.mpr hf)] at hshown
      have ih := recTexts_filter hname hshown
      rw [List.filter_cons, recTexts, if_pos hf, List.filter_cons]
      cases named valName f with
      | true => exact ih
      | false => rw [Bool.not_false, if_pos rfl, if_pos rfl, recTexts, if_pos hf, ih]
    · rw [decide_eq_true hf] at hshown
      have ih := recTexts_filter hname (fun g hg => hshown g (hidden_subset g hg))
      rw [List.filter_cons, named_false hf, Bool.not_false, if_pos rfl, recTexts, if_neg hf, ih,
        recTexts, if_neg hf]
      cases hr : recTexts fs with
      | nil => rfl
      | cons g gs =>
        have hg := recTexts_hidden hname hshown hr
        have hfg : named valName (f ++ (crlf ++ g)) = false := by
          rw [named_eq_begins hname, begins_append hname, ← named_eq_begins hname,
            named_false hf]
        rw [List.filter_cons, hg, List.filter_cons, hfg]
        rfl

end Http
