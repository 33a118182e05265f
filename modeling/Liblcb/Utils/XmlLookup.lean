import Liblcb.Utils.XmlPath

/-!
# The element at a path

Where nothing in front of it leads the scanner astray, `xml_get_val_arr` finds the first element
that lies at exactly the path, and no other.  The scan of a content either finds the first value in
it or goes on behind it with the variables it came with.
-/

namespace Xml

open Mem Progress

variable {data : List Byte} {tags : List (List Byte)} {k p q r : Nat}

/-- The variables in the content of the element that `k` names of the path lead to. -/
def onPath (k : Nat) : Scan := ⟨0, k, 0, none, none⟩

/-- The scan from `p` on finds the first of the values, or comes to `q` where there is none. -/
def Looks (data : List Byte) (tags : List (List Byte)) (k p q : Nat) :
    List (Option (Nat × Nat)) → Prop
  | [] => scanRun data tags ((onPath k).goto p) = scanRun data tags ((onPath k).goto q)
  | v :: _ => ∃ found, scanRun data tags ((onPath k).goto p) = some (.ok found) ∧ found.value = v

theorem Looks.append {vs ws : List (Option (Nat × Nat))} (h : Looks data tags k p q vs)
    (hrest : vs = [] → Looks data tags k q r ws) : Looks data tags k p r (vs ++ ws) := by
  cases vs with
  | cons v vs => exact h
  | nil =>
    have hws := hrest rfl
    change scanRun data tags ((onPath k).goto p) = _ at h
    cases ws with
    | nil => exact h.trans hws
    | cons w ws =>
      obtain ⟨found, hrun, hvalue⟩ := hws
      exact ⟨found, h.trans hrun, hvalue⟩

theorem tags_drop {t : List Byte} {ts : List (List Byte)} (h : tags.drop k = t :: ts) :
    tags[k]? = some t ∧ tags.drop (k + 1) = ts ∧ (k + 1 < tags.length ↔ ts ≠ []) := by
  have hget : tags[k]? = some t := by
    rw [← List.head?_drop, h]
    rfl
  have hdrop : tags.drop (k + 1) = ts := by
    rw [← List.drop_drop, h]
    rfl
  refine ⟨hget, hdrop, ?_⟩
  rw [← hdrop, ne_eq, List.drop_eq_nil_iff, Nat.not_le]

section Items

variable {name attrs blanks t : List Byte} {ts : List (List Byte)} {kids : Content}

theorem compareTurn_other {s : Scan} {level : Int} {found : Turn} (h : name ≠ t) :
    compareTurn tags s name level p found t =
      some (.again { s with tagEnd := p, level := level }) := by
  have hcmp : memCmpn t name = false := beq_eq_false_iff_ne.mpr fun heq => h heq.symm
  rw [compareTurn, hcmp]
  rfl

theorem compareTurn_same {s : Scan} {level : Int} {found : Turn} :
    compareTurn tags s t level p found t = if s.curTag + 1 < tags.length then
      some (.again { s with tagEnd := p, curTag := s.curTag + 1, level := 0 }) else some found := by
  have hcmp : memCmpn t t = true := beq_self_eq_true t
  rw [compareTurn, hcmp]
  rfl

theorem looks_empty (h : Stands data p (emptyTag name attrs)) (hname : IsName name)
    (hattrs : IsAttrs attrs) (hpath : tags.drop k = t :: ts) (hclean : name = t → ts = []) :
    Looks data tags k p (p + (emptyTag name attrs).length)
      (if t :: ts = [name] then [none] else []) := by
  rcases tags_drop hpath with ⟨htag, -, hmore⟩
  obtain ⟨attr, hturn⟩ := @scanTag_emptyTag data tags (onPath k) p name attrs h hname hattrs
  rw [openTurn_ee] at hturn
  change _ = tags[k]?.bind _ at hturn
  rw [htag, Option.bind_some] at hturn
  by_cases heq : name = t
  · subst heq
    have hlast := hclean rfl
    have hnone : ¬ ((onPath k).goto p).curTag + 1 < tags.length := fun hlt => hmore.mp hlt hlast
    rw [compareTurn_same, if_neg hnone] at hturn
    rw [if_pos (by rw [hlast])]
    exact ⟨_, run_done hturn, rfl⟩
  · rw [compareTurn_other heq] at hturn
    rw [if_neg fun hsame => heq (List.cons.inj hsame).1.symm]
    exact (scanRun_again hturn).trans (scanRun_behind_empty h hname hattrs)

def atValue (k : Nat) (attr : Nat × Nat) (value : Nat) : Scan :=
  ⟨0, k + 1, 0, some attr, some value⟩

theorem scanTag_found (h : Stands data p (startTag name attrs)) (hname : IsName name)
    (hattrs : IsAttrs attrs) (hpath : tags.drop k = [name]) :
    ∃ attr, scanTag data tags ((onPath k).goto p) =
      some (.again ((atValue k attr (p + (startTag name attrs).length)).goto
        (p + (name ++ attrs).length))) := by
  rcases tags_drop hpath with ⟨htag, -, hmore⟩
  obtain ⟨attr, hturn⟩ := @scanTag_startTag data tags (onPath k) p name attrs h hname hattrs
  have hnone : ¬ ((onPath k).goto p).curTag + 1 < tags.length := fun hlt => hmore.mp hlt rfl
  rw [openTurn_top rfl] at hturn
  change _ = tags[k]?.bind _ at hturn
  rw [htag, Option.bind_some, compareTurn_same, if_neg hnone] at hturn
  refine ⟨(attr, p + (name ++ attrs).length + 1 - attr), ?_⟩
  rw [hturn, length_startTag]
  rfl

theorem scanTag_value {attr : Nat × Nat} (h : Stands data p kids.print)
    (hend : Stands data (p + kids.print.length) (endTag name [])) (hname : IsName name)
    (hkids : kids.WellFormed) (hno : kids.NoElement) (htag : tags[k]? = some name) :
    ∃ found : Found, scanTag data tags ((atValue k attr p).goto (p + kids.print.length)) =
      some (.done (.ok found)) ∧ found.value = some (kids.value p) := by
  have hcmp : memCmpn name (name ++ []) = true := by
    rw [List.append_nil]
    exact beq_self_eq_true name
  have hvalue : extractCdata data p kids.print.length = kids.value p :=
    @extractCdata_print data p kids [] hkids hno List.not_mem_nil h
  have hclose := @scanTag_endTag data tags (atValue k attr p) _ _ _ hend hname
    fun _ hb => absurd hb List.not_mem_nil
  change _ = if (0 : Int) ≤ 0 - 1 then _ else if k + 1 = 0 then _ else tags[k]?.bind _ at hclose
  rw [if_neg (by decide), if_neg (Nat.succ_ne_zero k), htag, Option.bind_some, hcmp, if_pos rfl]
    at hclose
  refine ⟨_, hclose, ?_⟩
  dsimp only
  rw [Nat.add_sub_cancel_left, hvalue]

theorem looks_found (h : Stands data p (startTag name attrs ++ (kids.print ++ endTag name [])))
    (hname : IsName name) (hattrs : IsAttrs attrs) (hkids : kids.WellFormed)
    (hno : kids.NoElement) (hpath : tags.drop k = [name]) :
    Looks data tags k p q [some (kids.value (p + (startTag name attrs).length))] := by
  rw [stands_append, stands_append] at h
  rcases h with ⟨hstart, hbody, hclose⟩
  obtain ⟨attr, hopen⟩ := scanTag_found hstart hname hattrs hpath
  obtain ⟨found, hdone, hvalue⟩ :=
    @scanTag_value data tags k _ name kids attr hbody hclose hname hkids hno (tags_drop hpath).1
  refine ⟨found, ?_, hvalue⟩
  rw [scanRun_again hopen, scanRun_behind_start hstart hname hattrs,
    scanRun_noElement kids hkids hno hbody]
  exact run_done hdone

theorem looks_other (h : Stands data p (startTag name attrs ++ (kids.print ++ endTag name blanks)))
    (hname : IsName name) (hattrs : IsAttrs attrs) (hkids : kids.WellFormed)
    (hblanks : IsBlanks blanks) (hpath : tags.drop k = t :: ts) (hne : name ≠ t)
    (hno : kids.NoEmpty t) :
    Looks data tags k p (p + (startTag name attrs).length + kids.print.length +
      (endTag name blanks).length) [] := by
  rw [stands_append, stands_append] at h
  rcases h with ⟨hstart, hbody, hclose⟩
  have htag := (tags_drop hpath).1
  -- the name is another one, so the level is 1 inside
  have hopen : scanTag data tags ((onPath k).goto p) = some (.again
      ({ onPath k with level := 1 }.goto (p + (name ++ attrs).length))) := by
    obtain ⟨attr, hturn⟩ := @scanTag_startTag data tags (onPath k) p name attrs hstart hname hattrs
    rw [openTurn_top rfl] at hturn
    change _ = tags[k]?.bind _ at hturn
    rw [hturn, htag, Option.bind_some, compareTurn_other hne]
    rfl
  have hkidsRun := @scanRun_noEmpty data tags t kids { onPath k with level := 1 } _ hkids hno hbody
    htag (Int.le_refl 1)
  show scanRun _ _ _ = _
  rw [scanRun_again hopen, scanRun_behind_start hstart hname hattrs, hkidsRun]
  generalize p + (startTag name attrs).length + kids.print.length = q at hclose ⊢
  have hend : scanTag data tags ({ onPath k with level := 1 }.goto q) =
      some (.again ((onPath k).goto (q + 1 + (name ++ blanks).length))) := by
    rw [scanTag_endTag hclose hname hblanks]
    rfl
  rw [scanRun_again hend, scanRun_behind_end hclose hname hblanks]

theorem looks_inside (h : Stands data p (startTag name attrs ++ (kids.print ++ endTag name blanks)))
    (hname : IsName name) (hattrs : IsAttrs attrs) (hpath : tags.drop k = name :: ts)
    (hmore : ts ≠ []) {vs : List (Option (Nat × Nat))} (hblanks : vs = [] → blanks = [])
    (hkids : Looks data tags (k + 1) (p + (startTag name attrs).length)
      (p + (startTag name attrs).length + kids.print.length) vs) :
    Looks data tags k p (p + (startTag name attrs).length + kids.print.length +
      (endTag name blanks).length) vs := by
  rw [stands_append, stands_append] at h
  rcases h with ⟨hstart, -, hclose⟩
  rcases tags_drop hpath with ⟨htag, -, hlt⟩
  have hopen : scanTag data tags ((onPath k).goto p) = some (.again
      ((onPath (k + 1)).goto (p + (name ++ attrs).length))) := by
    obtain ⟨attr, hturn⟩ := @scanTag_startTag data tags (onPath k) p name attrs hstart hname hattrs
    have hcur : ((onPath k).goto p).curTag + 1 < tags.length := hlt.mpr hmore
    rw [openTurn_top rfl] at hturn
    change _ = tags[k]?.bind _ at hturn
    rw [hturn, htag, Option.bind_some, compareTurn_same, if_pos hcur]
    rfl
  have hrun : scanRun data tags ((onPath k).goto p) =
      scanRun data tags ((onPath (k + 1)).goto (p + (startTag name attrs).length)) :=
    (scanRun_again hopen).trans (scanRun_behind_start hstart hname hattrs)
  cases vs with
  | cons v vs =>
    obtain ⟨found, hfound, hvalue⟩ := hkids
    exact ⟨found, hrun.trans hfound, hvalue⟩
  | nil =>
    change scanRun _ _ _ = _ at hkids
    show scanRun _ _ _ = _
    rw [hrun, hkids]
    generalize p + (startTag name attrs).length + kids.print.length = q at hclose ⊢
    have hcmp : memCmpn name (name ++ blanks) = true := by
      rw [hblanks rfl, List.append_nil]
      exact beq_self_eq_true name
    have hIsBlanks : IsBlanks blanks := by
      rw [hblanks rfl]
      exact fun _ hb => absurd hb List.not_mem_nil
    -- nothing was found inside, so the end tag is that of the last name the cursor went past
    have hend : scanTag data tags ((onPath (k + 1)).goto q) =
        some (.again ((onPath k).goto (q + 1 + (name ++ blanks).length))) := by
      rw [scanTag_endTag hclose hname hIsBlanks]
      change (if (0 : Int) ≤ 0 - 1 then _ else if k + 1 = 0 then _ else tags[k]?.bind _) = _
      rw [if_neg (by decide), if_neg (Nat.succ_ne_zero k), htag, Option.bind_some, hcmp,
        if_pos rfl]
      rfl
    rw [scanRun_again hend, scanRun_behind_end hclose hname hIsBlanks]

theorem looks_elem {rest : Content}
    (hclean : (Content.elem name attrs kids blanks rest).Clean (t :: ts))
    (h : Stands data p (startTag name attrs ++ (kids.print ++ endTag name blanks)))
    (hname : IsName name) (hattrs : IsAttrs attrs) (hkids : kids.WellFormed)
    (hblanks : IsBlanks blanks) (hpath : tags.drop k = t :: ts)
    (hsub : kids.Clean ts → Looks data tags (k + 1) (p + (startTag name attrs).length)
      (p + (startTag name attrs).length + kids.print.length)
      (kids.valuesAt ts (p + (startTag name attrs).length))) :
    Looks data tags k p (p + (startTag name attrs).length + kids.print.length +
        (endTag name blanks).length)
      (if t :: ts = [name] then [some (kids.value (p + (startTag name attrs).length))]
        else if (t :: ts).head? = some name then
          kids.valuesAt (t :: ts).tail (p + (startTag name attrs).length)
        else []) := by
  rw [Content.Clean] at hclean
  by_cases heq : name = t
  · subst heq
    rw [if_pos rfl] at hclean
    by_cases hlast : ts = []
    · subst hlast
      rw [if_pos rfl] at hclean ⊢
      rcases hclean with ⟨hno, rfl⟩
      exact looks_found h hname hattrs hkids hno hpath
    · have hnot : name :: ts ≠ [name] := fun hsame => hlast (List.cons.inj hsame).2
      have hhead : (name :: ts).head? = some name := rfl
      rw [if_neg hlast] at hclean
      rw [if_neg hnot, if_pos hhead, List.tail_cons]
      -- the cursor goes back at the end tag only where nothing is found inside
      exact looks_inside h hname hattrs hpath hlast
        (fun hnone => (hclean.2 (kids.valuesAt_eq_nil ts hnone)).1) (hsub hclean.1)
  · have hnot : t :: ts ≠ [name] := fun hsame => heq (List.cons.inj hsame).1.symm
    have hhead : (t :: ts).head? ≠ some name := fun hsame => heq (Option.some.inj hsame).symm
    rw [if_neg heq] at hclean
    rw [if_neg hnot, if_neg hhead]
    exact looks_other h hname hattrs hkids hblanks hpath heq hclean.1

theorem clean_rest {rest : Content} {v : Option (Nat × Nat)}
    (hclean : (Content.elem name attrs kids blanks rest).Clean (t :: ts))
    (hnone : (if t :: ts = [name] then [v]
      else if (t :: ts).head? = some name then kids.valuesAt (t :: ts).tail p else []) = []) :
    rest.Clean (t :: ts) := by
  rw [Content.Clean] at hclean
  by_cases heq : name = t
  · subst heq
    rw [if_pos rfl] at hclean
    by_cases hlast : ts = []
    · rw [hlast, if_pos rfl] at hnone
      cases hnone
    · have hnot : name :: ts ≠ [name] := fun hsame => hlast (List.cons.inj hsame).2
      have hhead : (name :: ts).head? = some name := rfl
      rw [if_neg hnot, if_pos hhead, List.tail_cons] at hnone
      rw [if_neg hlast] at hclean
      exact (hclean.2 (kids.valuesAt_eq_nil ts hnone)).2
  · rw [if_neg heq] at hclean
    exact hclean.2

end Items

/-! ## Documents -/

/-- The scan of a content for what the rest of the path leads to in it. -/
theorem looks_valuesAt (f : Content) : ∀ {path : List (List Byte)} {k p : Nat}, f.WellFormed →
    f.Clean path → Stands data p f.print → tags.drop k = path →
    Looks data tags k p (p + f.print.length) (f.valuesAt path p) := by
  induction f with
  | nil => exact fun _ _ _ _ => rfl
  | misc m rest ih =>
    intro path k p hwf hclean h hpath
    cases path with
    | nil => exact absurd hclean id
    | cons t ts =>
      rw [Content.print, stands_append] at h
      rw [← length_print_misc]
      have hmisc : Looks data tags k p (p + m.print.length) [] := scanRun_misc h.1 hwf.1
      exact hmisc.append fun _ => ih hwf.2 hclean h.2 hpath
  | empty name attrs rest ih =>
    intro path k p hwf hclean h hpath
    rcases hwf with ⟨hname, hattrs, hwf⟩
    cases path with
    | nil => exact absurd hclean id
    | cons t ts =>
      rw [Content.print, stands_append] at h
      rw [Content.Clean] at hclean
      rw [← length_print_empty, Content.valuesAt]
      have hlast : name = t → ts = [] := fun heq => by rwa [if_pos heq] at hclean
      refine (looks_empty h.1 hname hattrs hpath hlast).append fun hnone => ?_
      -- nothing was found there, so the name is another one
      have hne : name ≠ t := by
        rintro rfl
        rw [hlast rfl, if_pos rfl] at hnone
        cases hnone
      rw [if_neg hne] at hclean
      exact ih hwf hclean h.2 hpath
  | elem name attrs kids blanks rest ihkids ihrest =>
    intro path k p hwf hclean h hpath
    rcases hwf with ⟨hname, hattrs, hkids, hblanks, hwf⟩
    cases path with
    | nil => exact absurd hclean id
    | cons t ts =>
      rw [Content.print, ← List.append_assoc kids.print, ← List.append_assoc,
        stands_append] at h
      rcases h with ⟨htag, hrest⟩
      have hbody := (stands_append.mp (stands_append.mp htag).2).1
      rw [List.length_append, List.length_append, ← Nat.add_assoc, ← Nat.add_assoc] at hrest
      rw [← length_print_elem, Content.valuesAt]
      -- the element, with what its content holds, and the rest behind it
      have hitem := looks_elem hclean htag hname hattrs hkids hblanks hpath fun hsub =>
        ihkids hkids hsub hbody (tags_drop hpath).2.1
      exact hitem.append fun hnone => ihrest hwf (clean_rest hclean hnone) hrest hpath

/-- `xml_get_val_arr` returns 0 exactly where an element lies at the path, with the value of the
first one. -/
def LooksUp (doc : Content) (path : List (List Byte)) : Prop :=
  match (doc.valuesAt path 0).head? with
  | none => ∃ e, xmlGetValArr doc.print none path = some (.error e)
  | some value => ∃ found, xmlGetValArr doc.print none path = some (.ok found) ∧ found.value = value

/-- The scanner finds the first element at the path, unless one in front of it leads it astray. -/
theorem looksUp_of_clean {doc : Content} {path : List (List Byte)} (hdoc : doc.WellFormed)
    (hclean : doc.Clean path) : LooksUp doc path := by
  have hstands : Stands doc.print 0 doc.print := List.prefix_rfl
  have hlooks : Looks doc.print path 0 0 (0 + doc.print.length) (doc.valuesAt path 0) :=
    looks_valuesAt doc hdoc hclean hstands rfl
  have hrun : xmlGetValArr doc.print none path = scanRun doc.print path ((onPath 0).goto 0) := rfl
  -- behind the document there is no `<`
  have hnone : memChrOff doc.print.length doc.print (chr '<') = none :=
    memChrOff_of_absent fun j hj hget => by
      rw [List.getElem?_eq_none hj] at hget
      cases hget
  have hend : scanRun doc.print path ((onPath 0).goto (0 + doc.print.length)) =
      some (.error .espipe) := by
    rw [Nat.zero_add]
    exact run_done (scanTag_end hnone)
  unfold LooksUp
  rw [hrun]
  cases hvs : doc.valuesAt path 0 with
  | nil =>
    rw [hvs] at hlooks
    exact ⟨.espipe, hlooks.trans hend⟩
  | cons value vs =>
    rw [hvs] at hlooks
    exact hlooks

/-- `<a><b>v</b></a>`, looked up by `a`, `b`. -/
theorem looksUp_of_clean_nested :
    LooksUp (.elem [chr 'a'] [] (.elem [chr 'b'] [] (.misc (.text [chr 'v']) .nil) [] .nil) [] .nil)
      [[chr 'a'], [chr 'b']] :=
  looksUp_of_clean (by decide) (by
    rw [Content.Clean, if_pos rfl, if_neg (List.cons_ne_nil _ _)]
    exact ⟨⟨trivial, rfl⟩, fun hnone => absurd hnone (List.cons_ne_nil _ _)⟩)

/-- `<a><x/></a>`, looked up by `x`: the empty element is one level below. -/
theorem nested_empty_not_looksUp :
    (Content.elem [chr 'a'] [] (.empty [chr 'x'] [] .nil) [] .nil).WellFormed ∧
    ¬ LooksUp (.elem [chr 'a'] [] (.empty [chr 'x'] [] .nil) [] .nil) [[chr 'x']] := by
  refine ⟨by decide, ?_⟩
  rintro ⟨e, herror⟩
  have hfound : xmlGetValArr
      (Content.elem [chr 'a'] [] (.empty [chr 'x'] [] .nil) [] .nil).print none [[chr 'x']] =
        some (.ok ⟨6, none, none⟩) := by decide
  rw [hfound] at herror
  cases herror

end Xml
