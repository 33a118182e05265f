import Liblcb.Utils.XmlDoc

/-!
# The scanner on a document

What the scanner does on the text of a well-formed document, one tag after the other, and that it
finds the first element at a path where nothing in front of it leads it astray.
-/

namespace Xml

open Mem Progress

variable {data : List Byte} {tags : List (List Byte)} {s s' : Scan} {p : Nat}

/-! ## Positions -/

def scanRun (data : List Byte) (tags : List (List Byte)) (s : Scan) : Option (Except Errno Found) :=
  run (scanTag data tags) (left data) s

def Scan.goto (s : Scan) (p : Nat) : Scan := { s with tagEnd := p }

/-- The text stands in the data at `p`. -/
def Stands (data : List Byte) (p : Nat) (text : List Byte) : Prop := text <+: data.drop p

theorem stands_append {a b : List Byte} :
    Stands data p (a ++ b) ↔ Stands data p a ∧ Stands data (p + a.length) b := by
  unfold Stands
  rw [← List.drop_drop]
  constructor
  · rintro ⟨rest, hrest⟩
    rw [← hrest, List.append_assoc]
    exact ⟨List.prefix_append _ _, by rw [List.drop_left]; exact List.prefix_append _ _⟩
  · rintro ⟨⟨rest, hrest⟩, hb⟩
    rw [← hrest, List.drop_left] at hb
    rw [← hrest, List.prefix_append_right_inj]
    exact hb

theorem Stands.getElem? {text : List Byte} (h : Stands data p text) {j : Nat} {b : Byte}
    (hb : text[j]? = some b) : data[p + j]? = some b := by
  rw [Matching.prefix_drop_iff.mp h j (List.getElem?_eq_some_iff.mp hb).1, hb]

theorem Stands.slice {text : List Byte} (h : Stands data p text) :
    slice data p text.length = text := (List.prefix_iff_eq_take.mp h).symm

theorem Stands.memChrOff {text : List Byte} {c : Byte} (h : Stands data p (text ++ [c]))
    (hno : c ∉ text) : memChrOff p data c = some (p + text.length) := by
  obtain ⟨rest, hrest⟩ := h
  rw [Mem.memChrOff, ← memChr, ← hrest, List.append_assoc, List.singleton_append,
    memChr_append rest hno]
  rfl

theorem Stands.memFindOff {text pat : List Byte} (hne : pat ≠ []) (h : Stands data p (text ++ pat))
    (hno : ∀ k < text.length, ¬ pat <+: (text ++ pat).drop k) :
    memFindOff p data pat = some (p + text.length) := by
  rw [memFindOff_eq_some hne]
  refine ⟨Nat.le_add_right _ _, (stands_append.mp h).2, fun k hle hlt hpre => ?_⟩
  apply hno (k - p) (by omega)
  rw [Matching.prefix_drop_iff] at hpre ⊢
  intro j hj
  have hlen : k - p + j < (text ++ pat).length := by
    rw [List.length_append]
    omega
  have hget := h.getElem? (List.getElem?_eq_getElem hlen)
  rw [List.getElem?_eq_getElem hlen, ← hget, ← hpre j hj]
  congr 1
  omega

theorem scanTag_goto (h : memChrOff s.tagEnd data (chr '<') = memChrOff p data (chr '<')) :
    scanTag data tags s = scanTag data tags (s.goto p) := by
  unfold scanTag
  rw [h]
  rfl

theorem scanRun_congr (h : scanTag data tags s = scanTag data tags s') :
    scanRun data tags s = scanRun data tags s' := by
  unfold scanRun
  cases hstep : scanTag data tags s' with
  | none => rw [run_none hstep, run_none (h.trans hstep)]
  | some t =>
    cases t with
    | again s'' =>
      rw [run_again lowers_left hstep, run_again lowers_left (h.trans hstep)]
    | done r => rw [run_done hstep, run_done (h.trans hstep)]

theorem memChrOff_skip {c : Byte} {q : Nat} (hle : q ≤ p)
    (hno : ∀ k, q ≤ k → k < p → data[k]? ≠ some c) : memChrOff q data c = memChrOff p data c := by
  cases hp : memChrOff p data c with
  | none =>
    refine memChrOff_of_absent fun k hk => ?_
    by_cases hlt : k < p
    · exact hno k hk hlt
    · exact memChrOff_eq_none hp (by omega)
  | some i =>
    rcases memChrOff_eq_some hp with ⟨hpi, hget, hbefore⟩
    refine memChrOff_of_first (Nat.le_trans hle hpi) hget fun k hk hlt => ?_
    by_cases hkp : k < p
    · exact hno k hk hkp
    · exact hbefore k (by omega) hlt

theorem scanRun_goto (hle : s.tagEnd ≤ p)
    (hno : ∀ k, s.tagEnd ≤ k → k < p → data[k]? ≠ some (chr '<')) :
    scanRun data tags s = scanRun data tags (s.goto p) :=
  scanRun_congr (scanTag_goto (memChrOff_skip hle hno))

theorem scanRun_again (h : scanTag data tags s = some (.again s')) :
    scanRun data tags s = scanRun data tags s' := run_again lowers_left h

/-! ## What stands between the elements -/

theorem scanRun_text {text : List Byte} (h : Stands data p text) (hno : chr '<' ∉ text) :
    scanRun data tags (s.goto p) = scanRun data tags (s.goto (p + text.length)) := by
  refine scanRun_goto (s := s.goto p) (Nat.le_add_right _ _) fun k hk hlt hget => hno ?_
  change p ≤ k at hk
  have hlen : k - p < text.length := by omega
  have hbyte := h.getElem? (List.getElem?_eq_getElem hlen)
  rw [Nat.add_sub_cancel' hk, hget, Option.some.injEq] at hbyte
  exact hbyte ▸ List.getElem_mem hlen

theorem Stands.length_le {text : List Byte} (h : Stands data p text) :
    text.length ≤ data.length - p := by
  have hle := List.IsPrefix.length_le h
  rwa [List.length_drop] at hle

theorem scanTag_lt {b : Byte} (hlt : data[p]? = some (chr '<')) (hb : data[p + 1]? = some b) :
    scanTag data tags (s.goto p) =
      if b = chr '?' then
        some (skipTo (s.goto p) (memFindOff (p + 1) data ("?>".toList.map chr)) 2)
      else if b = chr '!' then some (scanDecl data (s.goto p) (p + 2))
      else if b = chr '>' then some (.again (s.goto (p + 2)))
      else if b = chr '/' then scanClose data tags (s.goto p) (p + 1)
      else scanOpen data tags (s.goto p) (p + 1) := by
  have hfind : memChrOff (s.goto p).tagEnd data (chr '<') = some p :=
    memChrOff_of_first (Nat.le_refl p) hlt fun k hk hlt => absurd hlt (Nat.not_lt.mpr hk)
  rw [scanTag, hfind]
  dsimp only
  rw [hb]
  rfl

section Bytes

theorem bytes_pi : "<?".toList.map chr = [chr '<', chr '?'] ∧
    "?>".toList.map chr = [chr '?', chr '>'] := by decide

theorem bytes_comment : "<!--".toList.map chr = [chr '<', chr '!', chr '-', chr '-'] ∧
    "--".toList.map chr = [chr '-', chr '-'] ∧
    "-->".toList.map chr = [chr '-', chr '-', chr '>'] := by decide

theorem bytes_cdata : "<![CDATA[".toList.map chr =
      [chr '<', chr '!', chr '[', chr 'C', chr 'D', chr 'A', chr 'T', chr 'A', chr '['] ∧
    "[CDATA[".toList.map chr =
      [chr '[', chr 'C', chr 'D', chr 'A', chr 'T', chr 'A', chr '['] ∧
    "]]>".toList.map chr = [chr ']', chr ']', chr '>'] := by decide

end Bytes

theorem no_prefix_of_last {text pat : List Byte} {c : Byte} (hne : pat ≠ [])
    (htext : memmem pat text = none) (hlast : pat.getLast? = some c) (hinit : c ∉ pat.dropLast) :
    ∀ k < text.length, ¬ pat <+: (text ++ pat).drop k := by
  intro k hk hpre
  have hpos := List.length_pos_iff.mpr hne
  by_cases hin : k + pat.length ≤ text.length
  · refine (memmem_eq_none hne).mp htext k (Matching.prefix_drop_iff.mpr fun j hj => ?_)
    have hget := Matching.prefix_drop_iff.mp hpre j hj
    rwa [List.getElem?_append_left (by omega)] at hget
  · -- the last byte of the pattern would be one of the others
    have hget := Matching.prefix_drop_iff.mp hpre (pat.length - 1) (by omega)
    rw [List.getElem?_append_right (by omega), ← List.getLast?_eq_getElem?, hlast] at hget
    apply hinit
    apply List.mem_of_getElem? (i := k + (pat.length - 1) - text.length)
    rw [List.getElem?_dropLast, if_pos (by omega), hget]

theorem scanTag_pi {c : List Byte} (h : Stands data p (Misc.pi c).print)
    (hc : (Misc.pi c).WellFormed) :
    scanTag data tags (s.goto p) = some (.again (s.goto (p + (Misc.pi c).print.length))) := by
  have hprint : (Misc.pi c).print = [chr '<'] ++ ((chr '?' :: c) ++ [chr '?', chr '>']) := by
    show "<?".toList.map chr ++ (c ++ "?>".toList.map chr) = _
    rw [bytes_pi.1, bytes_pi.2]
    rfl
  have hlen : (Misc.pi c).print.length = c.length + 4 := by
    rw [hprint]
    simp
  have hnone : memmem [chr '?', chr '>'] (chr '?' :: c) = none := by
    rw [← bytes_pi.2]
    exact hc
  rw [hprint, stands_append] at h
  have hfind := h.2.memFindOff (List.cons_ne_nil _ _)
    (no_prefix_of_last (List.cons_ne_nil _ _) hnone rfl (by decide))
  have hlt := h.1.getElem? (j := 0) rfl
  have hb := h.2.getElem? (j := 0) rfl
  rw [Nat.add_zero] at hlt hb
  rw [scanTag_lt hlt hb, if_pos rfl, bytes_pi.2]
  change some (skipTo _ (memFindOff (p + [chr '<'].length) _ _) 2) = _
  rw [hfind, hlen]
  show some (Next.again (s.goto (p + 1 + (c.length + 1) + 2))) = _
  congr 3
  omega

theorem scanTag_comment {c : List Byte} (h : Stands data p (Misc.comment c).print)
    (hc : (Misc.comment c).WellFormed) :
    scanTag data tags (s.goto p) = some (.again (s.goto (p + (Misc.comment c).print.length))) := by
  have hprint : (Misc.comment c).print =
      [chr '<', chr '!'] ++ ([chr '-', chr '-'] ++ (c ++ [chr '-', chr '-', chr '>'])) := by
    show "<!--".toList.map chr ++ (c ++ "-->".toList.map chr) = _
    rw [bytes_comment.1, bytes_comment.2.2]
    rfl
  have hlen : (Misc.comment c).print.length = c.length + 7 := by
    rw [hprint]
    simp
  have hnone : memmem [chr '-', chr '-', chr '>'] c = none := by
    have hwf : memmem ("--".toList.map chr) (c ++ [chr '-']) = none := hc
    rw [bytes_comment.2.1, memmem_eq_none (List.cons_ne_nil _ _)] at hwf
    rw [memmem_eq_none (List.cons_ne_nil _ _)]
    intro k hpre
    have hle := hpre.length_le
    rw [List.length_drop] at hle
    change 3 ≤ c.length - k at hle
    apply hwf k
    rw [List.drop_append_of_le_length (by omega)]
    obtain ⟨rest, hrest⟩ := hpre
    exact ⟨chr '>' :: rest ++ [chr '-'], by rw [← hrest]; rfl⟩
  rw [hprint, stands_append, stands_append] at h
  have hbound := h.2.2.length_le
  rw [List.length_append] at hbound
  change c.length + 3 ≤ data.length - (p + 2 + 2) at hbound
  have hfind := h.2.2.memFindOff (List.cons_ne_nil _ _)
    (no_prefix_of_last (List.cons_ne_nil _ _) hnone rfl (by decide))
  change memFindOff (p + 2 + 2) _ _ = some (p + 2 + 2 + c.length) at hfind
  have hlt := h.1.getElem? (j := 0) rfl
  have hb := h.1.getElem? (j := 1) rfl
  rw [Nat.add_zero] at hlt
  rw [scanTag_lt hlt hb, if_neg (by decide), if_pos rfl, scanDecl, bytes_comment.2.1,
    bytes_comment.2.2, if_pos ⟨by omega, h.2.1.slice⟩, hfind, hlen]
  show some (Next.again (s.goto (p + 2 + 2 + c.length + 3))) = _
  congr 3
  omega

theorem scanTag_cdata {c : List Byte} (h : Stands data p (Misc.cdata c).print)
    (hc : (Misc.cdata c).WellFormed) :
    scanTag data tags (s.goto p) = some (.again (s.goto (p + (Misc.cdata c).print.length))) := by
  have hprint : (Misc.cdata c).print = [chr '<', chr '!'] ++
      ([chr '[', chr 'C', chr 'D', chr 'A', chr 'T', chr 'A', chr '['] ++
        (c ++ [chr ']', chr ']', chr '>'])) := by
    show "<![CDATA[".toList.map chr ++ (c ++ "]]>".toList.map chr) = _
    rw [bytes_cdata.1, bytes_cdata.2.2]
    rfl
  have hlen : (Misc.cdata c).print.length = c.length + 12 := by
    rw [hprint]
    simp
  have hnone : memmem [chr ']', chr ']', chr '>'] c = none := by
    rw [← bytes_cdata.2.2]
    exact hc
  rw [hprint, stands_append, stands_append] at h
  have hbound := h.2.2.length_le
  rw [List.length_append] at hbound
  change c.length + 3 ≤ data.length - (p + 2 + 7) at hbound
  have hfind := h.2.2.memFindOff (List.cons_ne_nil _ _)
    (no_prefix_of_last (List.cons_ne_nil _ _) hnone rfl (by decide))
  change memFindOff (p + 2 + 7) _ _ = some (p + 2 + 7 + c.length) at hfind
  have hlt := h.1.getElem? (j := 0) rfl
  have hb := h.1.getElem? (j := 1) rfl
  -- the test for a comment comes first, and fails
  have hno : slice data (p + 2) 2 ≠ [chr '-', chr '-'] := by
    intro hdash
    have hget : (slice data (p + 2) 2)[0]? = data[p + 2 + 0]? := getElem?_slice (by decide)
    have hbracket : data[p + 2 + 0]? = some (chr '[') := h.2.1.getElem? (j := 0) rfl
    rw [hdash, hbracket] at hget
    exact absurd hget (by decide)
  rw [Nat.add_zero] at hlt
  rw [scanTag_lt hlt hb, if_neg (by decide), if_pos rfl, scanDecl, bytes_comment.2.1,
    bytes_cdata.2.1, bytes_cdata.2.2, if_neg (fun hdash => hno hdash.2),
    if_pos ⟨by omega, h.2.1.slice⟩, hfind, hlen]
  show some (Next.again (s.goto (p + 2 + 7 + c.length + 3))) = _
  congr 3
  omega

theorem scanRun_misc {m : Misc} (h : Stands data p m.print) (hm : m.WellFormed) :
    scanRun data tags (s.goto p) = scanRun data tags (s.goto (p + m.print.length)) := by
  cases m with
  | text t => exact scanRun_text h hm
  | comment c => exact scanRun_again (scanTag_comment h hm)
  | cdata c => exact scanRun_again (scanTag_cdata h hm)
  | pi c => exact scanRun_again (scanTag_pi h hm)

/-! ## Tags -/

section Tags

variable {name attrs blanks : List Byte}

theorem IsName.head (h : IsName name) : ∃ b rest, name = b :: rest ∧ b ∉ markup := by
  rcases h with ⟨hhead, hne, -⟩
  cases name with
  | nil => exact absurd rfl hne
  | cons b rest => exact ⟨b, rest, rfl, hhead b rfl⟩

theorem IsName.not_mem (h : IsName name) {c : Byte} (hc : c ∈ [chr '<', chr '>', chr '/']) :
    c ∉ name := fun hmem => (h.2.2 c hmem).2 hc

theorem IsName.length_pos (h : IsName name) (rest : List Byte) : 0 < (name ++ rest).length := by
  have hpos := List.length_pos_iff.mpr h.2.1
  rw [List.length_append]
  omega

theorem takeWhile_name (hname : IsName name) (hattrs : IsAttrs attrs) :
    (name ++ attrs).takeWhile (!isSpace ·) = name := by
  have hall : ∀ b ∈ name, (!isSpace b) = true := by
    intro b hb
    rw [(hname.2.2 b hb).1]
    rfl
  rw [List.takeWhile_append_of_pos hall]
  cases attrs with
  | nil => rw [List.takeWhile_nil, List.append_nil]
  | cons a rest =>
    have hspace := hattrs.1 a rfl
    rw [List.takeWhile_cons, hspace]
    exact List.append_nil _

theorem nameOf_eq (h : Stands data (p + 1) (name ++ attrs)) (hname : IsName name)
    (hattrs : IsAttrs attrs) : nameOf data (p + 1) (p + (name ++ attrs).length) = name := by
  have hlen : p + (name ++ attrs).length + 1 - (p + 1) = (name ++ attrs).length := by omega
  rw [nameOf, hlen, h.slice, takeWhile_name hname hattrs]

theorem not_lt_of_tag (hname : IsName name) (hattrs : IsAttrs attrs) :
    chr '<' ∉ name ++ attrs := by
  intro hmem
  rcases List.mem_append.mp hmem with hmem | hmem
  · exact hname.not_mem (by decide) hmem
  · exact hattrs.2.2 _ hmem (by decide)

theorem not_gt_of_tag (hname : IsName name) (hattrs : IsAttrs attrs) :
    chr '>' ∉ name ++ attrs := by
  intro hmem
  rcases List.mem_append.mp hmem with hmem | hmem
  · exact hname.not_mem (by decide) hmem
  · exact hattrs.2.2 _ hmem (by decide)

theorem last_of_tag (hname : IsName name) (hattrs : IsAttrs attrs) :
    chr '/' ∉ (name ++ attrs).getLast? := by
  intro hlast
  rw [List.getLast?_append] at hlast
  cases hattr : attrs.getLast? with
  | none =>
    rw [hattr, Option.none_or] at hlast
    exact hname.not_mem (by decide) (List.mem_of_getLast? hlast)
  | some b =>
    rw [hattr, Option.some_or] at hlast
    exact hattrs.2.1 (hattr ▸ hlast)

theorem scanTag_open (h : Stands data (p + 1) (name ++ attrs)) (hlt : data[p]? = some (chr '<'))
    (hname : IsName name) : scanTag data tags (s.goto p) = scanOpen data tags (s.goto p) (p + 1) ∧
      ∃ b, data[p + 1]? = some b ∧ b ≠ chr '>' ∧ b ≠ chr '/' := by
  obtain ⟨b, rest, rfl, hb⟩ := hname.head
  have hget : data[p + 1]? = some b := h.getElem? (j := 0) rfl
  have hbytes : b ≠ chr '?' ∧ b ≠ chr '!' ∧ b ≠ chr '>' ∧ b ≠ chr '/' := by
    simpa [markup] using hb
  rcases hbytes with ⟨hpi, hdecl, hgt, hslash⟩
  refine ⟨?_, b, hget, hgt, hslash⟩
  rw [scanTag_lt hlt hget, if_neg hpi, if_neg hdecl, if_neg hgt, if_neg hslash]

theorem scanTag_startTag (h : Stands data p (startTag name attrs)) (hname : IsName name)
    (hattrs : IsAttrs attrs) : ∃ attr, scanTag data tags (s.goto p) =
      openTurn tags (s.goto p) name false (p + (name ++ attrs).length) attr := by
  have htag : startTag name attrs = [chr '<'] ++ ((name ++ attrs) ++ [chr '>']) := rfl
  rw [htag, stands_append] at h
  have hlt : data[p]? = some (chr '<') := h.1.getElem? (j := 0) rfl
  have hinner : Stands data (p + 1) (name ++ attrs) := (stands_append.mp h.2).1
  have hgt : memChrOff (p + 1) data (chr '>') = some (p + 1 + (name ++ attrs).length) :=
    h.2.memChrOff (not_gt_of_tag hname hattrs)
  obtain ⟨hopen, b, hb, hne, hslash⟩ := @scanTag_open data tags s p name attrs hinner hlt hname
  have hpos := hname.length_pos attrs
  -- no slash in front of `>`: the tag is not taken for that of an empty element
  have hlast : data[p + 1 + (name ++ attrs).length - 1]? ≠ some (chr '/') := by
    intro hget
    apply last_of_tag hname hattrs
    have hbyte := Matching.prefix_drop_iff.mp hinner ((name ++ attrs).length - 1) (by omega)
    show (name ++ attrs).getLast? = some (chr '/')
    rw [List.getLast?_eq_getElem?, ← hbyte, ← hget]
    congr 1
    omega
  have hend : tagEndOf data (p + 1 + (name ++ attrs).length) = p + (name ++ attrs).length := by
    rw [tagEndOf, if_neg hlast]
    omega
  obtain ⟨attr, -, hturn⟩ :=
    @scanOpen_eq data tags (s.goto p) _ _ _ (Nat.succ_pos p) hgt hb hne hslash
  refine ⟨attr, ?_⟩
  rw [hopen, hturn, hend, nameOf_eq hinner hname hattrs, decide_eq_false hlast]

theorem scanTag_emptyTag (h : Stands data p (emptyTag name attrs)) (hname : IsName name)
    (hattrs : IsAttrs attrs) : ∃ attr, scanTag data tags (s.goto p) =
      openTurn tags (s.goto p) name true (p + (name ++ attrs).length) attr := by
  have htag : emptyTag name attrs = [chr '<'] ++ (((name ++ attrs) ++ [chr '/']) ++ [chr '>']) := by
    rw [emptyTag]
    simp
  rw [htag, stands_append] at h
  have hlt : data[p]? = some (chr '<') := h.1.getElem? (j := 0) rfl
  have hslashed : Stands data (p + 1) ((name ++ attrs) ++ [chr '/']) := (stands_append.mp h.2).1
  have hinner : Stands data (p + 1) (name ++ attrs) := (stands_append.mp hslashed).1
  have hno : chr '>' ∉ (name ++ attrs) ++ [chr '/'] := by
    intro hmem
    rcases List.mem_append.mp hmem with hmem | hmem
    · exact not_gt_of_tag hname hattrs hmem
    · exact absurd (List.mem_singleton.mp hmem) (by decide)
  have hgt : memChrOff (p + 1) data (chr '>') = some (p + 1 + ((name ++ attrs).length + 1)) := by
    have hfind := h.2.memChrOff hno
    rwa [List.length_append] at hfind
  obtain ⟨hopen, b, hb, hne, hslash⟩ := @scanTag_open data tags s p name attrs hinner hlt hname
  -- the slash in front of `>`, and so the end two bytes in front of it
  have hlast : data[p + 1 + ((name ++ attrs).length + 1) - 1]? = some (chr '/') := by
    have hget : data[p + 1 + (name ++ attrs).length]? = some (chr '/') :=
      hslashed.getElem? (by rw [List.getElem?_append_right (Nat.le_refl _), Nat.sub_self]; rfl)
    rw [← hget]
    congr 1
  have hend : tagEndOf data (p + 1 + ((name ++ attrs).length + 1)) =
      p + (name ++ attrs).length := by
    rw [tagEndOf, if_pos hlast]
    omega
  obtain ⟨attr, -, hturn⟩ :=
    @scanOpen_eq data tags (s.goto p) _ _ _ (Nat.succ_pos p) hgt hb hne hslash
  refine ⟨attr, ?_⟩
  rw [hopen, hturn, hend, nameOf_eq hinner hname hattrs, decide_eq_true hlast]

theorem scanTag_endTag (h : Stands data p (endTag name blanks)) (hname : IsName name)
    (hblanks : IsBlanks blanks) : scanTag data tags (s.goto p) =
      if 0 ≤ s.level - 1 then
        some (.again { s with tagEnd := p + 1 + (name ++ blanks).length, level := s.level - 1 })
      else if s.curTag = 0 then none
      else tags[s.curTag - 1]?.bind fun tag =>
        if memCmpn tag (name ++ blanks) then
          match s.value with
          | none => some (.again { s with
              tagEnd := p + 1 + (name ++ blanks).length, curTag := s.curTag - 1, level := 0 })
          | some value => some (.done (.ok ⟨p + 1 + (name ++ blanks).length + 2, s.attr,
              some (extractCdata data value (p - value))⟩))
        else some (.again { s with
          tagEnd := p + 1 + (name ++ blanks).length, level := s.level - 1 }) := by
  have htag : endTag name blanks =
      [chr '<'] ++ ((chr '/' :: (name ++ blanks)) ++ [chr '>']) := rfl
  rw [htag, stands_append] at h
  have hlt : data[p]? = some (chr '<') := h.1.getElem? (j := 0) rfl
  have hb : data[p + 1]? = some (chr '/') := h.2.getElem? (j := 0) rfl
  have hno : chr '>' ∉ chr '/' :: (name ++ blanks) := by
    intro hmem
    rcases List.mem_cons.mp hmem with hmem | hmem
    · exact absurd hmem (by decide)
    rcases List.mem_append.mp hmem with hmem | hmem
    · exact hname.not_mem (by decide) hmem
    · exact absurd (hblanks _ hmem) (by decide)
  have hgt : memChrOff (p + 1) data (chr '>') = some (p + 1 + ((name ++ blanks).length + 1)) :=
    h.2.memChrOff hno
  have hpos := hname.length_pos blanks
  have hslice : slice data (p + 2) (name ++ blanks).length = name ++ blanks := by
    have hsplit : chr '/' :: (name ++ blanks) ++ [chr '>'] =
        [chr '/'] ++ ((name ++ blanks) ++ [chr '>']) := rfl
    rw [hsplit, stands_append, stands_append] at h
    exact h.2.2.1.slice
  have hend : p + 1 + ((name ++ blanks).length + 1) - 1 = p + 1 + (name ++ blanks).length := rfl
  have hsize : p + 1 + (name ++ blanks).length - (p + 1) = (name ++ blanks).length := by omega
  rw [scanTag_lt hlt hb, if_neg (by decide), if_neg (by decide), if_neg (by decide), if_pos rfl,
    scanClose, hgt]
  dsimp only
  rw [hend, if_neg (by omega), hsize, hslice, Nat.add_sub_cancel]
  rfl

theorem scanRun_behind {tag : List Byte} {q : Nat} (h : Stands data p tag)
    (hno : chr '<' ∉ tag.tail) (hlt : p < q) (hle : q ≤ p + tag.length) :
    scanRun data tags (s.goto q) = scanRun data tags (s.goto (p + tag.length)) := by
  refine scanRun_goto (s := s.goto q) hle fun k hk hkt hget => hno ?_
  change q ≤ k at hk
  have hlen : k - p < tag.length := by omega
  have hbyte := h.getElem? (List.getElem?_eq_getElem hlen)
  rw [Nat.add_sub_cancel' (by omega), hget, Option.some.injEq] at hbyte
  apply List.mem_of_getElem? (i := k - p - 1)
  rw [List.getElem?_tail, Nat.sub_add_cancel (by omega), List.getElem?_eq_getElem hlen, ← hbyte]

theorem length_startTag : (startTag name attrs).length = (name ++ attrs).length + 2 := by
  rw [startTag, List.length_append, List.length_cons]
  rfl

theorem length_emptyTag : (emptyTag name attrs).length = (name ++ attrs).length + 3 := by
  rw [emptyTag, List.length_append, List.length_cons]
  rfl

theorem length_endTag : (endTag name blanks).length = (name ++ blanks).length + 3 := by
  rw [endTag, List.length_append, List.length_append]
  show 2 + (name ++ blanks).length + 1 = (name ++ blanks).length + 3
  omega

theorem scanRun_behind_start (h : Stands data p (startTag name attrs)) (hname : IsName name)
    (hattrs : IsAttrs attrs) : scanRun data tags (s.goto (p + (name ++ attrs).length)) =
      scanRun data tags (s.goto (p + (startTag name attrs).length)) := by
  have hpos := hname.length_pos attrs
  refine scanRun_behind h (fun hmem => ?_) (by omega) (by rw [length_startTag]; omega)
  rcases List.mem_append.mp hmem with hmem | hmem
  · exact not_lt_of_tag hname hattrs hmem
  · exact absurd (List.mem_singleton.mp hmem) (by decide)

theorem scanRun_behind_empty (h : Stands data p (emptyTag name attrs)) (hname : IsName name)
    (hattrs : IsAttrs attrs) : scanRun data tags (s.goto (p + (name ++ attrs).length)) =
      scanRun data tags (s.goto (p + (emptyTag name attrs).length)) := by
  have hpos := hname.length_pos attrs
  refine scanRun_behind h (fun hmem => ?_) (by omega) (by rw [length_emptyTag]; omega)
  rcases List.mem_append.mp hmem with hmem | hmem
  · exact not_lt_of_tag hname hattrs hmem
  · exact absurd hmem (by decide)

theorem scanRun_behind_end (h : Stands data p (endTag name blanks)) (hname : IsName name)
    (hblanks : IsBlanks blanks) : scanRun data tags (s.goto (p + 1 + (name ++ blanks).length)) =
      scanRun data tags (s.goto (p + (endTag name blanks).length)) := by
  have htail : (endTag name blanks).tail = (chr '/' :: (name ++ blanks)) ++ [chr '>'] := rfl
  have hno : chr '<' ∉ name ++ blanks := by
    intro hmem
    rcases List.mem_append.mp hmem with hmem | hmem
    · exact hname.not_mem (by decide) hmem
    · exact absurd (hblanks _ hmem) (by decide)
  refine scanRun_behind h (fun hmem => ?_) (by omega) (by rw [length_endTag]; omega)
  rw [htail, List.mem_append, List.mem_cons, List.mem_singleton] at hmem
  rcases hmem with (hmem | hmem) | hmem
  · exact absurd hmem (by decide)
  · exact hno hmem
  · exact absurd hmem (by decide)

end Tags

/-! ## Content -/

section Lengths

variable {name attrs blanks : List Byte} {kids rest : Content}

theorem length_print_misc (m : Misc) (p : Nat) :
    p + m.print.length + rest.print.length = p + (Content.misc m rest).print.length := by
  rw [Content.print, List.length_append, Nat.add_assoc]

theorem length_print_empty (p : Nat) : p + (emptyTag name attrs).length + rest.print.length =
    p + (Content.empty name attrs rest).print.length := by
  rw [Content.print, List.length_append, Nat.add_assoc]

theorem length_print_elem (p : Nat) :
    p + (startTag name attrs).length + kids.print.length + (endTag name blanks).length +
        rest.print.length = p + (Content.elem name attrs kids blanks rest).print.length := by
  rw [Content.print, List.length_append, List.length_append, List.length_append]
  omega

end Lengths

/-- Inside an element that is not on the path, where no empty element has the next name. -/
theorem scanRun_noEmpty {t : List Byte} (f : Content) : ∀ {s : Scan} {p : Nat}, f.WellFormed →
    f.NoEmpty t → Stands data p f.print → tags[s.curTag]? = some t → 1 ≤ s.level →
    scanRun data tags (s.goto p) = scanRun data tags (s.goto (p + f.print.length)) := by
  induction f with
  | nil => exact fun _ _ _ _ _ => rfl
  | misc m rest ih =>
    intro s p hwf hno h htag hlevel
    rw [Content.print, stands_append] at h
    rw [← length_print_misc, scanRun_misc h.1 hwf.1]
    exact ih hwf.2 hno h.2 htag hlevel
  | empty name attrs rest ih =>
    intro s p hwf hno h htag hlevel
    rcases hwf with ⟨hname, hattrs, hwf⟩
    rw [Content.print, stands_append] at h
    have hcmp : memCmpn t name = false := beq_eq_false_iff_ne.mpr fun heq => hno.1 heq.symm
    have hstep : scanTag data tags (s.goto p) =
        some (.again (s.goto (p + (name ++ attrs).length))) := by
      obtain ⟨attr, hturn⟩ := @scanTag_emptyTag data tags s p name attrs h.1 hname hattrs
      rw [hturn, openTurn_ee]
      change tags[s.curTag]?.bind _ = _
      rw [htag, Option.bind_some, compareTurn, hcmp]
      rfl
    calc scanRun data tags (s.goto p)
        = scanRun data tags (s.goto (p + (name ++ attrs).length)) := scanRun_again hstep
      _ = scanRun data tags (s.goto (p + (emptyTag name attrs).length)) :=
          scanRun_behind_empty h.1 hname hattrs
      _ = scanRun data tags (s.goto (p + (emptyTag name attrs).length + rest.print.length)) :=
          ih hwf hno.2 h.2 htag hlevel
      _ = _ := by rw [length_print_empty]
  | elem name attrs kids blanks rest ihkids ihrest =>
    intro s p hwf hno h htag hlevel
    rcases hwf with ⟨hname, hattrs, hkids, hblanks, hwf⟩
    rw [Content.print, stands_append, stands_append, stands_append] at h
    rcases h with ⟨hstart, hbody, hclose, hrest⟩
    -- the counter goes up at the start tag and down again at the end tag; in between it is
    -- above 1, so that only the names of empty elements are compared
    have hopen : scanTag data tags (s.goto p) = some (.again
        ({ s with level := s.level + 1 }.goto (p + (name ++ attrs).length))) := by
      obtain ⟨attr, hturn⟩ := @scanTag_startTag data tags s p name attrs hstart hname hattrs
      have hne : (s.goto p).level ≠ 0 := by
        show s.level ≠ 0
        omega
      rw [hturn, openTurn_sub hne]
      rfl
    have hinside : (1 : Int) ≤ s.level + 1 := by omega
    have hkidsRun := @ihkids { s with level := s.level + 1 } _ hkids hno.1 hbody htag hinside
    rw [scanRun_again hopen, scanRun_behind_start hstart hname hattrs, hkidsRun,
      ← length_print_elem]
    generalize p + (startTag name attrs).length + kids.print.length = q at hclose hrest ⊢
    have hend : scanTag data tags ({ s with level := s.level + 1 }.goto q) =
        some (.again (s.goto (q + 1 + (name ++ blanks).length))) := by
      have hlevel' : 0 ≤ s.level + 1 - 1 := by omega
      rw [scanTag_endTag hclose hname hblanks, if_pos hlevel', Int.add_sub_cancel]
      rfl
    rw [scanRun_again hend, scanRun_behind_end hclose hname hblanks]
    exact ihrest hwf hno.2 hrest htag hlevel

theorem scanRun_noElement (f : Content) : ∀ {p : Nat}, f.WellFormed → f.NoElement →
    Stands data p f.print →
    scanRun data tags (s.goto p) = scanRun data tags (s.goto (p + f.print.length)) := by
  induction f with
  | nil => exact fun _ _ _ => rfl
  | misc m rest ih =>
    intro p hwf hno h
    rw [Content.print, stands_append] at h
    rw [← length_print_misc, scanRun_misc h.1 hwf.1]
    exact ih hwf.2 hno h.2
  | empty name attrs rest => exact fun _ hno _ => absurd hno id
  | elem name attrs kids blanks rest => exact fun _ hno _ => absurd hno id

/-! ## Values -/

theorem bytes_section : "<![CDATA[".toList.map chr = chr '<' :: "![CDATA[".toList.map chr ∧
    ("![CDATA[".toList.map chr).length = 8 := by decide

theorem extractCdata_of_other {pre text : List Byte} {j : Nat} {b : Byte} (hpre : chr '<' ∉ pre)
    (h : Stands data p (pre ++ chr '<' :: text)) (hj : j < 8) (hb : text[j]? = some b)
    (hne : ("![CDATA[".toList.map chr)[j]? ≠ some b) :
    extractCdata data p (pre ++ chr '<' :: text).length = (p, (pre ++ chr '<' :: text).length) := by
  have hlt : memChr (pre ++ chr '<' :: text) (chr '<') = some pre.length := memChr_append text hpre
  have hother : slice data (p + pre.length + 1) 8 ≠ "![CDATA[".toList.map chr := by
    have hstands := (stands_append.mp h).2
    rw [← List.singleton_append, stands_append] at hstands
    intro hsec
    have hget : (slice data (p + pre.length + 1) 8)[j]? = some b := by
      rw [getElem?_slice hj]
      exact hstands.2.getElem? hb
    rw [hsec] at hget
    exact hne hget
  rw [extractCdata, h.slice, hlt]
  exact if_neg fun hsec => hother hsec.2

theorem print_cdata (c rest : List Byte) : (Misc.cdata c).print ++ rest =
    chr '<' :: ("![CDATA[".toList.map chr ++ (c ++ ("]]>".toList.map chr ++ rest))) := by
  show "<![CDATA[".toList.map chr ++ (c ++ "]]>".toList.map chr) ++ rest = _
  rw [bytes_section.1, List.cons_append, List.cons_append, List.append_assoc, List.append_assoc]

theorem extractCdata_of_cdata {pre c rest : List Byte} (hpre : chr '<' ∉ pre)
    (hc : (Misc.cdata c).WellFormed) (h : Stands data p (pre ++ ((Misc.cdata c).print ++ rest))) :
    extractCdata data p (pre ++ ((Misc.cdata c).print ++ rest)).length =
      (p + (pre.length + 9), c.length) := by
  rw [print_cdata] at h ⊢
  have hslice := h.slice
  have hlt : memChr (pre ++ chr '<' :: ("![CDATA[".toList.map chr ++
      (c ++ ("]]>".toList.map chr ++ rest)))) (chr '<') = some pre.length := memChr_append _ hpre
  have hlen : 8 < (pre ++ chr '<' :: ("![CDATA[".toList.map chr ++
      (c ++ ("]]>".toList.map chr ++ rest)))).length - pre.length := by
    rw [List.length_append, List.length_cons, List.length_append, bytes_section.2]
    omega
  have hopen : slice data (p + pre.length + 1) 8 = "![CDATA[".toList.map chr := by
    have hstands := (stands_append.mp h).2
    rw [← List.singleton_append, stands_append, stands_append] at hstands
    have hsec := hstands.2.1.slice
    rwa [bytes_section.2] at hsec
  -- the section ends at the first `]]>` behind what begins it
  have hclose : memFindOff (pre.length + 9) (pre ++ chr '<' :: ("![CDATA[".toList.map chr ++
      (c ++ ("]]>".toList.map chr ++ rest)))) ("]]>".toList.map chr) =
        some (pre.length + 9 + c.length) := by
    apply Stands.memFindOff (by decide)
    · refine ⟨rest, ?_⟩
      have hnine : pre.length + 9 = (pre ++ (chr '<' :: "![CDATA[".toList.map chr)).length := by
        rw [List.length_append, List.length_cons, bytes_section.2]
      rw [hnine, List.append_assoc, ← List.cons_append, ← List.append_assoc pre, List.drop_left]
    · exact no_prefix_of_last (by decide) hc rfl (by decide)
  rw [extractCdata, hslice, hlt]
  dsimp only
  rw [if_pos ⟨hlen, hopen⟩, hclose]
  dsimp only
  rw [Nat.add_sub_cancel_left]

theorem extractCdata_print (f : Content) : ∀ {pre : List Byte}, f.WellFormed → f.NoElement →
    chr '<' ∉ pre → Stands data p (pre ++ f.print) →
    extractCdata data p (pre ++ f.print).length =
      (f.cdata (p + pre.length)).getD (p, (pre ++ f.print).length) := by
  induction f with
  | nil =>
    intro pre _ _ hpre h
    -- nothing but text
    have hnone : memChr pre (chr '<') = none := List.idxOf?_eq_none_iff.mpr hpre
    rw [Content.print, List.append_nil] at h ⊢
    rw [extractCdata, h.slice, hnone]
    rfl
  | misc m rest ih =>
    intro pre hwf hno hpre h
    rw [Content.print] at h ⊢
    cases m with
    | text t =>
      have hpre' : chr '<' ∉ pre ++ t := by
        rw [List.mem_append, not_or]
        exact ⟨hpre, hwf.1⟩
      have hprint : (Misc.text t).print = t := rfl
      rw [hprint, ← List.append_assoc] at h ⊢
      rw [ih hwf.2 hno hpre' h, Content.cdata, List.length_append, Nat.add_assoc]
    | cdata c =>
      rw [extractCdata_of_cdata hpre hwf.1 h, Content.cdata, Option.getD_some, Nat.add_assoc]
    | comment c =>
      exact extractCdata_of_other (j := 1) (b := chr '-') hpre h (by decide) rfl (by decide)
    | pi c =>
      exact extractCdata_of_other (j := 0) (b := chr '?') hpre h (by decide) rfl (by decide)
  | empty name attrs rest => exact fun _ hno _ _ => absurd hno id
  | elem name attrs kids blanks rest => exact fun _ hno _ _ => absurd hno id

end Xml
