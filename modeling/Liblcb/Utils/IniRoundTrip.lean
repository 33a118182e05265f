import Liblcb.Utils.IniSpec

/-!
# Saving and loading

`ini_buf_gen` into a buffer of `ini_buf_calc_size` bytes, and `ini_buf_parse` of the result.
-/

namespace Ini

open Mem Buffer

variable {lines : List Line} {buf : List Byte}

/-- The file of an object. -/
def text (lines : List Line) : List Byte := lines.flatMap fun line => line.data ++ [cr, lf]

theorem text_cons (line : Line) (lines : List Line) :
    text (line :: lines) = line.data ++ (cr :: lf :: text lines) := by
  rw [text, List.flatMap_cons, List.append_assoc]
  rfl

theorem iniBufCalcSize_cons (line : Line) (lines : List Line) :
    iniBufCalcSize (line :: lines) = line.data.length + 2 + iniBufCalcSize lines := rfl

theorem length_text : (lines : List Line) → (text lines).length = iniBufCalcSize lines
  | [] => rfl
  | line :: lines => by
    rw [text_cons, iniBufCalcSize_cons, List.length_append, List.length_cons, List.length_cons,
      length_text lines]
    omega

/-! ## Writing -/

theorem bufGenLoop_eq : (lines : List Line) → (buf : List Byte) → (off : Nat) →
    off + iniBufCalcSize lines ≤ buf.length →
    bufGenLoop lines buf off =
      some (.ret 0 (off + iniBufCalcSize lines) (splice buf off (text lines)))
  | [], buf, off, _ => by
    rw [bufGenLoop, text, List.flatMap_nil, splice_nil]
    rfl
  | line :: lines, buf, off, h => by
    rw [iniBufCalcSize_cons] at h
    have hdata : off + line.data.length ≤ buf.length := by omega
    have hlen := length_splice hdata
    have hline : off + (line.data ++ [cr]).length ≤ buf.length := by
      rw [List.length_append, List.length_singleton]
      omega
    have hend : off + (line.data ++ [cr, lf]).length ≤ buf.length := by
      rw [List.length_append, List.length_cons, List.length_singleton]
      omega
    have hcr : put (splice buf off line.data) (off + line.data.length) cr =
        some (splice buf off (line.data ++ [cr])) := by
      rw [put_eq cr (by omega), splice_splice hdata]
    have hlf : put (splice buf off (line.data ++ [cr])) (off + line.data.length + 1) lf =
        some (splice buf off (line.data ++ [cr, lf])) := by
      have hpos : off + line.data.length + 1 = off + (line.data ++ [cr]).length := by
        rw [List.length_append, List.length_singleton]
        omega
      rw [hpos, put_eq lf (by rw [length_splice hline]; omega), splice_splice hline,
        List.append_assoc]
      rfl
    have hrec := bufGenLoop_eq lines (splice buf off (line.data ++ [cr, lf]))
      (off + line.data.length + 2) (by rw [length_splice hend]; omega)
    have hpos : off + line.data.length + 2 = off + (line.data ++ [cr, lf]).length := by
      rw [List.length_append, List.length_cons, List.length_singleton]
      omega
    rw [bufGenLoop, if_neg (by omega), putAll_eq hdata]
    simp only [Option.bind_eq_bind, Option.bind_some, hcr, hlf]
    rw [hrec, hpos, splice_splice hend, ← hpos, iniBufCalcSize_cons, text, text,
      List.flatMap_cons]
    congr 2
    omega

theorem iniBufCalcSize_pos (hne : lines ≠ []) : 0 < iniBufCalcSize lines := by
  match lines, hne with
  | line :: lines, _ =>
    rw [iniBufCalcSize_cons]
    omega

theorem iniBufGen_eq (hne : lines ≠ []) (hbuf : buf.length = iniBufCalcSize lines) :
    iniBufGen lines buf = some (.ret 0 (iniBufCalcSize lines) (text lines)) := by
  have hpos := iniBufCalcSize_pos hne
  rw [iniBufGen, if_neg (by omega), bufGenLoop_eq lines buf 0 (by omega), Nat.zero_add,
    splice_zero (by rw [hbuf, length_text])]

/-! ## Loading what was saved -/

theorem nextPtr_at {pre data rest : List Byte} {size : Nat}
    (hbuf : buf = pre ++ (data ++ (cr :: lf :: rest))) (hsize : size = data.length) :
    nextPtr buf (some (pre.length, size)) = (pre ++ (data ++ [cr, lf])).length := by
  have hcr : buf[pre.length + data.length]? = some cr := by
    rw [hbuf, List.getElem?_append_right (by omega), Nat.add_sub_cancel_left,
      List.getElem?_append_right (Nat.le_refl _), Nat.sub_self, List.getElem?_cons_zero]
  have hlf : buf[pre.length + data.length + 1]? = some lf := by
    rw [hbuf, List.getElem?_append_right (by omega),
      show pre.length + data.length + 1 - pre.length = data.length + 1 by omega,
      List.getElem?_append_right (by omega), Nat.add_sub_cancel_left]
    rfl
  unfold nextPtr
  simp only [hsize, hcr, hlf, if_true, List.length_append, List.length_cons, List.length_nil]
  omega

theorem lineEnd_at {pre data rest : List Byte} (hbuf : buf = pre ++ (data ++ (cr :: lf :: rest)))
    (hdata : lf ∉ data) : lineEnd buf pre.length = pre.length + data.length := by
  have hlf : memChrOff pre.length buf lf = some (pre.length + (data ++ [cr]).length) := by
    rw [hbuf, show data ++ (cr :: lf :: rest) = (data ++ [cr]) ++ lf :: rest by simp]
    apply memChrOff_append rfl
    rw [List.mem_append, List.mem_singleton]
    rintro (h | h)
    · exact hdata h
    · exact absurd h (by decide)
  have hcr : buf[pre.length + (data.length + 1) - 1]? = some cr := by
    rw [hbuf, List.getElem?_append_right (by omega),
      show pre.length + (data.length + 1) - 1 - pre.length = data.length by omega,
      List.getElem?_append_right (Nat.le_refl _), Nat.sub_self, List.getElem?_cons_zero]
  unfold lineEnd
  rw [hlf, List.length_append, List.length_singleton]
  simp only [hcr, and_true]
  rw [if_pos (by omega)]
  omega

theorem bufParseLoop_text (hbuf : buf ≠ []) : (rest : List Line) → (pre : List Byte) →
    (prev : Option (Nat × Nat)) → (fuel : Nat) → (done : List Line) →
    buf = pre ++ text rest → nextPtr buf prev = pre.length → (∀ l ∈ rest, lf ∉ l.data) →
    rest.length < fuel →
    bufParseLoop buf fuel prev done = some (done ++ rest.map fun l => parseLine l.data)
  | _, _, _, 0, _, _, _, _, hfuel => absurd hfuel (by omega)
  | [], pre, prev, fuel + 1, done, hpre, hptr, _, _ => by
    have hend : buf.length = nextPtr buf prev := by
      rw [hptr, hpre, text, List.flatMap_nil, List.append_nil]
    rw [bufParseLoop, bufGetNextLine_eq buf prev hbuf, if_pos hend, List.map_nil,
      List.append_nil]
  | line :: rest, pre, prev, fuel + 1, done, hpre, hptr, hclean, hfuel => by
    rw [text_cons] at hpre
    have hne : ¬buf.length = nextPtr buf prev := by
      rw [hptr, hpre, List.length_append, List.length_append, List.length_cons]
      omega
    have hdata := hclean line List.mem_cons_self
    have hsize : lineEnd buf pre.length - pre.length = line.data.length := by
      rw [lineEnd_at hpre hdata]
      omega
    have htake : (buf.drop pre.length).take line.data.length = line.data := by
      rw [hpre, List.drop_left, List.take_left]
    have hnext : buf = (pre ++ (line.data ++ [cr, lf])) ++ text rest := by
      rw [hpre]
      simp
    have hrec := bufParseLoop_text hbuf rest (pre ++ (line.data ++ [cr, lf]))
      (some (pre.length, line.data.length)) fuel (done ++ [parseLine line.data]) hnext
      (nextPtr_at hpre rfl) (fun l hl => hclean l (List.mem_cons_of_mem _ hl))
      (by rw [List.length_cons] at hfuel; omega)
    rw [bufParseLoop, bufGetNextLine_eq buf prev hbuf, if_neg hne, hptr, hsize]
    simp only [htake]
    rw [hrec, List.append_assoc]
    rfl

theorem iniBufParse_text (hne : lines ≠ []) (hclean : ∀ l ∈ lines, lf ∉ l.data) :
    iniBufParse [] (text lines) = some (lines.map fun l => parseLine l.data) := by
  have hlen := length_text lines
  have hpos := iniBufCalcSize_pos hne
  have hbuf : text lines ≠ [] := fun h => by
    rw [h, List.length_nil] at hlen
    omega
  have hfuel : lines.length ≤ iniBufCalcSize lines := by
    clear hne hclean hlen hpos hbuf
    induction lines with
    | nil => exact Nat.le_refl _
    | cons line lines ih =>
      rw [iniBufCalcSize_cons, List.length_cons]
      omega
  unfold iniBufParse
  rw [if_neg (by omega)]
  exact bufParseLoop_text hbuf lines [] none _ [] rfl rfl hclean (by omega)

/-! ## Lines that read as they are -/

/-- Names and values that make lines which are read back as they were written. -/
structure Clean (sectName valName val : List Byte) : Prop where
  named : Named sectName valName val
  sect : lf ∉ sectName
  name : lf ∉ valName
  value : lf ∉ val
  eq : chr '=' ∉ valName
  head : ∀ b, valName.head? = some b → b ≠ chr ';' ∧ b ≠ chr '#' ∧ b ≠ chr '['

def Line.withRoom (line : Line) (dataAllocatedSize : Nat) : Line := { line with dataAllocatedSize }

/-- Parsing the data of the line gives the line, up to its room. -/
structure Line.Stable (line : Line) : Prop where
  clean : lf ∉ line.data
  parse : (parseLine line.data).withRoom line.dataAllocatedSize = line

theorem parseLine_data (data : List Byte) : (parseLine data).data = data := by
  unfold parseLine
  match data with
  | [] => rfl
  | b :: data =>
    simp only []
    split
    · rfl
    · split
      · split <;> rfl
      · split <;> rfl

theorem parseLine_stable {data : List Byte} (h : lf ∉ data) : (parseLine data).Stable := by
  refine ⟨?_, ?_⟩
  · rw [parseLine_data]
    exact h
  · rw [parseLine_data]
    rfl

theorem parseLine_value {b : Byte} {name val : List Byte}
    (hb : b ≠ chr ';' ∧ b ≠ chr '#' ∧ b ≠ chr '[') (heq : chr '=' ∉ b :: name) :
    parseLine (b :: name ++ chr '=' :: val) =
      { lineAlloc (b :: name ++ chr '=' :: val) with
        type := .value, name := 0, nameSize := name.length + 1, val := name.length + 2,
        valSize := val.length } := by
  have hptr := memChr_append val heq
  unfold parseLine
  simp only [List.cons_append] at hptr ⊢
  rw [if_neg (by simp [hb.1, hb.2.1]), if_neg hb.2.2, hptr]
  simp only [List.length_cons, List.length_append]
  congr 1
  omega

theorem parseLine_sect (sectName : List Byte) :
    parseLine (chr '[' :: (sectName ++ [chr ']'])) =
      { lineAlloc (chr '[' :: (sectName ++ [chr ']'])) with
        type := .sect, name := 1, nameSize := sectName.length } := by
  have hptr : memRchr (chr '[' :: (sectName ++ [chr ']'])) (chr ']') =
      some (sectName.length + 1) := by
    rw [memRchr, List.reverse_cons, List.reverse_append, List.reverse_singleton,
      List.singleton_append, List.cons_append, List.idxOf?_cons, beq_self_eq_true, if_pos rfl,
      Option.map_some, List.length_cons, List.length_append, List.length_singleton]
    rfl
  unfold parseLine
  simp only [hptr]
  rw [if_neg (by decide), if_pos trivial]
  rfl

variable {sectName valName val : List Byte}

theorem newSect_stable (h : Clean sectName valName val) : (newSect sectName).Stable := by
  refine ⟨?_, ?_⟩
  · show lf ∉ chr '[' :: (sectName ++ [chr ']'])
    rw [List.mem_cons, List.mem_append, List.mem_singleton]
    rintro (h1 | h1 | h1)
    · exact absurd h1 (by decide)
    · exact h.sect h1
    · exact absurd h1 (by decide)
  · show (parseLine (chr '[' :: (sectName ++ [chr ']']))).withRoom _ = _
    rw [parseLine_sect]
    rfl

theorem setLine_stable (h : Clean sectName valName val) : (setLine valName val).Stable := by
  refine ⟨?_, ?_⟩
  · rw [setLine_data, List.mem_append, List.mem_cons]
    rintro (h1 | h1 | h1)
    · exact h.name h1
    · exact absurd h1 (by decide)
    · exact h.value h1
  · match valName, h with
    | [], h => exact absurd rfl h.named.2
    | b :: name, h =>
      rw [setLine_data, parseLine_value (h.head b rfl) h.eq, ← setLine_data]
      rfl

theorem value_of_parseLine {data : List Byte} (hv : (parseLine data).type = .value)
    (hname : (parseLine data).nameSize ≠ 0) :
    ∃ b name old, data = b :: name ++ chr '=' :: old ∧
      (parseLine data).nameSize = name.length + 1 ∧
      (b ≠ chr ';' ∧ b ≠ chr '#' ∧ b ≠ chr '[') ∧ chr '=' ∉ b :: name := by
  unfold parseLine at hv hname ⊢
  match data with
  | [] => exact absurd hv nofun
  | b :: data =>
    simp only [] at hv hname ⊢
    split at hv
    · exact absurd hv nofun
    · split at hv
      · split at hv <;> exact absurd hv nofun
      · split at hv
        · exact absurd hv nofun
        · rename_i hcomment hsect _ ptr hptr
          rw [if_neg hcomment, if_neg hsect] at hname ⊢
          rw [hptr] at hname
          rcases memChr_some hptr with ⟨hget, hbefore⟩
          match ptr, hname with
          | k + 1, _ =>
            rw [List.take_succ_cons] at hbefore
            rw [List.getElem?_cons_succ] at hget
            have hlt := (List.getElem?_eq_some_iff.mp hget).1
            refine ⟨b, data.take k, data.drop (k + 1), ?_, ?_, ?_, hbefore⟩
            · have hcons : data.drop k = chr '=' :: data.drop (k + 1) := by
                rw [List.drop_eq_getElem_cons hlt, (List.getElem?_eq_some_iff.mp hget).2]
              rw [← hcons, List.cons_append, List.take_append_drop]
            · show k + 1 = _
              rw [List.length_take]
              omega
            · exact ⟨fun h => hcomment (.inl h), fun h => hcomment (.inr h), hsect⟩

theorem resetLine_stable (moves : Bool) {line : Line} (h : Clean sectName valName val)
    (hline : line.isValueNamed valName = true) (hwf : line.Wf) (hstable : line.Stable) :
    (resetLine moves valName val line).Stable := by
  have hname := (nameSize_of_isValueNamed hwf hline).1
  have hne : valName.length ≠ 0 := fun h0 => h.named.2 (List.length_eq_zero_iff.mp h0)
  have hparse : (parseLine line.data).type = .value ∧
      (parseLine line.data).nameSize = line.nameSize :=
    ⟨(congrArg Line.type hstable.parse).trans (isValueNamed_iff.mp hline).1,
      (congrArg Line.nameSize hstable.parse :)⟩
  rcases value_of_parseLine hparse.1 (by omega) with ⟨b, name, old, hdata, hsize, hb, heq⟩
  rw [hparse.2] at hsize
  have hclean := hstable.clean
  have htake : line.data.take (line.nameSize + 1) = b :: name ++ [chr '='] := by
    rw [hdata, hsize, show b :: name ++ chr '=' :: old = (b :: name ++ [chr '=']) ++ old by simp]
    apply List.take_left'
    simp
  rcases resetLine_eq moves val hwf hline with ⟨allocated, hreset⟩
  rw [htake, List.append_assoc, List.singleton_append] at hreset
  rw [hreset]
  refine ⟨?_, ?_⟩
  · show lf ∉ b :: name ++ chr '=' :: val
    rw [hdata, List.mem_append] at hclean
    rw [List.mem_append, List.mem_cons (b := chr '=')]
    rintro (h1 | h1 | h1)
    · exact hclean (.inl h1)
    · exact absurd h1 (by decide)
    · exact h.value h1
  · show (parseLine (b :: name ++ chr '=' :: val)).withRoom allocated = _
    rw [parseLine_value hb heq, hsize]
    rfl

theorem Built.mono {Ok Ok' : List Byte → List Byte → List Byte → Prop}
    (hok : ∀ s n v, Ok s n v → Ok' s n v) (hbuilt : Built Ok lines) : Built Ok' lines := by
  induction hbuilt with
  | create => exact .create
  | parse text _ hparse ih => exact .parse text ih hparse
  | set moves s n v _ h ih => exact .set moves s n v ih (hok s n v h)

theorem Built.stable (hbuilt : Built Clean lines) : ∀ l ∈ lines, l.Stable := by
  induction hbuilt with
  | create => nofun
  | parse text _ hparse ih =>
    rcases iniBufParse_returns _ text with ⟨datas, hrun, hclean⟩
    rw [hrun, Option.some.injEq] at hparse
    intro l hl
    rw [← hparse] at hl
    rcases List.mem_append.mp hl with hl | hl
    · exact ih l hl
    · rcases List.mem_map.mp hl with ⟨data, hdata, rfl⟩
      exact parseLine_stable (hclean data hdata)
  | set moves sectName valName val hbuilt hok ih =>
    have hwf := (hbuilt.mono fun _ _ _ h => h.named).wf
    exact (iniValSet_step moves _ val hok.named.1 hok.named.2).forall ih (newSect_stable hok)
      (setLine_stable hok)
      (fun l hl hline => resetLine_stable moves hok hline (hwf l hl) (ih l hl))

/-- The type, the name and the value of a line. -/
def Line.view (line : Line) : LineType × List Byte × List Byte :=
  (line.type, line.nameBytes, line.valBytes)

theorem Line.Stable.view {line : Line} (h : line.Stable) :
    (parseLine line.data).view = line.view := by
  conv_rhs => rw [← h.parse]
  rfl

/-- An object with a line is saved into a buffer of the calculated size, and loading the result into
an empty object gives the same lines. -/
theorem iniBufGen_iniBufParse (hbuilt : Built Clean lines) (hne : lines ≠ []) (buf : List Byte)
    (hbuf : buf.length = iniBufCalcSize lines) :
    ∃ file lines', iniBufGen lines buf = some (.ret 0 (iniBufCalcSize lines) file) ∧
      iniBufParse [] file = some lines' ∧ lines'.map Line.view = lines.map Line.view := by
  have hstable := hbuilt.stable
  refine ⟨text lines, _, iniBufGen_eq hne hbuf,
    iniBufParse_text hne (fun l hl => (hstable l hl).clean), ?_⟩
  rw [List.map_map]
  apply List.map_congr_left
  intro l hl
  exact (hstable l hl).view

/-- The object `[s]`, `n=v`. -/
theorem iniBufGen_iniBufParse_one :
    ∃ file lines', iniBufGen (iniValSet false [] [chr 's'] [chr 'n'] [chr 'v'])
        (List.replicate 10 0) = some (.ret 0 10 file) ∧
      iniBufParse [] file = some lines' ∧ lines'.map Line.view =
        (iniValSet false [] [chr 's'] [chr 'n'] [chr 'v']).map Line.view := by
  have hclean : Clean [chr 's'] [chr 'n'] [chr 'v'] := by
    refine ⟨⟨nofun, nofun⟩, by decide, by decide, by decide, by decide, ?_⟩
    intro b hb
    cases hb
    decide
  have hbuilt := Built.set false [chr 's'] [chr 'n'] [chr 'v'] .create hclean
  exact iniBufGen_iniBufParse hbuilt (by decide) (List.replicate 10 0) (by decide)

end Ini
