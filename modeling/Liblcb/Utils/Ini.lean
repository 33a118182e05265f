import Liblcb.Utils.Mem
import Liblcb.Lib.Buffer

/-!
# INI files

`utils/ini.c`, and `buf_get_next_line` of `utils/buf_str.c`.  An INI object is its array of lines.
Allocation succeeds, so no entry of the array is null; the capacity of the array is left out.  Names
come with their sizes.  A pointer into the data of a line is an offset.
-/

namespace Ini

open Mem Buffer

inductive LineType where
  | emptyLine
  | invalid
  | comment
  | sect
  | value
  deriving DecidableEq, Repr

/-- `ini_line_t`: `data` is the `data_size` bytes of the line. -/
structure Line where
  data : List Byte
  dataAllocatedSize : Nat
  type : LineType
  name : Nat
  nameSize : Nat
  val : Nat
  valSize : Nat
  deriving DecidableEq, Repr

def Line.nameBytes (line : Line) : List Byte := (line.data.drop line.name).take line.nameSize

def Line.valBytes (line : Line) : List Byte := (line.data.drop line.val).take line.valSize

def lineAllocPadding : Nat := 16

/-- `ini_line_alloc__int`, filled with `data`. -/
def lineAlloc (data : List Byte) : Line :=
  { data, dataAllocatedSize := data.length + lineAllocPadding, type := .emptyLine, name := 0,
    nameSize := 0, val := 0, valSize := 0 }

def cr : Byte := 0x0d#8
def lf : Byte := 0x0a#8

/-! ## Reading -/

/-- `buf_get_next_line`: the line after `line`, as its offset and its size. -/
def bufGetNextLine (buf : List Byte) (line : Option (Nat × Nat)) : Option (Nat × Nat) :=
  if buf.length = 0 then none
  else
    let ptr :=
      match line with
      | none => 0
      | some (line, lineSize) =>
        let ptr := line + lineSize
        let ptr := if buf[ptr]? = some cr then ptr + 1 else ptr
        if buf[ptr]? = some lf then ptr + 1 else ptr
    let lineEnd :=
      match memChrOff ptr buf lf with
      | none => buf.length
      | some lineEnd =>
        if ptr < lineEnd ∧ buf[lineEnd - 1]? = some cr then lineEnd - 1 else lineEnd
    if buf.length = ptr then none else some (ptr, lineEnd - ptr)

/-- The line `ini_buf_parse` makes of the bytes of a line. -/
def parseLine (data : List Byte) : Line :=
  let line := lineAlloc data
  match data with
  | [] => { line with type := .emptyLine }
  | b :: _ =>
    if b = chr ';' ∨ b = chr '#' then { line with type := .comment }
    else if b = chr '[' then
      match memRchr data (chr ']') with
      | none => { line with type := .invalid }
      | some ptr => { line with type := .sect, name := 1, nameSize := ptr - 1 }
    else
      match memChr data (chr '=') with
      | none => { line with type := .invalid }
      | some ptr =>
        { line with
          type := .value, name := 0, nameSize := ptr, val := ptr + 1,
          valSize := data.length - (ptr + 1) }

/-- The loop of `ini_buf_parse`. -/
def bufParseLoop (buf : List Byte) : Nat → Option (Nat × Nat) → List Line → Option (List Line)
  | 0, _, _ => none
  | fuel + 1, prev, lines =>
    match bufGetNextLine buf prev with
    | none => some lines
    | some (pline, lineSize) =>
      bufParseLoop buf fuel (some (pline, lineSize))
        (lines ++ [parseLine ((buf.drop pline).take lineSize)])

/-- `ini_buf_parse`; `none` if it does not return. -/
def iniBufParse (lines : List Line) (buf : List Byte) : Option (List Line) :=
  if buf.length = 0 then some lines else bufParseLoop buf (buf.length + 1) none lines

/-! ## Writing -/

def iniBufCalcSize (lines : List Line) : Nat := (lines.map (fun line => line.data.length + 2)).sum

inductive GenRet where
  | einval
  /-- the error, `buf_size_ret` and the buffer -/
  | ret (error : Int) (bufSizeRet : Nat) (buf : List Byte)
  deriving DecidableEq, Repr

/-- The loop of `ini_buf_gen`: a line is only compared with the size of the whole buffer. -/
def bufGenLoop : List Line → List Byte → Nat → Option GenRet
  | [], buf, off => some (.ret 0 off buf)
  | line :: lines, buf, off =>
    if buf.length < line.data.length + 2 then some (.ret (-1) off buf)
    else do
      let buf ← putAll buf off line.data
      let off := off + line.data.length
      let buf ← put buf off cr
      let buf ← put buf (off + 1) lf
      bufGenLoop lines buf (off + 2)

/-- `ini_buf_gen`; `none` if it writes outside the buffer. -/
def iniBufGen (lines : List Line) (buf : List Byte) : Option GenRet :=
  if buf.length = 0 then some .einval else bufGenLoop lines buf 0

/-! ## Lookup -/

def Line.isSect (line : Line) : Bool := line.type = .sect

def Line.isValue (line : Line) : Bool := line.type = .value

/-- `ini_sect_enum`: the first section from `sectOff` on. -/
def iniSectEnum (lines : List Line) (sectOff : Nat) : Option Nat :=
  let off := if lines.length < sectOff then 0 else sectOff
  ((lines.drop off).findIdx? Line.isSect).map (off + ·)

/-- The loop of `ini_sect_find`. -/
def sectFindLoop (lines : List Line) (sectName : List Byte) : Nat → Nat → Option Nat
  | 0, _ => none
  | fuel + 1, i =>
    match iniSectEnum lines i with
    | none => none
    | some i =>
      if (lines[i]?.any fun line => memCmpn line.nameBytes sectName) then some i
      else sectFindLoop lines sectName fuel (i + 1)

/-- `ini_sect_find`; `none` is `INI_OFFSET_INVALID`. -/
def iniSectFind (lines : List Line) (sectName : List Byte) : Option Nat :=
  if sectName.length = 0 then none else sectFindLoop lines sectName (lines.length + 1) 0

/-- `ini_sect_val_enum`: the first value from `valOff` on, in the section at `sectOff`. -/
def iniSectValEnum (lines : List Line) (sectOff valOff : Nat) : Option Nat :=
  let off := if valOff < sectOff + 1 then sectOff + 1 else valOff
  -- the loop returns at the next section and skips what is no value
  (((lines.drop off).takeWhile fun line => !line.isSect).findIdx? Line.isValue).map (off + ·)

/-- The loop of `ini_sect_val_find`. -/
def sectValFindLoop (lines : List Line) (sectOff : Nat) (valName : List Byte) :
    Nat → Nat → Option Nat
  | 0, _ => none
  | fuel + 1, i =>
    match iniSectValEnum lines sectOff i with
    | none => none
    | some i =>
      if (lines[i]?.any fun line => memCmpin line.nameBytes valName) then some i
      else sectValFindLoop lines sectOff valName fuel (i + 1)

/-- `ini_sect_val_find`: names are compared without regard to case. -/
def iniSectValFind (lines : List Line) (sectOff : Nat) (valName : List Byte) : Option Nat :=
  if valName.length = 0 then none else sectValFindLoop lines sectOff valName (lines.length + 1) 0

/-- The line `ini_val_set` adds for a section. -/
def newSect (sectName : List Byte) : Line :=
  { lineAlloc (chr '[' :: (sectName ++ [chr ']'])) with
    type := .sect, name := 1, nameSize := sectName.length }

/-- `alloc_new_line`: a value line for `dataSize` bytes, up to its `=`. -/
def newValue (valName : List Byte) (dataSize : Nat) : Line :=
  { data := valName ++ [chr '='], dataAllocatedSize := dataSize + lineAllocPadding, type := .value,
    name := 0, nameSize := valName.length, val := valName.length + 1, valSize := 0 }

/-- The room of an existing line; `moves` says whether `realloc` moved it. -/
def Line.grow (moves : Bool) (dataSize : Nat) (line : Line) : Line :=
  if dataSize < line.dataAllocatedSize then line
  else if moves then
    { line with
      dataAllocatedSize := dataSize + lineAllocPadding, name := 0, val := line.nameSize + 1 }
  else line

/-- `update_value`: the value is copied behind the `=`, and the line ends after `dataSize` bytes. -/
def Line.updateValue (dataSize : Nat) (val : List Byte) (line : Line) : Line :=
  { line with data := (line.data.take line.val ++ val).take dataSize, valSize := val.length }

/-- Where the section at `sectOff` ends. -/
def sectEnd (lines : List Line) (sectOff : Nat) : Nat :=
  sectOff + 1 + (lines.drop (sectOff + 1)).findIdx Line.isSect

/-- The loop that goes back over empty lines. -/
def beforeEmpty (lines : List Line) : Nat → Nat
  | 0 => 0
  | valOff + 1 =>
    if (lines[valOff]?.any fun line => line.type = .emptyLine) then beforeEmpty lines valOff
    else valOff + 1

/-- `ini_val_set`; it returns `0`. -/
def iniValSet (moves : Bool) (lines : List Line) (sectName valName val : List Byte) :
    List Line :=
  let (sectOff, lines) :=
    match iniSectFind lines sectName with
    | none => (lines.length, lines ++ [newSect sectName])
    | some sectOff => (sectOff, lines)
  let dataSize := valName.length + 1 + val.length
  match iniSectValFind lines sectOff valName with
  | none =>
    let valOff := beforeEmpty lines (sectEnd lines sectOff)
    lines.take valOff ++ (newValue valName dataSize).updateValue dataSize val :: lines.drop valOff
  | some valOff => lines.modify valOff fun line => (line.grow moves dataSize).updateValue dataSize val

end Ini

/-!
# Splitting a text into lines

`ini_buf_parse` returns on every text, and none of the lines it adds holds a LF.
-/

namespace Ini

open Mem

variable {buf : List Byte}

/-- Where the line after `line` starts. -/
def nextPtr (buf : List Byte) : Option (Nat × Nat) → Nat
  | none => 0
  | some (line, lineSize) =>
    let ptr := line + lineSize
    let ptr := if buf[ptr]? = some cr then ptr + 1 else ptr
    if buf[ptr]? = some lf then ptr + 1 else ptr

/-- Where the line that starts at `ptr` ends. -/
def lineEnd (buf : List Byte) (ptr : Nat) : Nat :=
  match memChrOff ptr buf lf with
  | none => buf.length
  | some lineEnd => if ptr < lineEnd ∧ buf[lineEnd - 1]? = some cr then lineEnd - 1 else lineEnd

theorem bufGetNextLine_eq (buf : List Byte) (prev : Option (Nat × Nat)) (hbuf : buf ≠ []) :
    bufGetNextLine buf prev =
      if buf.length = nextPtr buf prev then none
      else some (nextPtr buf prev, lineEnd buf (nextPtr buf prev) - nextPtr buf prev) := by
  unfold bufGetNextLine
  rw [if_neg (fun h => hbuf (List.length_eq_zero_iff.mp h))]
  cases prev <;> rfl

/-- A line the splitter found: it holds no LF, and it ends at the end of the buffer, at a LF or at a
CR LF. -/
structure LineAt (buf : List Byte) (ptr size : Nat) : Prop where
  start : ptr < buf.length
  clean : lf ∉ (buf.drop ptr).take size
  stop : ptr + size = buf.length ∨ buf[ptr + size]? = some lf ∨
    buf[ptr + size]? = some cr ∧ buf[ptr + size + 1]? = some lf

theorem lineAt_lineEnd {ptr : Nat} (hptr : ptr < buf.length) :
    LineAt buf ptr (lineEnd buf ptr - ptr) := by
  unfold lineEnd
  split
  case h_1 hnone =>
    refine ⟨hptr, ?_, .inl (by omega)⟩
    rw [memChrOff, Option.map_eq_none_iff, List.idxOf?_eq_none_iff] at hnone
    exact fun h => hnone (List.mem_of_mem_take h)
  case h_2 i hi =>
    have hb := memChrOff_bounds hi
    rw [memChrOff, Option.map_eq_some_iff] at hi
    rcases hi with ⟨j, hj, rfl⟩
    rcases memChr_some hj with ⟨hlf, hbefore⟩
    rw [List.getElem?_drop] at hlf
    split
    case isTrue hcr =>
      refine ⟨hptr, ?_, .inr (.inr ⟨?_, ?_⟩)⟩
      · intro h
        apply hbefore
        rw [show ptr + j - 1 - ptr = min (j - 1) j by omega, ← List.take_take] at h
        exact List.mem_of_mem_take h
      · rw [show ptr + (ptr + j - 1 - ptr) = ptr + j - 1 by omega]
        exact hcr.2
      · rw [show ptr + (ptr + j - 1 - ptr) + 1 = ptr + j by omega]
        exact hlf
    case isFalse =>
      rw [Nat.add_sub_cancel_left]
      exact ⟨hptr, hbefore, .inr (.inl hlf)⟩

theorem LineAt.nextPtr {ptr size : Nat} (h : LineAt buf ptr size) :
    ptr < Ini.nextPtr buf (some (ptr, size)) ∧ Ini.nextPtr buf (some (ptr, size)) ≤ buf.length := by
  have hstart := h.start
  have hlt : ∀ {i : Nat} {b : Byte}, buf[i]? = some b → i < buf.length :=
    fun h => (List.getElem?_eq_some_iff.mp h).1
  unfold Ini.nextPtr
  rcases h.stop with hend | hlf | ⟨hcr, hlf⟩
  · have hnone : buf[ptr + size]? = none := List.getElem?_eq_none (by omega)
    simp only [hnone, reduceCtorEq, if_false]
    omega
  · have hne : ¬some lf = some cr := by decide
    have hb := hlt hlf
    simp only [hlf, hne, if_false, if_true]
    omega
  · have hb := hlt hlf
    simp only [hcr, hlf, if_true]
    omega

theorem bufParseLoop_returns (hbuf : buf ≠ []) (fuel : Nat) (prev : Option (Nat × Nat))
    (lines : List Line) (hle : nextPtr buf prev ≤ buf.length)
    (hfuel : buf.length - nextPtr buf prev < fuel) :
    ∃ datas : List (List Byte), bufParseLoop buf fuel prev lines =
      some (lines ++ datas.map parseLine) ∧ ∀ data ∈ datas, lf ∉ data := by
  induction fuel generalizing prev lines with
  | zero => omega
  | succ fuel ih =>
    rw [bufParseLoop, bufGetNextLine_eq buf prev hbuf]
    by_cases hend : buf.length = nextPtr buf prev
    · rw [if_pos hend]
      exact ⟨[], by rw [List.map_nil, List.append_nil], nofun⟩
    · rw [if_neg hend]
      generalize nextPtr buf prev = ptr at hle hfuel hend
      have hline : LineAt buf ptr (lineEnd buf ptr - ptr) := lineAt_lineEnd (by omega)
      generalize lineEnd buf ptr - ptr = size at hline
      have hnext := hline.nextPtr
      rcases ih (some (ptr, size)) (lines ++ [parseLine ((buf.drop ptr).take size)]) hnext.2
        (by omega) with ⟨datas, hrun, hclean⟩
      refine ⟨(buf.drop ptr).take size :: datas, ?_, ?_⟩
      · show bufParseLoop buf fuel _ _ = _
        rw [hrun, List.map_cons, List.append_assoc]
        rfl
      · intro data hdata
        rcases List.mem_cons.mp hdata with rfl | hdata
        · exact hline.clean
        · exact hclean data hdata

theorem iniBufParse_returns (lines : List Line) (buf : List Byte) :
    ∃ datas : List (List Byte), iniBufParse lines buf = some (lines ++ datas.map parseLine) ∧
      ∀ data ∈ datas, lf ∉ data := by
  unfold iniBufParse
  by_cases hbuf : buf = []
  · rw [hbuf]
    exact ⟨[], by rw [List.map_nil, List.append_nil]; rfl, nofun⟩
  · rw [if_neg (fun h => hbuf (List.length_eq_zero_iff.mp h))]
    exact bufParseLoop_returns hbuf _ none lines (Nat.zero_le _) (by show buf.length - 0 < _; omega)

end Ini
