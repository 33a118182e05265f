import Liblcb.Lib.Progress
import Liblcb.Utils.Mem
import Liblcb.Utils.Wire

/-!
# The scanner for XML values

`xml_get_val_arr` of `utils/xml.c`.  A turn of the loop finds the next `<` and skips what it begins;
the tags of elements move a cursor in the path that is looked for and a counter of the open elements
that do not belong to it.  Pointers are offsets in the data, and the path has at least one entry.  A
turn that reads behind the data, or an entry the path does not have, has no outcome.
-/

namespace Xml

open Mem Progress

/-- What is stored for the caller: where to go on, and the attributes and the value with their
sizes; `none` is `NULL`. -/
structure Found where
  nextPos : Nat
  attr : Option (Nat × Nat)
  value : Option (Nat × Nat)
  deriving DecidableEq

/-- The variables of the loop. -/
structure Scan where
  tagEnd : Nat
  curTag : Nat
  level : Int
  attr : Option (Nat × Nat)
  value : Option Nat
  deriving DecidableEq

abbrev Turn := Next Scan (Except Errno Found)

def isSpace (b : Byte) : Bool := b = chr ' ' || 0x09#8 ≤ b && b ≤ 0x0d#8

def slice (data : List Byte) (p n : Nat) : List Byte := (data.drop p).take n

/-- `for (; test(*p) && p < last; p ++)`. -/
def skipWhile (test : Byte → Bool) (data : List Byte) (last : Nat) : Nat → Nat → Option Nat
  | 0, _ => none
  | fuel + 1, p => do
    let b ← data[p]?
    if test b && p < last then skipWhile test data last fuel (p + 1) else some p

/-- Goes on behind what has been found, `n` bytes long. -/
def skipTo (s : Scan) (found : Option Nat) (n : Nat) : Turn :=
  match found with
  | none => .done (.error .espipe)
  | some p => .again { s with tagEnd := p + n }

/-- `<!`: a comment, `CDATA` or `DOCTYPE`. -/
def scanDecl (data : List Byte) (s : Scan) (tagStart : Nat) : Turn :=
  let dataAvail := data.length - tagStart
  if 2 < dataAvail ∧ slice data tagStart 2 = "--".toList.map chr then
    skipTo s (memFindOff (tagStart + 2) data ("-->".toList.map chr)) 3
  else if 7 < dataAvail ∧ slice data tagStart 7 = "[CDATA[".toList.map chr then
    skipTo s (memFindOff (tagStart + 7) data ("]]>".toList.map chr)) 3
  else if 7 < dataAvail ∧ slice data tagStart 7 = "DOCTYPE".toList.map chr then
    skipTo s (memChrOff (tagStart + 7) data (chr '>')) 1
  else .done (.error .espipe)

/-- The value that is returned: what is in the first `CDATA`, where the first `<` begins one. -/
def extractCdata (data : List Byte) (value dataAvail : Nat) : Nat × Nat :=
  match memChr (slice data value dataAvail) (chr '<') with
  | none => (value, dataAvail)
  | some off =>
    if 8 < dataAvail - off ∧
        slice data (value + off + 1) 8 = "![CDATA[".toList.map chr then
      match memFindOff (off + 9) (slice data value dataAvail) ("]]>".toList.map chr) with
      | none => (value, dataAvail)
      | some tagEnd => (value + (off + 9), tagEnd - (off + 9))
    else (value, dataAvail)

/-- `</`: `tagStart` is at the slash. -/
def scanClose (data : List Byte) (tags : List (List Byte)) (s : Scan) (tagStart : Nat) :
    Option Turn :=
  match memChrOff tagStart data (chr '>') with
  | none => some (.done (.error .espipe))
  | some gt =>
    let tagEnd := gt - 1
    if tagEnd = tagStart then some (.again { s with tagEnd := tagEnd })
    else if 0 ≤ s.level - 1 then
      some (.again { s with tagEnd := tagEnd, level := s.level - 1 })
    else if s.curTag = 0 then none
    else do
      let tag ← tags[s.curTag - 1]?
      if memCmpn tag (slice data (tagStart + 1) (tagEnd - tagStart)) then
        match s.value with
        | none =>
          some (.again { s with tagEnd := tagEnd, curTag := s.curTag - 1, level := 0 })
        | some value =>
          some (.done (.ok ⟨tagEnd + 2, s.attr,
            some (extractCdata data value (tagStart - 1 - value))⟩))
      else some (.again { s with tagEnd := tagEnd, level := s.level - 1 })

/-- The tag of an element; `tagStart` is at its first byte. -/
def scanOpen (data : List Byte) (tags : List (List Byte)) (s : Scan) (tagStart : Nat) :
    Option Turn :=
  match memChrOff tagStart data (chr '>') with
  | none => some (.done (.error .espipe))
  | some gt => do
    let last ← data[gt - 1]?
    let ee := last = chr '/'
    let tagEnd := if ee then gt - 2 else gt - 1
    let level := if ee then s.level else s.level + 1
    let nameEnd ← skipWhile (!isSpace ·) data tagEnd (data.length + 1) tagStart
    let b ← data[nameEnd]?
    let nameEnd := if isSpace b then nameEnd - 1 else nameEnd
    if level ≠ 1 ∧ ¬ ee then some (.again { s with tagEnd := tagEnd, level := level })
    else do
      let tag ← tags[s.curTag]?
      if ¬ memCmpn tag (slice data tagStart (nameEnd + 1 - tagStart)) then
        some (.again { s with tagEnd := tagEnd, level := level })
      else if s.curTag + 1 < tags.length then
        some (.again { s with tagEnd := tagEnd, curTag := s.curTag + 1, level := 0 })
      else do
        let attr ← skipWhile isSpace data tagEnd (data.length + 1) (nameEnd + 1)
        if ee then some (.done (.ok ⟨tagEnd + 2, none, none⟩))
        else some (.again ⟨tagEnd, s.curTag + 1, 0, some (attr, tagEnd + 1 - attr),
          some (tagEnd + 2)⟩)

/-- One turn of the loop. -/
def scanTag (data : List Byte) (tags : List (List Byte)) (s : Scan) : Option Turn :=
  match memChrOff s.tagEnd data (chr '<') with
  | none => some (.done (.error .espipe))
  | some lt => do
    let tagStart := lt + 1
    let b ← data[tagStart]?
    if b = chr '?' then some (skipTo s (memFindOff tagStart data ("?>".toList.map chr)) 2)
    else if b = chr '!' then some (scanDecl data s (tagStart + 1))
    else if b = chr '>' then some (.again { s with tagEnd := tagStart + 1 })
    else if b = chr '/' then scanClose data tags s tagStart
    else scanOpen data tags s tagStart

/-- Where the scan begins. -/
def scanStart (data : List Byte) (nextPos : Option Int) (tagArrCount : Nat) : Scan :=
  match nextPos with
  | none => ⟨0, 0, 0, none, none⟩
  | some p =>
    if 0 ≤ p ∧ p < data.length then ⟨p.toNat, if p = 0 then 0 else tagArrCount - 1, 0, none, none⟩
    else ⟨0, 0, 0, none, none⟩

/-- `xml_get_val_arr`, with the position the caller hands over in `*next_pos`. -/
def xmlGetValArr (data : List Byte) (nextPos : Option Int) (tags : List (List Byte)) :
    Option (Except Errno Found) :=
  loop (scanTag data tags) (data.length + 1) (scanStart data nextPos tags.length)

end Xml
