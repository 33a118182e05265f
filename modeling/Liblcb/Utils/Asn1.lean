import Liblcb.Lib.Progress
import Liblcb.Utils.Mem

/-!
# BER headers

`asn_parse` of `utils/asn1.h`.  A pointer into the buffer is what follows it, so `max_pos` is the
empty list; sizes are numbers below `2 ^ 64`, and the arithmetic that can wrap says so.
-/

namespace Asn1

open Mem Progress

inductive Err where
  | einval
  | espipe
  | ebadmsg
  | edom
  | eoverflow
  /-- a byte outside the buffer, or an entry outside the table, is read -/
  | outside
  deriving DecidableEq, Repr

def asnIdClassUniversal : Byte := 0x00#8
def asnIdFPrimitive : Byte := 0x00#8
def asnIdFConstructed : Byte := 0x20#8
def asnIdCuTagMask : Byte := 0x1f#8
def asnIdCuTagLongForm : Byte := 0x1f#8
def asnLenLong : Byte := 0x80#8
def asnBit8 : Byte := 0x80#8
def asnMinOidLen : Nat := 2

/-- Valid only in the table: both forms are allowed. -/
def asnIdFPc : Byte := 0xff#8

def asnClassUniPs : List Byte :=
  [asnIdFPrimitive, asnIdFPrimitive, asnIdFPrimitive, asnIdFPc, asnIdFPc, asnIdFPrimitive,
    asnIdFPrimitive, asnIdFPc, asnIdFConstructed, asnIdFPrimitive, asnIdFPrimitive,
    asnIdFConstructed, asnIdFPc, asnIdFPrimitive, asnIdFPc, asnIdFPc, asnIdFConstructed,
    asnIdFConstructed, asnIdFPc, asnIdFPc, asnIdFPc, asnIdFPc, asnIdFPc, asnIdFPc, asnIdFPc,
    asnIdFPc, asnIdFPc, asnIdFPc, asnIdFPc, asnIdFPc, asnIdFPc, asnIdFPc]

/-- `(v << w) | b` of a `size_t`. -/
def shlOr (w v b : Nat) : Nat := (v <<< w) % 2 ^ 64 ||| b

def sub64 (a b : Nat) : Nat := (a + 2 ^ 64 - b) % 2 ^ 64

/-- `stm --`. -/
def dec64 (stm : Nat) : Nat := (stm + 2 ^ 64 - 1) % 2 ^ 64

/-- What the identifier octets say, and what follows them. -/
structure Ident where
  cls : Byte
  fPs : Byte
  tag : Nat
  hSize : Nat
  cur : List Byte
  deriving DecidableEq, Repr

/-- What the length octets say, and what follows them. -/
structure Len where
  hSize : Nat
  dtSize : Nat
  cur : List Byte
  deriving DecidableEq, Repr

/-- What `asn_parse` reports: `data` is the index of the content. -/
structure Parsed where
  offset : Nat
  hdrSize : Nat
  aclass : Byte
  ps : Byte
  atag : Nat
  data : Nat
  dataSize : Nat
  deriving DecidableEq, Repr

/-- The loop over the octets of a long tag: `tag`, `h_size` and `cur_pos` behind it. -/
def tagLoop (tag hSize : Nat) : List Byte → Except Err (Nat × Nat × List Byte)
  | [] => .error .outside
  | b :: cur =>
    let tag := shlOr 7 tag (b &&& ~~~asnBit8).toNat
    if b &&& asnBit8 ≠ 0 ∧ cur ≠ [] then tagLoop tag (hSize + 1) cur
    else .ok (tag, hSize + 1, cur)

/-- The identifier octets. -/
def asnIdent : List Byte → Except Err Ident
  | [] => .error .outside
  | b :: cur =>
    let tag := b &&& asnIdCuTagMask
    if tag = asnIdCuTagLongForm then
      match tagLoop 0 1 cur with
      | .error e => .error e
      | .ok (tag, hSize, cur) =>
        if cur = [] then .error .ebadmsg
        else .ok ⟨b >>> 6, b &&& asnIdFConstructed, tag, hSize, cur⟩
    else .ok ⟨b >>> 6, b &&& asnIdFConstructed, tag.toNat, 1, cur⟩

/-- The loop that skips zero bytes: `dt_size`, `stm` and `cur_pos` behind it. -/
def skipLoop (dtSize stm : Nat) : List Byte → Nat × Nat × List Byte
  | [] => (dtSize, dec64 stm, [])
  | b :: cur =>
    -- the counter is lowered also where it is zero already
    if stm = 0 then (dtSize, dec64 stm, b :: cur)
    else if b ≠ 0 then (b.toNat, dec64 stm, cur)
    else skipLoop b.toNat (dec64 stm) cur

def lenLoop (dtSize stm : Nat) : List Byte → Nat × List Byte
  | [] => (dtSize, [])
  | b :: cur =>
    if stm = 0 then (dtSize, b :: cur)
    else lenLoop (shlOr 8 dtSize b.toNat) (dec64 stm) cur

/-- The length octets of a header at `off` whose identifier takes `hSize` bytes. -/
def asnLength (bufSize off hSize : Nat) : List Byte → Except Err Len
  | [] => .error .outside
  | b :: cur =>
    let hSize := hSize + 1
    if b &&& asnLenLong = 0 then .ok ⟨hSize, b.toNat, cur⟩
    else
      let stm := (b &&& ~~~asnLenLong).toNat
      -- the indefinite form
      if stm = 0 then .error .edom
      else
        let hSize := hSize + stm
        let (dtSize, stm, cur) := skipLoop b.toNat stm cur
        if 8 < stm then .error .eoverflow
        else
          let (dtSize, cur) := lenLoop dtSize stm cur
          if cur = [] ∨ sub64 bufSize ((off + hSize) % 2 ^ 64) < dtSize then .error .ebadmsg
          else .ok ⟨hSize, dtSize, cur⟩

/-- The flags check. -/
def asnFlags (cls fPs : Byte) (tag : Nat) : Except Err Unit :=
  if cls = asnIdClassUniversal then
    match asnClassUniPs[tag]? with
    | none => .error .outside
    | some ps => if ps ≠ asnIdFPc ∧ fPs ≠ ps then .error .ebadmsg else .ok ()
  else .ok ()

/-- `asn_parse` of a buffer that may be empty, with `offset` or without. -/
def asnParse (buf : List Byte) (offset : Option Nat) : Except Err Parsed :=
  let off := offset.getD 0
  if buf = [] then .error .einval
  else if offset.isSome ∧ buf.length < off then .error .einval
  else if offset.isSome ∧ off = buf.length then .error .espipe
  else if sub64 buf.length off < asnMinOidLen then .error .ebadmsg
  else do
    let id ← asnIdent (buf.drop off)
    let len ← asnLength buf.length off id.hSize id.cur
    asnFlags id.cls id.fPs id.tag
    return {
      offset := (off + len.hSize + len.dtSize) % 2 ^ 64
      hdrSize := len.hSize
      aclass := id.cls
      ps := id.fPs
      atag := id.tag
      data := buf.length - len.cur.length
      dataSize := len.dtSize }

/-- One call of a caller that goes on with the offset it is given back, up to an error. -/
def walkStep (buf : List Byte) (off : Nat) : Option (Next Nat Err) :=
  match asnParse buf (some off) with
  | .error .outside => none
  | .error e => some (.done e)
  | .ok p => some (.again p.offset)

/-!
# What the octets of a header say

The identifier and length octets the parser accepts, each with the value it reads from them.
-/

/-- The number of the digits behind `v`, as a `size_t` keeps it. -/
def fold64 (w v : Nat) (ds : List Nat) : Nat := ds.foldl (fun v d => (v * 2 ^ w + d) % 2 ^ 64) v

def low7 (b : Byte) : Nat := (b &&& ~~~asnBit8).toNat

/-- The octets of a long tag: all but the last have the high bit. -/
inductive TagOctets : List Byte → Prop
  | last {b : Byte} (h : b &&& asnBit8 = 0) : TagOctets [b]
  | more {b : Byte} {ds : List Byte} (h : b &&& asnBit8 ≠ 0) (hds : TagOctets ds) :
      TagOctets (b :: ds)

/-- Whole identifier octets. -/
inductive IdentOctets : List Byte → Prop
  | short {b : Byte} (h : b &&& asnIdCuTagMask ≠ asnIdCuTagLongForm) : IdentOctets [b]
  | long {b : Byte} {ds : List Byte} (h : b &&& asnIdCuTagMask = asnIdCuTagLongForm)
      (hds : TagOctets ds) : IdentOctets (b :: ds)

def idClass (id : List Byte) : Byte := id.headD 0 >>> 6

def idFlag (id : List Byte) : Byte := id.headD 0 &&& asnIdFConstructed

def idTag (id : List Byte) : Nat :=
  if id.headD 0 &&& asnIdCuTagMask = asnIdCuTagLongForm then fold64 7 0 (id.tail.map low7)
  else (id.headD 0 &&& asnIdCuTagMask).toNat

/-- The flags check lets the identifier pass. -/
def FlagsOk (id : List Byte) : Prop :=
  idClass id = asnIdClassUniversal →
    ∃ ps, asnClassUniPs[idTag id]? = some ps ∧ (ps = asnIdFPc ∨ idFlag id = ps)

def lenLow (l : Byte) : Nat := (l &&& ~~~asnLenLong).toNat

/-- Long length octets: zero bytes, the first other byte, and at most eight more. -/
structure LongLength (l : Byte) (zeros : List Byte) (b : Byte) (sig : List Byte) : Prop where
  long : l &&& asnLenLong ≠ 0
  zeros_eq : ∀ z ∈ zeros, z = 0
  head_ne : b ≠ 0
  length_eq : zeros.length + 1 + sig.length = lenLow l
  sig_le : sig.length ≤ 8

/-- The length of long length octets. -/
def sigValue (b : Byte) (sig : List Byte) : Nat := fold64 8 b.toNat (sig.map BitVec.toNat)

variable {cur rest id ds : List Byte} {w v b tag hSize stm dtSize : Nat}

/-! ## Arithmetic -/

theorem shlOr_eq (hw : w ≤ 64) (hb : b < 2 ^ w) : shlOr w v b = (v * 2 ^ w + b) % 2 ^ 64 := by
  have hpow : 2 ^ 64 = 2 ^ w * 2 ^ (64 - w) := by
    rw [← Nat.pow_add, Nat.add_sub_cancel' hw]
  have hhigh : (v * 2 ^ w) % 2 ^ 64 = 2 ^ w * (v % 2 ^ (64 - w)) := by
    rw [hpow, Nat.mul_comm v, Nat.mul_mod_mul_left]
  have hlow : v % 2 ^ (64 - w) < 2 ^ (64 - w) := Nat.mod_lt _ (Nat.pow_pos (by decide))
  have hfit : 2 ^ w * (v % 2 ^ (64 - w)) + b < 2 ^ 64 := by
    calc 2 ^ w * (v % 2 ^ (64 - w)) + b < 2 ^ w * (v % 2 ^ (64 - w)) + 2 ^ w := by omega
      _ = 2 ^ w * (v % 2 ^ (64 - w) + 1) := by rw [Nat.mul_add, Nat.mul_one]
      _ ≤ 2 ^ w * 2 ^ (64 - w) := Nat.mul_le_mul_left _ hlow
      _ = 2 ^ 64 := hpow.symm
  rw [shlOr, Nat.shiftLeft_eq, hhigh, ← Nat.two_pow_add_eq_or_of_lt hb, ← Nat.mod_add_mod, hhigh,
    Nat.mod_eq_of_lt hfit]

theorem low7_lt (b : Byte) : low7 b < 2 ^ 7 := by
  revert b
  decide

theorem dec64_eq (hpos : stm ≠ 0) (hlt : stm < 2 ^ 64) : dec64 stm = stm - 1 := by
  rw [dec64]
  omega

theorem fold64_cons (d : Nat) (ds : List Nat) :
    fold64 w v (d :: ds) = fold64 w ((v * 2 ^ w + d) % 2 ^ 64) ds := rfl

theorem fold64_eq (ds : List Nat) : ∀ v,
    fold64 w (v % 2 ^ 64) ds = ds.foldl (fun v d => v * 2 ^ w + d) v % 2 ^ 64 := by
  induction ds with
  | nil => exact fun v => rfl
  | cons d ds ih =>
    intro v
    rw [fold64_cons, List.foldl_cons, ← ih, Nat.add_mod, Nat.mul_mod, Nat.mod_mod, ← Nat.mul_mod,
      ← Nat.add_mod]

/-! ## The identifier -/

theorem tagLoop_append (h : TagOctets ds) : ∀ tag hSize, tagLoop tag hSize (ds ++ rest) =
    .ok (fold64 7 tag (ds.map low7), hSize + ds.length, rest) := by
  induction h with
  | @last b hb =>
    intro tag hSize
    rw [List.singleton_append, tagLoop]
    rw [if_neg (fun hc => hc.1 hb), ← low7, shlOr_eq (by decide) (low7_lt b)]
    rfl
  | @more b ds hb hds ih =>
    intro tag hSize
    have hne : ds ++ rest ≠ [] := by
      cases hds with
      | last => exact List.cons_ne_nil _ _
      | more => exact List.cons_ne_nil _ _
    rw [List.cons_append, tagLoop]
    rw [if_pos ⟨hb, hne⟩, ih, ← low7, shlOr_eq (by decide) (low7_lt b), List.map_cons,
      fold64_cons, List.length_cons, Nat.add_right_comm, Nat.add_assoc]

theorem tagOctets_or (cur : List Byte) :
    (∃ ds rest, TagOctets ds ∧ cur = ds ++ rest) ∨ ∀ b ∈ cur, b &&& asnBit8 ≠ 0 := by
  induction cur with
  | nil => exact .inr (fun b hb => absurd hb List.not_mem_nil)
  | cons b cur ih =>
    by_cases hb : b &&& asnBit8 = 0
    · exact .inl ⟨[b], cur, .last hb, rfl⟩
    · rcases ih with ⟨ds, rest, hds, heq⟩ | hall
      · exact .inl ⟨b :: ds, rest, .more hb hds, by rw [heq, List.cons_append]⟩
      · exact .inr (List.forall_mem_cons.mpr ⟨hb, hall⟩)

theorem tagLoop_unended : ∀ {cur : List Byte} {tag hSize : Nat}, cur ≠ [] →
    (∀ b ∈ cur, b &&& asnBit8 ≠ 0) → ∃ t h, tagLoop tag hSize cur = .ok (t, h, [])
  | [], _, _, hne, _ => absurd rfl hne
  | b :: cur, tag, hSize, _, hall => by
    rw [tagLoop]
    by_cases hcur : cur = []
    · rw [if_neg (fun hc => hc.2 hcur), hcur]
      exact ⟨_, _, rfl⟩
    · rw [if_pos ⟨hall b List.mem_cons_self, hcur⟩]
      exact tagLoop_unended hcur (fun c hc => hall c (List.mem_cons_of_mem b hc))

theorem asnIdent_short {b : Byte} (hb : b &&& asnIdCuTagMask ≠ asnIdCuTagLongForm) :
    asnIdent (b :: cur) =
      .ok ⟨b >>> 6, b &&& asnIdFConstructed, (b &&& asnIdCuTagMask).toNat, 1, cur⟩ := by
  rw [asnIdent, if_neg hb]

theorem asnIdent_long {b : Byte} (hb : b &&& asnIdCuTagMask = asnIdCuTagLongForm)
    (h : tagLoop 0 1 cur = .ok (tag, hSize, rest)) :
    asnIdent (b :: cur) = if rest = [] then .error .ebadmsg
      else .ok ⟨b >>> 6, b &&& asnIdFConstructed, tag, hSize, rest⟩ := by
  rw [asnIdent, if_pos hb, h]

theorem asnIdent_append (h : IdentOctets id) (hrest : rest ≠ []) :
    asnIdent (id ++ rest) = .ok ⟨idClass id, idFlag id, idTag id, id.length, rest⟩ := by
  cases h with
  | @short b hb =>
    rw [List.singleton_append, asnIdent_short hb, idTag, List.headD_cons, if_neg hb]
    rfl
  | @long b ds hb hds =>
    rw [List.cons_append, asnIdent_long hb (tagLoop_append hds 0 1), if_neg hrest, idTag,
      List.headD_cons, if_pos hb, List.tail_cons, List.length_cons, Nat.add_comm 1]
    rfl

theorem asnIdent_or (hlen : 2 ≤ cur.length) :
    (∃ id rest, IdentOctets id ∧ rest ≠ [] ∧ cur = id ++ rest) ∨
      asnIdent cur = .error .ebadmsg := by
  cases cur with
  | nil => exact absurd hlen (by decide)
  | cons b cur =>
    have hne : cur ≠ [] := by
      intro hnil
      rw [hnil] at hlen
      exact absurd hlen (by decide : ¬ 2 ≤ 1)
    by_cases hb : b &&& asnIdCuTagMask = asnIdCuTagLongForm
    · rcases tagOctets_or cur with ⟨ds, rest, hds, rfl⟩ | hall
      · by_cases hrest : rest = []
        · exact .inr (by rw [asnIdent_long hb (tagLoop_append hds 0 1), if_pos hrest])
        · exact .inl ⟨b :: ds, rest, .long hb hds, hrest, rfl⟩
      · -- no octet of the tag is its last one
        obtain ⟨t, h, hrun⟩ := @tagLoop_unended _ 0 1 hne hall
        exact .inr (by rw [asnIdent_long hb hrun, if_pos rfl])
    · -- a tag below 31 is in the first octet
      exact .inl ⟨[b], cur, .short hb, hne, rfl⟩

/-! ## The length -/

theorem skipLoop_zeros {zeros : List Byte} (hzeros : ∀ z ∈ zeros, z = 0) : ∀ {dtSize stm : Nat},
    zeros.length < stm → stm < 2 ^ 64 → ∀ {b : Byte}, b ≠ 0 → ∀ cur,
      skipLoop dtSize stm (zeros ++ b :: cur) = (b.toNat, stm - zeros.length - 1, cur) := by
  induction zeros with
  | nil =>
    intro dtSize stm hstm hlt b hb cur
    have hpos : stm ≠ 0 := Nat.pos_iff_ne_zero.mp hstm
    rw [List.nil_append, skipLoop, if_neg hpos, if_pos hb, dec64_eq hpos hlt]
    rfl
  | cons z zeros ih =>
    intro dtSize stm hstm hlt b hb cur
    have hpos : stm ≠ 0 := by omega
    have hz : z = 0 := hzeros z List.mem_cons_self
    rw [List.length_cons] at hstm
    rw [List.cons_append, skipLoop, if_neg hpos, if_neg (not_not.mpr hz), dec64_eq hpos hlt,
      ih (fun c hc => hzeros c (List.mem_cons_of_mem z hc)) (by omega) (by omega) hb,
      List.length_cons]
    congr 2
    omega

theorem skipLoop_or : ∀ (cur : List Byte) (dtSize : Nat) {stm : Nat}, stm < 2 ^ 64 →
    (∃ zeros b tail, (∀ z ∈ zeros, z = 0) ∧ b ≠ 0 ∧ zeros.length < stm ∧
        cur = zeros ++ b :: tail) ∨
      (∃ d s, skipLoop dtSize stm cur = (d, s, [])) ∨
      ∃ d c, skipLoop dtSize stm cur = (d, 2 ^ 64 - 1, c)
  | [], _, _, _ => .inr (.inl ⟨_, _, rfl⟩)
  | b :: cur, dtSize, stm, hlt => by
    by_cases hstm : stm = 0
    · refine .inr (.inr ?_)
      rw [skipLoop, if_pos hstm, hstm]
      exact ⟨_, _, rfl⟩
    · by_cases hb : b ≠ 0
      · exact .inl ⟨[], b, cur, fun z hz => absurd hz List.not_mem_nil, hb,
          Nat.pos_iff_ne_zero.mpr hstm, rfl⟩
      · rw [skipLoop, if_neg hstm, if_neg hb, dec64_eq hstm hlt]
        rcases skipLoop_or cur b.toNat (by omega : stm - 1 < 2 ^ 64) with
          ⟨zeros, c, tail, hzeros, hc, hlen, heq⟩ | hrest
        · refine .inl ⟨b :: zeros, c, tail, ?_, hc, ?_, by rw [heq, List.cons_append]⟩
          · exact List.forall_mem_cons.mpr ⟨not_not.mp hb, hzeros⟩
          · rw [List.length_cons]
            omega
        · exact .inr hrest

theorem lenLoop_eq : ∀ (cur : List Byte) {dtSize stm : Nat}, stm < 2 ^ 64 →
    lenLoop dtSize stm cur = (fold64 8 dtSize ((cur.take stm).map BitVec.toNat), cur.drop stm)
  | [], _, _, _ => by
    rw [lenLoop, List.take_nil, List.drop_nil]
    rfl
  | b :: cur, dtSize, stm, hlt => by
    cases stm with
    | zero => rfl
    | succ stm =>
      rw [lenLoop, if_neg (Nat.succ_ne_zero stm), dec64_eq (Nat.succ_ne_zero stm) hlt,
        Nat.succ_sub_one, lenLoop_eq cur (by omega), shlOr_eq (by decide) b.isLt]
      rfl

theorem lenLow_lt (l : Byte) : lenLow l < 128 := by
  revert l
  decide

variable {bufSize off : Nat} {l b : Byte} {zeros sig content : List Byte}

theorem asnLength_short (h : l &&& asnLenLong = 0) :
    asnLength bufSize off hSize (l :: cur) = .ok ⟨hSize + 1, l.toNat, cur⟩ := by
  rw [asnLength, if_pos h]

theorem asnLength_long (h : LongLength l zeros b sig) :
    asnLength bufSize off hSize (l :: (zeros ++ b :: (sig ++ content))) =
      if content = [] ∨
          sub64 bufSize ((off + (hSize + 1 + lenLow l)) % 2 ^ 64) < sigValue b sig then
        .error .ebadmsg
      else .ok ⟨hSize + 1 + lenLow l, sigValue b sig, content⟩ := by
  have hlow := lenLow_lt l
  have hlen := h.length_eq
  have hsig := h.sig_le
  have hskip : skipLoop l.toNat (lenLow l) (zeros ++ b :: (sig ++ content)) =
      (b.toNat, sig.length, sig ++ content) := by
    rw [skipLoop_zeros h.zeros_eq (by omega) (by omega) h.head_ne]
    congr 2
    omega
  have hloop : lenLoop b.toNat sig.length (sig ++ content) = (sigValue b sig, content) := by
    rw [lenLoop_eq _ (by omega), List.take_left, List.drop_left]
    rfl
  rw [asnLength, if_neg h.long, ← lenLow, if_neg (by omega : ¬ lenLow l = 0), hskip]
  dsimp only
  rw [if_neg (by omega : ¬ 8 < sig.length), hloop]

/-- Length octets that are not long ones are refused where they are not short. -/
theorem asnLength_or (l : Byte) (cur : List Byte) : l &&& asnLenLong = 0 ∨
    (∃ zeros b sig content, LongLength l zeros b sig ∧ cur = zeros ++ b :: (sig ++ content)) ∨
    ∃ e, asnLength bufSize off hSize (l :: cur) = .error e ∧ e ≠ .outside := by
  by_cases hshort : l &&& asnLenLong = 0
  · exact .inl hshort
  refine .inr ?_
  have hlow := lenLow_lt l
  rw [asnLength, if_neg hshort, ← lenLow]
  by_cases hstm : lenLow l = 0
  · rw [if_pos hstm]
    exact .inr ⟨_, rfl, by decide⟩
  rw [if_neg hstm]
  rcases skipLoop_or cur l.toNat (by omega : lenLow l < 2 ^ 64) with
    ⟨zeros, b, tail, hzeros, hb, hlen, rfl⟩ | ⟨d, s, hskip⟩ | ⟨d, c, hskip⟩
  · rw [skipLoop_zeros hzeros hlen (by omega) hb]
    dsimp only
    by_cases hbig : 8 < lenLow l - zeros.length - 1
    · rw [if_pos hbig]
      exact .inr ⟨_, rfl, by decide⟩
    · rw [if_neg hbig, lenLoop_eq _ (by omega)]
      dsimp only
      by_cases htail : tail.length ≤ lenLow l - zeros.length - 1
      · -- the buffer ends inside the length, or right behind it
        rw [if_pos (.inl (List.drop_eq_nil_of_le htail))]
        exact .inr ⟨_, rfl, by decide⟩
      · -- the octets the first one counts are all there
        refine .inl ⟨zeros, b, tail.take (lenLow l - zeros.length - 1), tail.drop _, ?_,
          by rw [List.take_append_drop]⟩
        have htake : (tail.take (lenLow l - zeros.length - 1)).length =
            lenLow l - zeros.length - 1 := by
          rw [List.length_take]
          omega
        exact ⟨hshort, hzeros, hb, by omega, by omega⟩
  · -- the buffer ends among the zero bytes, so the length has no content behind it
    rw [hskip]
    dsimp only
    by_cases hbig : 8 < s
    · rw [if_pos hbig]
      exact .inr ⟨_, rfl, by decide⟩
    · rw [if_neg hbig, lenLoop_eq _ (by omega), List.drop_nil]
      dsimp only
      rw [if_pos (.inl rfl)]
      exact .inr ⟨_, rfl, by decide⟩
  · -- nothing but zero bytes: the counter stands at its largest value
    rw [hskip]
    dsimp only
    rw [if_pos (by decide)]
    exact .inr ⟨_, rfl, by decide⟩

/-! ## The call -/

variable {buf tail : List Byte} {offset : Option Nat}

theorem asnFlags_ok (h : FlagsOk id) : asnFlags (idClass id) (idFlag id) (idTag id) = .ok () := by
  rw [asnFlags]
  by_cases hcls : idClass id = asnIdClassUniversal
  · obtain ⟨ps, hps, hor⟩ := h hcls
    rw [if_pos hcls, hps]
    dsimp only
    rw [if_neg]
    rintro ⟨hpc, hflag⟩
    exact hor.elim hpc hflag
  · rw [if_neg hcls]

theorem sub64_content {n m : Nat} (hsize : n + m = bufSize) (hbuf : bufSize < 2 ^ 64) :
    sub64 bufSize (n % 2 ^ 64) = m := by
  rw [sub64]
  omega

/-- What the call reports of a header at `off`. -/
def parsed (buf : List Byte) (off : Nat) (id : List Byte) (len : Len) : Parsed where
  offset := (off + len.hSize + len.dtSize) % 2 ^ 64
  hdrSize := len.hSize
  aclass := idClass id
  ps := idFlag id
  atag := idTag id
  data := buf.length - len.cur.length
  dataSize := len.dtSize

theorem IdentOctets.ne_nil (h : IdentOctets id) : id ≠ [] := by
  cases h with
  | short => exact List.cons_ne_nil _ _
  | long => exact List.cons_ne_nil _ _

theorem length_split (hid : IdentOctets id) (heq : buf.drop off = id ++ l :: tail) :
    off + (id.length + 1) + tail.length = buf.length ∧ 1 ≤ id.length := by
  have hpos : 0 < id.length := List.length_pos_iff.mpr hid.ne_nil
  have hlen := congrArg List.length heq
  rw [List.length_drop, List.length_append, List.length_cons] at hlen
  omega

theorem asnParse_start (hbuf : buf.length < 2 ^ 64) (hoff : offset.getD 0 + 2 ≤ buf.length) :
    asnParse buf offset = (asnIdent (buf.drop (offset.getD 0))).bind fun id =>
      (asnLength buf.length (offset.getD 0) id.hSize id.cur).bind fun len =>
        (asnFlags id.cls id.fPs id.tag).bind fun _ => .ok {
          offset := (offset.getD 0 + len.hSize + len.dtSize) % 2 ^ 64
          hdrSize := len.hSize
          aclass := id.cls
          ps := id.fPs
          atag := id.tag
          data := buf.length - len.cur.length
          dataSize := len.dtSize } := by
  have hne : buf ≠ [] := by
    rintro rfl
    exact absurd hoff (by rw [List.length_nil]; omega)
  have hsub : sub64 buf.length (offset.getD 0) = buf.length - offset.getD 0 := by
    rw [sub64]
    omega
  rw [asnParse]
  rw [if_neg hne, if_neg (fun h => by omega), if_neg (fun h => by omega), hsub,
    if_neg (by rw [asnMinOidLen]; omega)]
  rfl

theorem asnParse_split (hbuf : buf.length < 2 ^ 64) (hid : IdentOctets id)
    (heq : buf.drop (offset.getD 0) = id ++ l :: tail) :
    asnParse buf offset =
      (asnLength buf.length (offset.getD 0) id.length (l :: tail)).bind fun len =>
      (asnFlags (idClass id) (idFlag id) (idTag id)).bind fun _ =>
        .ok (parsed buf (offset.getD 0) id len) := by
  have hlen := length_split hid heq
  rw [asnParse_start hbuf (by omega), heq, asnIdent_append hid (List.cons_ne_nil _ _)]
  rfl

end Asn1
