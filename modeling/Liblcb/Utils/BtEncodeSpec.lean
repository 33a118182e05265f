import Liblcb.Utils.BtEncode
import Mathlib.Tactic.IntervalCases

/-!
# Which encodings are decoded

Bencode values, their canonical encoding, and what a node tree denotes.  The decoder finds every
value that has no empty container, except a string that ends with the buffer.
-/

namespace BtEncode

open Mem

mutual

/-- A bencode value. -/
inductive Value where
  | str (s : List Byte)
  | int (i : BitVec 64)
  | list (l : Values)
  | dict (d : Entries)

inductive Values where
  | nil
  | cons (v : Value) (l : Values)

inductive Entries where
  | nil
  | cons (key : List Byte) (v : Value) (d : Entries)

end

/-! ## Decimal numbers -/

/-- The decimal digits of `n`. -/
def decimal (n : Nat) : List Byte :=
  if n < 10 then [BitVec.ofNat 8 (48 + n)]
  else decimal (n / 10) ++ [BitVec.ofNat 8 (48 + n % 10)]
termination_by n

/-- A byte between `0` and `9`. -/
def IsDigit (b : Byte) : Prop := chr '0' ≤ b ∧ b ≤ chr '9'

theorem isDigit_ofNat : ∀ n : Nat, n < 10 → IsDigit (BitVec.ofNat 8 (48 + n)) := by
  intro n hn
  interval_cases n <;> exact ⟨by decide, by decide⟩

theorem isDigit_of_mem_decimal (n : Nat) : ∀ b ∈ decimal n, IsDigit b := by
  induction n using Nat.strong_induction_on with
  | _ n ih =>
    intro b hb
    rw [decimal] at hb
    split at hb
    case isTrue h =>
      rw [List.mem_singleton] at hb
      rw [hb]
      exact isDigit_ofNat n h
    case isFalse h =>
      rw [List.mem_append, List.mem_singleton] at hb
      rcases hb with hb | hb
      · exact ih (n / 10) (by omega) b hb
      · rw [hb]
        exact isDigit_ofNat _ (Nat.mod_lt _ (by decide))

theorem decimal_ne_nil (n : Nat) : decimal n ≠ [] := by
  rw [decimal]
  split
  · exact List.cons_ne_nil _ _
  · simp

theorem str2numStep_digit (res : BitVec 64) {n : Nat} (hn : n < 10) :
    str2numStep res (BitVec.ofNat 8 (48 + n)) = res * 10#64 + BitVec.ofNat 64 n := by
  have hdigit : BitVec.ofNat 8 (48 + n) - 0x30#8 = BitVec.ofNat 8 n := by
    interval_cases n <;> decide
  rw [str2numStep, hdigit, if_neg]
  · congr 1
    interval_cases n <;> decide
  · interval_cases n <;> decide

theorem foldl_decimal (n : Nat) : (decimal n).foldl str2numStep 0 = BitVec.ofNat 64 n := by
  induction n using Nat.strong_induction_on with
  | _ n ih =>
    rw [decimal]
    split
    case isTrue h =>
      rw [List.foldl_cons, List.foldl_nil, str2numStep_digit 0 h]
      simp
    case isFalse h =>
      rw [List.foldl_append, ih (n / 10) (by omega), List.foldl_cons, List.foldl_nil,
        str2numStep_digit _ (Nat.mod_lt _ (by decide))]
      apply BitVec.eq_of_toNat_eq
      simp only [BitVec.toNat_add, BitVec.toNat_mul, BitVec.toNat_ofNat]
      omega

theorem ustr2usize_decimal (n : Nat) : ustr2usize (decimal n) = BitVec.ofNat 64 n :=
  foldl_decimal n

/-- The decimal text of a signed number. -/
def decimalInt (i : Int) : List Byte :=
  if i < 0 then chr '-' :: decimal i.natAbs else decimal i.natAbs

theorem IsDigit.ne_chr {b : Byte} (h : IsDigit b) :
    b ≠ chr '-' ∧ b ≠ chr '+' ∧ b ≠ chr ':' ∧ b ≠ chr 'e' := by
  rcases h with ⟨h1, h2⟩
  refine ⟨?_, ?_, ?_, ?_⟩ <;> rintro rfl <;> revert h1 h2 <;> decide

theorem ustr2s64_decimalInt (i : BitVec 64) : ustr2s64 (decimalInt i.toInt) = i := by
  have hdigits := isDigit_of_mem_decimal i.toInt.natAbs
  have hhead : str2numSign false (decimal i.toInt.natAbs) = false ∧
      str2numSign true (decimal i.toInt.natAbs) = true := by
    match hd : decimal i.toInt.natAbs, decimal_ne_nil i.toInt.natAbs with
    | b :: rest, _ =>
      have hb := (hdigits b (by rw [hd]; exact List.mem_cons_self)).ne_chr
      simp [str2numSign, hb.1, hb.2.1]
  have hround : BitVec.ofInt 64 i.toInt = i := BitVec.ofInt_toInt
  unfold decimalInt
  split
  case isTrue h =>
    have hskip : ustr2usize (chr '-' :: decimal i.toInt.natAbs) =
        ustr2usize (decimal i.toInt.natAbs) := by
      rw [ustr2usize, List.foldl_cons]
      rfl
    rw [ustr2s64, hskip, ustr2usize_decimal, str2numSign, if_pos rfl, hhead.2, if_pos rfl]
    conv_rhs => rw [← hround, show i.toInt = -(i.toInt.natAbs : Int) by omega]
    rw [BitVec.ofInt_neg, BitVec.ofInt_natCast]
  case isFalse h =>
    rw [ustr2s64, hhead.1, ustr2usize_decimal]
    conv_rhs => rw [← hround, show i.toInt = (i.toInt.natAbs : Int) by omega]
    rw [BitVec.ofInt_natCast]
    rfl

theorem not_mem_decimalInt (i : Int) : chr 'e' ∉ decimalInt i := by
  have hdigits := isDigit_of_mem_decimal i.natAbs
  unfold decimalInt
  split
  · intro h
    rw [List.mem_cons] at h
    rcases h with h | h
    · exact absurd h (by decide)
    · exact (hdigits _ h).ne_chr.2.2.2 rfl
  · intro h
    exact (hdigits _ h).ne_chr.2.2.2 rfl

/-! ## Encoding -/

def encodeStr (s : List Byte) : List Byte := decimal s.length ++ chr ':' :: s

mutual

/-- The canonical encoding of a value. -/
def Value.encode : Value → List Byte
  | .str s => encodeStr s
  | .int i => chr 'i' :: (decimalInt i.toInt ++ [chr 'e'])
  | .list l => chr 'l' :: (l.encode ++ [chr 'e'])
  | .dict d => chr 'd' :: (d.encode ++ [chr 'e'])

def Values.encode : Values → List Byte
  | .nil => []
  | .cons v l => v.encode ++ l.encode

def Entries.encode : Entries → List Byte
  | .nil => []
  | .cons key v d => encodeStr key ++ (v.encode ++ d.encode)

end

mutual

/-- No list and no dictionary in the value is empty. -/
def Value.NoEmpty : Value → Prop
  | .str _ => True
  | .int _ => True
  | .list l => l ≠ .nil ∧ l.NoEmpty
  | .dict d => d ≠ .nil ∧ d.NoEmpty

def Values.NoEmpty : Values → Prop
  | .nil => True
  | .cons v l => v.NoEmpty ∧ l.NoEmpty

def Entries.NoEmpty : Entries → Prop
  | .nil => True
  | .cons _ v d => v.NoEmpty ∧ d.NoEmpty

end

def Value.IsStr : Value → Prop
  | .str _ => True
  | _ => False

/-! ## What a node denotes -/

/-- The bytes of a string node. -/
def Node.bytes (buf : List Byte) : Node → List Byte
  | .str raw rawSize => (buf.drop raw).take rawSize
  | _ => []

mutual

/-- The value of a node tree over the buffer it points into. -/
def Node.value (buf : List Byte) : Node → Value
  | .str raw rawSize => .str ((buf.drop raw).take rawSize)
  | .num _ _ i => .int i
  | .list _ _ l => .list (l.value buf)
  | .dict _ _ d => .dict (d.value buf)

def Nodes.value (buf : List Byte) : Nodes → Values
  | .nil => .nil
  | .cons node l => .cons (node.value buf) (l.value buf)

def Pairs.value (buf : List Byte) : Pairs → Entries
  | .nil => .nil
  | .cons key val d => .cons (key.bytes buf) (val.value buf) (d.value buf)

end

mutual

/-- The keys of every dictionary in the tree are strings. -/
def Node.KeysStr : Node → Prop
  | .str _ _ => True
  | .num _ _ _ => True
  | .list _ _ l => l.KeysStr
  | .dict _ _ d => d.KeysStr

def Nodes.KeysStr : Nodes → Prop
  | .nil => True
  | .cons node l => node.KeysStr ∧ l.KeysStr

def Pairs.KeysStr : Pairs → Prop
  | .nil => True
  | .cons key val d => key.isStr = true ∧ val.KeysStr ∧ d.KeysStr

end

/-! ## Strings and integers -/

variable {addr : Nat} {buf pre post : List Byte} {pos fuel : Nat}

theorem getElem?_at {b : Byte} (hbuf : buf = pre ++ b :: post) (hpos : pos = pre.length) :
    buf[pos]? = some b := by
  rw [hbuf, hpos, List.getElem?_append_right (Nat.le_refl _), Nat.sub_self,
    List.getElem?_cons_zero]

theorem drop_at {text : List Byte} (hbuf : buf = pre ++ (text ++ post)) (hpos : pos = pre.length) :
    (buf.drop pos).take text.length = text := by
  rw [hbuf, hpos, List.drop_left, List.take_left]

theorem decodeStr_eq {s : List Byte} (hbuf : buf = pre ++ (encodeStr s ++ post))
    (hpos : pos = pre.length) (hfit : addr + buf.length < 2 ^ 64) :
    decodeStr addr buf pos =
      if post = [] then .error .ebadmsg
      else .ok (.str (pos + (decimal s.length).length + 1) s.length, (encodeStr s).length) := by
  have hlen : buf.length = pos + (decimal s.length).length + 1 + s.length + post.length := by
    rw [hbuf, hpos, encodeStr]
    simp only [List.length_append, List.length_cons]
    omega
  have hsize : (encodeStr s).length = (decimal s.length).length + 1 + s.length := by
    rw [encodeStr, List.length_append, List.length_cons]
    omega
  have hcolon : memChrOff (pos + 1) buf (chr ':') =
      some (pos + (decimal s.length).length) := by
    match hd : decimal s.length, decimal_ne_nil s.length with
    | b :: digits, _ =>
      have hmem : chr ':' ∉ digits := by
        intro h
        have := isDigit_of_mem_decimal s.length (chr ':') (by rw [hd]; exact .tail _ h)
        exact this.ne_chr.2.2.1 rfl
      rw [hbuf, encodeStr, hd, show pre ++ ((b :: digits ++ chr ':' :: s) ++ post) =
        (pre ++ [b]) ++ (digits ++ chr ':' :: (s ++ post)) by simp,
        memChrOff_append (by rw [hpos]; simp) hmem, List.length_cons]
      congr 1
      omega
  have hnum : ustr2usize ((buf.drop pos).take (decimal s.length).length) =
      BitVec.ofNat 64 s.length := by
    have hdigits : buf = pre ++ (decimal s.length ++ chr ':' :: (s ++ post)) := by
      rw [hbuf, encodeStr]
      simp
    rw [drop_at hdigits hpos, ustr2usize_decimal]
  have hmod : (BitVec.ofNat 64 s.length).toNat = s.length := by
    rw [BitVec.toNat_ofNat]
    exact Nat.mod_eq_of_lt (by omega)
  rw [decodeStr, hcolon]
  simp only [Nat.add_sub_cancel_left, hnum, hmod]
  rw [if_neg (by omega)]
  by_cases hpost : post = []
  · have h0 : post.length = 0 := by rw [hpost, List.length_nil]
    rw [if_pos (by omega), if_pos hpost]
  · have h0 : post.length ≠ 0 := fun h => hpost (List.length_eq_zero_iff.mp h)
    rw [if_neg (by omega), if_neg hpost, hsize]
    congr 2
    omega

theorem bytes_at {s : List Byte} (hbuf : buf = pre ++ (encodeStr s ++ post))
    (hpos : pos = pre.length) :
    (buf.drop (pos + (decimal s.length).length + 1)).take s.length = s := by
  have hbytes : buf = (pre ++ decimal s.length ++ [chr ':']) ++ (s ++ post) := by
    rw [hbuf, encodeStr]
    simp
  apply drop_at hbytes
  rw [hpos]
  simp only [List.length_append, List.length_singleton]

theorem decode_str {s : List Byte} (hbuf : buf = pre ++ (encodeStr s ++ post))
    (hpos : pos = pre.length) : decode addr buf (fuel + 1) pos = decodeStr addr buf pos := by
  match hd : decimal s.length, decimal_ne_nil s.length with
  | b :: digits, _ =>
    have hb : IsDigit b := isDigit_of_mem_decimal s.length b (by rw [hd]; exact .head _)
    have hhead : buf = pre ++ b :: (digits ++ chr ':' :: s ++ post) := by
      rw [hbuf, encodeStr, hd]
      simp
    rw [decode, getElem?_at hhead hpos]
    exact if_pos hb

theorem decode_int {i : BitVec 64} (hbuf : buf = pre ++ ((Value.int i).encode ++ post))
    (hpos : pos = pre.length) :
    ∃ node, decode addr buf (fuel + 1) pos = .ok (node, (Value.int i).encode.length) ∧
      node.value buf = .int i := by
  have hhead : buf = pre ++ chr 'i' :: (decimalInt i.toInt ++ [chr 'e'] ++ post) := by
    rw [hbuf, Value.encode]
    simp
  have hend : memChrOff (pos + 1) buf (chr 'e') =
      some (pos + 1 + (decimalInt i.toInt).length) := by
    rw [hbuf, Value.encode, show pre ++ (chr 'i' :: (decimalInt i.toInt ++ [chr 'e']) ++ post) =
      (pre ++ [chr 'i']) ++ (decimalInt i.toInt ++ chr 'e' :: post) by simp]
    exact memChrOff_append (by rw [hpos]; simp) (not_mem_decimalInt _)
  have htext : (buf.drop (pos + 1)).take (decimalInt i.toInt).length = decimalInt i.toInt := by
    have hdigits : buf = (pre ++ [chr 'i']) ++ (decimalInt i.toInt ++ chr 'e' :: post) := by
      rw [hbuf, Value.encode]
      simp
    apply drop_at hdigits
    rw [hpos, List.length_append, List.length_singleton]
  refine ⟨.num (pos + 1) (decimalInt i.toInt).length i, ?_, rfl⟩
  rw [decode, getElem?_at hhead hpos]
  simp only [if_true]
  rw [if_neg (by decide), decodeNum, hend]
  simp only [Nat.add_sub_cancel_left, htext, ustr2s64_decimalInt]
  congr 2
  rw [Value.encode]
  simp only [List.length_cons, List.length_append, List.length_nil]
  omega

/-! ## Containers -/

theorem encodeStr_cons (s : List Byte) : ∃ b rest, encodeStr s = b :: rest ∧ b ≠ chr 'e' := by
  match hd : decimal s.length, decimal_ne_nil s.length with
  | b :: digits, _ =>
    have hb := isDigit_of_mem_decimal s.length b (by rw [hd]; exact .head _)
    exact ⟨b, digits ++ chr ':' :: s, by rw [encodeStr, hd]; rfl, hb.ne_chr.2.2.2⟩

theorem Value.encode_cons (v : Value) : ∃ b rest, v.encode = b :: rest ∧ b ≠ chr 'e' := by
  match v with
  | .str s => exact encodeStr_cons s
  | .int i => exact ⟨_, _, rfl, by decide⟩
  | .list l => exact ⟨_, _, rfl, by decide⟩
  | .dict d => exact ⟨_, _, rfl, by decide⟩

theorem Value.encode_pos (v : Value) : 0 < v.encode.length := by
  rcases v.encode_cons with ⟨b, rest, h, -⟩
  rw [h, List.length_cons]
  omega

theorem encodeStr_pos (s : List Byte) : 0 < (encodeStr s).length := by
  rcases encodeStr_cons s with ⟨b, rest, h, -⟩
  rw [h, List.length_cons]
  omega

theorem atEnd_at {b : Byte} (hbuf : buf = pre ++ b :: post) (hpos : pos = pre.length) :
    atEnd buf pos = .ok (decide (b = chr 'e')) := by
  rw [atEnd, if_neg, getElem?_at hbuf hpos]
  rw [hbuf, hpos, List.length_append]
  omega

/-- What `decode` makes of the encoding of `v`. -/
def Value.Decodes (v : Value) : Prop :=
  ∀ (addr : Nat) (buf pre post : List Byte) (pos fuel : Nat), buf = pre ++ (v.encode ++ post) →
    pos = pre.length → addr + buf.length < 2 ^ 64 → 2 * v.encode.length + 1 ≤ fuel →
    (v.IsStr → post ≠ []) →
    (v.NoEmpty → ∃ node, decode addr buf fuel pos = .ok (node, v.encode.length) ∧
      node.value buf = v) ∧
    (¬v.NoEmpty → decode addr buf fuel pos = .error .ebadmsg)

/-- What `decodeItems` makes of the encoding of the elements of a list. -/
def Values.Decodes (l : Values) : Prop :=
  ∀ (addr : Nat) (buf pre post : List Byte) (pos fuel : Nat),
    buf = pre ++ (l.encode ++ chr 'e' :: post) →
    pos = pre.length → addr + buf.length < 2 ^ 64 → 2 * l.encode.length + 2 ≤ fuel →
    (l ≠ .nil ∧ l.NoEmpty → ∃ nodes, decodeItems addr buf fuel pos =
      .ok (nodes, pos + l.encode.length) ∧ nodes.value buf = l) ∧
    (¬(l ≠ .nil ∧ l.NoEmpty) → decodeItems addr buf fuel pos = .error .ebadmsg)

def Entries.Decodes (d : Entries) : Prop :=
  ∀ (addr : Nat) (buf pre post : List Byte) (pos fuel : Nat),
    buf = pre ++ (d.encode ++ chr 'e' :: post) →
    pos = pre.length → addr + buf.length < 2 ^ 64 → 2 * d.encode.length + 2 ≤ fuel →
    (d ≠ .nil ∧ d.NoEmpty → ∃ pairs, decodePairs addr buf fuel pos =
      .ok (pairs, pos + d.encode.length) ∧ pairs.value buf = d) ∧
    (¬(d ≠ .nil ∧ d.NoEmpty) → decodePairs addr buf fuel pos = .error .ebadmsg)

theorem decode_endMarker (hbuf : buf = pre ++ chr 'e' :: post) (hpos : pos = pre.length) :
    decode addr buf (fuel + 1) pos = .error .ebadmsg := by
  rw [decode, getElem?_at hbuf hpos]
  simp only []
  rw [if_neg (by decide), if_neg (by decide), if_neg (by decide), if_neg (by decide)]

theorem decode_list (hbuf : buf = pre ++ chr 'l' :: post) (hpos : pos = pre.length) :
    decode addr buf (fuel + 1) pos = (do
      let (l, curPos) ← decodeItems addr buf fuel (pos + 1)
      pure (.list (pos + 1) (containerRawSize pos curPos) l, curPos - pos + 1)) := by
  rw [decode, getElem?_at hbuf hpos]
  simp only [if_true]
  rw [if_neg (by decide), if_neg (by decide)]

theorem decode_dict (hbuf : buf = pre ++ chr 'd' :: post) (hpos : pos = pre.length) :
    decode addr buf (fuel + 1) pos = (do
      let (d, curPos) ← decodePairs addr buf fuel (pos + 1)
      pure (.dict (pos + 1) (containerRawSize pos curPos) d, curPos - pos + 1)) := by
  rw [decode, getElem?_at hbuf hpos]
  simp only [if_true]
  rw [if_neg (by decide), if_neg (by decide), if_neg (by decide)]

theorem str_decodes (s : List Byte) : (Value.str s).Decodes := by
  intro addr buf pre post pos fuel hbuf hpos hfit hfuel hpost
  have henc : (Value.str s).encode = encodeStr s := rfl
  rw [henc] at hbuf hfuel ⊢
  match fuel, hfuel with
  | fuel + 1, _ =>
    refine ⟨fun _ => ⟨.str (pos + (decimal s.length).length + 1) s.length, ?_, ?_⟩,
      fun h => absurd trivial h⟩
    · rw [decode_str hbuf hpos, decodeStr_eq hbuf hpos hfit, if_neg (hpost trivial)]
    · rw [Node.value, bytes_at hbuf hpos]

theorem int_decodes (i : BitVec 64) : (Value.int i).Decodes := by
  intro addr buf pre post pos fuel hbuf hpos _ hfuel _
  match fuel, hfuel with
  | fuel + 1, _ => exact ⟨fun _ => decode_int hbuf hpos, fun h => absurd trivial h⟩

theorem list_decodes {l : Values} (hl : l.Decodes) : (Value.list l).Decodes := by
  intro addr buf pre post pos fuel hbuf hpos hfit hfuel _
  have henc : (Value.list l).encode = chr 'l' :: (l.encode ++ [chr 'e']) := rfl
  have hlen : (Value.list l).encode.length = l.encode.length + 2 := by
    rw [henc, List.length_cons, List.length_append, List.length_singleton]
  have hhead : buf = pre ++ chr 'l' :: (l.encode ++ chr 'e' :: post) := by
    rw [hbuf, henc]
    simp
  have hitems : buf = (pre ++ [chr 'l']) ++ (l.encode ++ chr 'e' :: post) := by
    rw [hhead]
    simp
  match fuel, hfuel with
  | fuel + 1, hfuel =>
    rw [decode_list hhead hpos]
    have h := hl addr buf (pre ++ [chr 'l']) post (pos + 1) fuel hitems
      (by rw [hpos, List.length_append, List.length_singleton]) hfit (by omega)
    constructor
    · intro hne
      rcases h.1 hne with ⟨nodes, hrun, hval⟩
      refine ⟨.list (pos + 1) (containerRawSize pos (pos + 1 + l.encode.length)) nodes, ?_, ?_⟩
      · rw [hrun, hlen]
        show Except.ok (_, pos + 1 + l.encode.length - pos + 1) = _
        congr 2
        omega
      · rw [Node.value, hval]
    · intro hne
      rw [h.2 hne]
      rfl

theorem dict_decodes {d : Entries} (hd : d.Decodes) : (Value.dict d).Decodes := by
  intro addr buf pre post pos fuel hbuf hpos hfit hfuel _
  have henc : (Value.dict d).encode = chr 'd' :: (d.encode ++ [chr 'e']) := rfl
  have hlen : (Value.dict d).encode.length = d.encode.length + 2 := by
    rw [henc, List.length_cons, List.length_append, List.length_singleton]
  have hhead : buf = pre ++ chr 'd' :: (d.encode ++ chr 'e' :: post) := by
    rw [hbuf, henc]
    simp
  have hitems : buf = (pre ++ [chr 'd']) ++ (d.encode ++ chr 'e' :: post) := by
    rw [hhead]
    simp
  match fuel, hfuel with
  | fuel + 1, hfuel =>
    rw [decode_dict hhead hpos]
    have h := hd addr buf (pre ++ [chr 'd']) post (pos + 1) fuel hitems
      (by rw [hpos, List.length_append, List.length_singleton]) hfit (by omega)
    constructor
    · intro hne
      rcases h.1 hne with ⟨pairs, hrun, hval⟩
      refine ⟨.dict (pos + 1) (containerRawSize pos (pos + 1 + d.encode.length)) pairs, ?_, ?_⟩
      · rw [hrun, hlen]
        show Except.ok (_, pos + 1 + d.encode.length - pos + 1) = _
        congr 2
        omega
      · rw [Node.value, hval]
    · intro hne
      rw [h.2 hne]
      rfl

theorem atEnd_next {b : Byte} {rest text : List Byte} (hbuf : buf = pre ++ (text ++ post))
    (hpos : pos = pre.length) (htext : text = b :: rest) :
    atEnd buf pos = .ok (decide (b = chr 'e')) := by
  have hthere : buf = pre ++ b :: (rest ++ post) := by
    rw [hbuf, htext]
    rfl
  exact atEnd_at hthere hpos

theorem decodeItems_step {node : Node} {off : Nat} {last : Bool}
    (hrun : decode addr buf fuel pos = .ok (node, off)) (hend : atEnd buf (pos + off) = .ok last) :
    decodeItems addr buf (fuel + 1) pos =
      if last then .ok (.cons node .nil, pos + off)
      else (do
        let (l, curPos) ← decodeItems addr buf fuel (pos + off)
        pure (.cons node l, curPos)) := by
  rw [decodeItems, hrun]
  show (do if ← atEnd buf (pos + off) then _ else _) = _
  rw [hend]
  cases last <;> rfl

theorem decodePairs_step {key val : Node} {off voff : Nat} {last : Bool}
    (hkey : decode addr buf fuel pos = .ok (key, off)) (hstr : key.isStr = true)
    (hval : decode addr buf fuel (pos + off) = .ok (val, voff))
    (hend : atEnd buf (pos + off + voff) = .ok last) :
    decodePairs addr buf (fuel + 1) pos =
      if last then .ok (.cons key val .nil, pos + off + voff)
      else (do
        let (d, curPos) ← decodePairs addr buf fuel (pos + off + voff)
        pure (.cons key val d, curPos)) := by
  rw [decodePairs, hkey]
  show (if key.isStr = true then _ else _) = _
  rw [if_pos hstr, hval]
  show (do if ← atEnd buf (pos + off + voff) then _ else _) = _
  rw [hend]
  cases last <;> rfl

theorem values_nil_decodes : Values.nil.Decodes := by
  intro addr buf pre post pos fuel hbuf hpos _ hfuel
  refine ⟨fun h => absurd rfl h.1, fun _ => ?_⟩
  match fuel, hfuel with
  | fuel + 2, _ =>
    rw [decodeItems, decode_endMarker hbuf hpos]
    rfl

theorem values_cons_decodes {v : Value} {l : Values} (hv : v.Decodes) (hl : l.Decodes) :
    (Values.cons v l).Decodes := by
  intro addr buf pre post pos fuel hbuf hpos hfit hfuel
  have hlen : (Values.cons v l).encode.length = v.encode.length + l.encode.length := by
    rw [Values.encode, List.length_append]
  have hvpos := v.encode_pos
  have hfirst : buf = pre ++ (v.encode ++ (l.encode ++ chr 'e' :: post)) := by
    rw [hbuf, Values.encode, List.append_assoc]
  have hrest : buf = (pre ++ v.encode) ++ (l.encode ++ chr 'e' :: post) := by
    rw [hfirst, List.append_assoc]
  have hnext : pos + v.encode.length = (pre ++ v.encode).length := by
    rw [hpos, List.length_append]
  match fuel, hfuel with
  | fuel + 1, hfuel =>
    have hdec := hv addr buf pre _ pos fuel hfirst hpos hfit (by omega) (fun _ => by simp)
    have hmore := hl addr buf (pre ++ v.encode) post (pos + v.encode.length) fuel hrest hnext hfit
      (by omega)
    by_cases hvne : v.NoEmpty
    · rcases hdec.1 hvne with ⟨node, hrun, hval⟩
      -- the last value has the end marker behind it, any other one the first byte of the next
      match l, hmore, hrest, hlen with
      | .nil, _, hrest, hlen =>
        refine ⟨fun _ => ⟨.cons node .nil, ?_, ?_⟩, fun h => absurd ⟨nofun, hvne, trivial⟩ h⟩
        · rw [decodeItems_step hrun (atEnd_at hrest hnext), hlen]
          rfl
        · rw [Nodes.value, Nodes.value, hval]
      | .cons w l', hmore, hrest, hlen =>
        rcases w.encode_cons with ⟨b, rest, hw, hb⟩
        have hnot : atEnd buf (pos + v.encode.length) = .ok false := by
          have htext : (Values.cons w l').encode = b :: (rest ++ l'.encode) := by
            rw [Values.encode, hw]
            rfl
          rw [atEnd_next hrest hnext htext, decide_eq_false hb]
        rw [decodeItems_step hrun hnot, if_neg Bool.false_ne_true]
        constructor
        · rintro ⟨-, -, hlne⟩
          rcases hmore.1 ⟨nofun, hlne⟩ with ⟨nodes, hrun', hval'⟩
          refine ⟨.cons node nodes, ?_, ?_⟩
          · rw [hrun', hlen, ← Nat.add_assoc]
            rfl
          · rw [Nodes.value, hval, hval']
        · intro h
          rw [hmore.2 (fun hc => h ⟨nofun, hvne, hc.2⟩)]
          rfl
    -- a value that is refused refuses the list
    · refine ⟨fun h => absurd h.2.1 hvne, fun _ => ?_⟩
      rw [decodeItems, hdec.2 hvne]
      rfl

theorem entries_nil_decodes : Entries.nil.Decodes := by
  intro addr buf pre post pos fuel hbuf hpos _ hfuel
  refine ⟨fun h => absurd rfl h.1, fun _ => ?_⟩
  match fuel, hfuel with
  | fuel + 2, _ =>
    rw [decodePairs, decode_endMarker hbuf hpos]
    rfl

theorem entries_cons_decodes {key : List Byte} {v : Value} {d : Entries} (hv : v.Decodes)
    (hd : d.Decodes) : (Entries.cons key v d).Decodes := by
  intro addr buf pre post pos fuel hbuf hpos hfit hfuel
  have hlen : (Entries.cons key v d).encode.length =
      (encodeStr key).length + v.encode.length + d.encode.length := by
    rw [Entries.encode, List.length_append, List.length_append]
    omega
  have hkpos := encodeStr_pos key
  have hvpos := v.encode_pos
  have hkey : buf = pre ++ (encodeStr key ++ (v.encode ++ (d.encode ++ chr 'e' :: post))) := by
    rw [hbuf, Entries.encode]
    simp
  have hvalue : buf = (pre ++ encodeStr key) ++ (v.encode ++ (d.encode ++ chr 'e' :: post)) := by
    rw [hkey]
    simp
  have hrest : buf = (pre ++ encodeStr key ++ v.encode) ++ (d.encode ++ chr 'e' :: post) := by
    rw [hkey]
    simp
  have hvat : pos + (encodeStr key).length = (pre ++ encodeStr key).length := by
    rw [hpos, List.length_append]
  have hnext : pos + (encodeStr key).length + v.encode.length =
      (pre ++ encodeStr key ++ v.encode).length := by
    rw [hvat]
    exact List.length_append.symm
  obtain ⟨fuel, rfl⟩ : ∃ k, fuel = k + 2 := ⟨fuel - 2, by omega⟩
  have hkdec : decode addr buf (fuel + 1) pos =
      .ok (.str (pos + (decimal key.length).length + 1) key.length, (encodeStr key).length) := by
    rw [decode_str hkey hpos, decodeStr_eq hkey hpos hfit, if_neg (by simp)]
  have hdec := hv addr buf _ _ _ (fuel + 1) hvalue hvat hfit (by omega) (fun _ => by simp)
  have hmore := hd addr buf _ post _ (fuel + 1) hrest hnext hfit (by omega)
  by_cases hvne : v.NoEmpty
  · rcases hdec.1 hvne with ⟨node, hrun, hval⟩
    -- the last pair has the end marker behind it, any other one the first byte of the next key
    have hbytes := bytes_at hkey hpos
    cases d with
    | nil =>
      refine ⟨fun _ => ⟨.cons (.str (pos + (decimal key.length).length + 1) key.length) node
        .nil, ?_, ?_⟩, fun h => absurd ⟨fun hc => (by cases hc), hvne, trivial⟩ h⟩
      · rw [decodePairs_step hkdec rfl hrun (atEnd_at hrest hnext), hlen, ← Nat.add_assoc,
          ← Nat.add_assoc]
        rfl
      · rw [Pairs.value, Pairs.value, hval, Node.bytes, hbytes]
    | cons key' w d' =>
      rcases encodeStr_cons key' with ⟨b, rest, hk, hb⟩
      have hnot : atEnd buf (pos + (encodeStr key).length + v.encode.length) = .ok false := by
        have htext : (Entries.cons key' w d').encode = b :: (rest ++ (w.encode ++ d'.encode)) := by
          rw [Entries.encode, hk]
          rfl
        rw [atEnd_next hrest hnext htext, decide_eq_false hb]
      rw [decodePairs_step hkdec rfl hrun hnot, if_neg Bool.false_ne_true]
      constructor
      · rintro ⟨-, -, hdne⟩
        rcases hmore.1 ⟨fun hc => (by cases hc), hdne⟩ with ⟨pairs, hrun', hval'⟩
        refine ⟨.cons (.str (pos + (decimal key.length).length + 1) key.length) node pairs,
          ?_, ?_⟩
        · rw [hrun', hlen, ← Nat.add_assoc, ← Nat.add_assoc]
          rfl
        · rw [Pairs.value, hval, hval', Node.bytes, hbytes]
      · intro h
        rw [hmore.2 (fun hc => h ⟨fun he => (by cases he), hvne, hc.2⟩)]
        rfl
  · refine ⟨fun h => absurd h.2.1 hvne, fun _ => ?_⟩
    rw [decodePairs, hkdec]
    simp only [bind, Except.bind, Node.isStr, if_true, hdec.2 hvne]

mutual

theorem Value.decodes : (v : Value) → v.Decodes
  | .str s => str_decodes s
  | .int i => int_decodes i
  | .list l => list_decodes l.decodes
  | .dict d => dict_decodes d.decodes

theorem Values.decodes : (l : Values) → l.Decodes
  | .nil => values_nil_decodes
  | .cons v l => values_cons_decodes v.decodes l.decodes

theorem Entries.decodes : (d : Entries) → d.Decodes
  | .nil => entries_nil_decodes
  | .cons _ v d => entries_cons_decodes v.decodes d.decodes

end

/-! ## Every outcome -/

/-- What holds of a node that ends `off` bytes after `pos`. -/
def NodeOk (buf : List Byte) (pos : Nat) (node : Node) (off : Nat) : Prop :=
  node.KeysStr ∧ 0 < off ∧ pos + off ≤ buf.length

theorem decodeStr_ok {node : Node} {off : Nat} (h : decodeStr addr buf pos = .ok (node, off)) :
    NodeOk buf pos node off := by
  unfold decodeStr at h
  split at h
  case h_1 => exact absurd h nofun
  case h_2 colon hcolon =>
    have hb := memChrOff_bounds hcolon
    simp only [] at h
    split at h
    case isTrue => exact absurd h nofun
    case isFalse =>
      split at h
      case isTrue => exact absurd h nofun
      case isFalse =>
        rw [Except.ok.injEq, Prod.mk.injEq] at h
        rcases h with ⟨rfl, rfl⟩
        exact ⟨trivial, by omega, by omega⟩

theorem decodeNum_ok {node : Node} {off : Nat} (h : decodeNum buf pos = .ok (node, off)) :
    NodeOk buf pos node off := by
  unfold decodeNum at h
  split at h
  case h_1 => exact absurd h nofun
  case h_2 ptm hptm =>
    have hb := memChrOff_bounds hptm
    rw [Except.ok.injEq, Prod.mk.injEq] at h
    rcases h with ⟨rfl, rfl⟩
    exact ⟨trivial, by omega, by omega⟩

theorem atEnd_ok {last : Bool} (h : atEnd buf pos = .ok last) : pos < buf.length := by
  unfold atEnd at h
  split at h
  case isTrue => exact absurd h nofun
  case isFalse =>
    split at h
    case h_1 => exact absurd h nofun
    case h_2 b hb =>
      rw [List.getElem?_eq_some_iff] at hb
      exact hb.1

theorem bind_noReturn {α β : Type} {x : Except Err α} {f : α → Except Err β}
    (h : x >>= f = .error .noReturn) :
    x = .error .noReturn ∨ ∃ a, x = .ok a ∧ f a = .error .noReturn := by
  match x, h with
  | .ok a, h => exact .inr ⟨a, rfl, h⟩
  | .error e, h =>
    have he : (Except.error e : Except Err β) = .error .noReturn := h
    rw [Except.error.inj he]
    exact .inl rfl

theorem decode_cases {node : Node} {off : Nat}
    (h : decode addr buf (fuel + 1) pos = .ok (node, off)) :
    pos < buf.length ∧ (decodeStr addr buf pos = .ok (node, off) ∨
      decodeNum buf pos = .ok (node, off) ∨
      (∃ l curPos, decodeItems addr buf fuel (pos + 1) = .ok (l, curPos) ∧
        node = .list (pos + 1) (containerRawSize pos curPos) l ∧ off = curPos - pos + 1) ∨
      (∃ d curPos, decodePairs addr buf fuel (pos + 1) = .ok (d, curPos) ∧
        node = .dict (pos + 1) (containerRawSize pos curPos) d ∧ off = curPos - pos + 1)) := by
  rw [decode] at h
  split at h
  case h_1 => exact absurd h nofun
  case h_2 b hb =>
    refine ⟨(List.getElem?_eq_some_iff.mp hb).1, ?_⟩
    split at h
    case isTrue => exact .inl h
    case isFalse =>
      split at h
      case isTrue => exact .inr (.inl h)
      case isFalse =>
        split at h
        case isTrue =>
          rcases bind_ok h with ⟨⟨l, curPos⟩, hitems, hr⟩
          simp only [pure, Except.pure, Except.ok.injEq, Prod.mk.injEq] at hr
          exact .inr (.inr (.inl ⟨l, curPos, hitems, hr.1.symm, hr.2.symm⟩))
        case isFalse =>
          split at h
          case isTrue =>
            rcases bind_ok h with ⟨⟨d, curPos⟩, hpairs, hr⟩
            simp only [pure, Except.pure, Except.ok.injEq, Prod.mk.injEq] at hr
            exact .inr (.inr (.inr ⟨d, curPos, hpairs, hr.1.symm, hr.2.symm⟩))
          case isFalse => exact absurd h nofun

theorem decodeItems_cases {l : Nodes} {endPos : Nat}
    (h : decodeItems addr buf (fuel + 1) pos = .ok (l, endPos)) :
    ∃ node off last, decode addr buf fuel pos = .ok (node, off) ∧
      atEnd buf (pos + off) = .ok last ∧
      (l = .cons node .nil ∧ endPos = pos + off ∨
        ∃ l', decodeItems addr buf fuel (pos + off) = .ok (l', endPos) ∧ l = .cons node l') := by
  rw [decodeItems] at h
  rcases bind_ok h with ⟨⟨node, off⟩, hnode, h⟩
  rcases bind_ok h with ⟨last, hlast, h⟩
  refine ⟨node, off, last, hnode, hlast, ?_⟩
  match last with
  | true =>
    simp only [if_true, pure, Except.pure, Except.ok.injEq, Prod.mk.injEq] at h
    exact .inl ⟨h.1.symm, h.2.symm⟩
  | false =>
    rcases bind_ok h with ⟨⟨l', curPos⟩, hl, hr⟩
    simp only [pure, Except.pure, Except.ok.injEq, Prod.mk.injEq] at hr
    rcases hr with ⟨rfl, rfl⟩
    exact .inr ⟨l', hl, rfl⟩

theorem decodePairs_cases {d : Pairs} {endPos : Nat}
    (h : decodePairs addr buf (fuel + 1) pos = .ok (d, endPos)) :
    ∃ key off, decode addr buf fuel pos = .ok (key, off) ∧
      (key.isStr = false ∧ d = .nil ∧ endPos = pos ∨
        key.isStr = true ∧ ∃ val voff last, decode addr buf fuel (pos + off) = .ok (val, voff) ∧
          atEnd buf (pos + off + voff) = .ok last ∧
          (d = .cons key val .nil ∧ endPos = pos + off + voff ∨
            ∃ d', decodePairs addr buf fuel (pos + off + voff) = .ok (d', endPos) ∧
              d = .cons key val d')) := by
  rw [decodePairs] at h
  rcases bind_ok h with ⟨⟨key, off⟩, hkey, h⟩
  refine ⟨key, off, hkey, ?_⟩
  change (if key.isStr = true then _ else _) = _ at h
  split at h
  case isTrue hstr =>
    refine .inr ⟨hstr, ?_⟩
    rcases bind_ok h with ⟨⟨val, voff⟩, hval, h⟩
    rcases bind_ok h with ⟨last, hlast, h⟩
    refine ⟨val, voff, last, hval, hlast, ?_⟩
    match last with
    | true =>
      simp only [if_true, pure, Except.pure, Except.ok.injEq, Prod.mk.injEq] at h
      exact .inl ⟨h.1.symm, h.2.symm⟩
    | false =>
      rcases bind_ok h with ⟨⟨d', curPos⟩, hd, hr⟩
      simp only [pure, Except.pure, Except.ok.injEq, Prod.mk.injEq] at hr
      rcases hr with ⟨rfl, rfl⟩
      exact .inr ⟨d', hd, rfl⟩
  case isFalse hstr =>
    simp only [pure, Except.pure, Except.ok.injEq, Prod.mk.injEq] at h
    exact .inl ⟨Bool.eq_false_iff.mpr hstr, h.1.symm, h.2.symm⟩

theorem decode_ok (addr : Nat) (buf : List Byte) (fuel : Nat) :
    (∀ pos node off, decode addr buf fuel pos = .ok (node, off) → NodeOk buf pos node off) ∧
    (∀ pos l endPos, decodeItems addr buf fuel pos = .ok (l, endPos) →
      l.KeysStr ∧ pos ≤ endPos ∧ endPos < buf.length) ∧
    (∀ pos d endPos, decodePairs addr buf fuel pos = .ok (d, endPos) →
      d.KeysStr ∧ pos ≤ endPos ∧ endPos < buf.length) := by
  induction fuel with
  | zero => exact ⟨fun _ _ _ h => absurd h nofun, fun _ _ _ h => absurd h nofun,
      fun _ _ _ h => absurd h nofun⟩
  | succ fuel ih =>
    rcases ih with ⟨ihNode, ihItems, ihPairs⟩
    refine ⟨?_, ?_, ?_⟩
    · intro pos node off h
      -- a string or a number in place, or what the loops have found
      have hpos := (decode_cases h).1
      rcases (decode_cases h).2 with h | h | ⟨l, curPos, hl, rfl, rfl⟩ | ⟨d, curPos, hd, rfl, rfl⟩
      · exact decodeStr_ok h
      · exact decodeNum_ok h
      · have hl' := ihItems _ _ _ hl
        exact ⟨hl'.1, by omega, by omega⟩
      · have hd' := ihPairs _ _ _ hd
        exact ⟨hd'.1, by omega, by omega⟩
    · intro pos l endPos h
      rcases decodeItems_cases h with ⟨node, off, last, hnode, hlast, h⟩
      have hnode' := ihNode _ _ _ hnode
      have hlast' := atEnd_ok hlast
      rcases h with ⟨rfl, rfl⟩ | ⟨l', hl, rfl⟩
      · exact ⟨⟨hnode'.1, trivial⟩, by omega, hlast'⟩
      · have hl' := ihItems _ _ _ hl
        exact ⟨⟨hnode'.1, hl'.1⟩, by omega, hl'.2.2⟩
    · intro pos d endPos h
      rcases decodePairs_cases h with ⟨key, off, hkey, h⟩
      have hkey' := ihNode _ _ _ hkey
      rcases h with ⟨-, rfl, rfl⟩ | ⟨hstr, val, voff, last, hval, hlast, h⟩
      · have hoff := hkey'.2
        exact ⟨trivial, Nat.le_refl _, by omega⟩
      · have hval' := ihNode _ _ _ hval
        have hlast' := atEnd_ok hlast
        rcases h with ⟨rfl, rfl⟩ | ⟨d', hd, rfl⟩
        · exact ⟨⟨hstr, hval'.1, trivial⟩, by omega, hlast'⟩
        · have hd' := ihPairs _ _ _ hd
          exact ⟨⟨hstr, hval'.1, hd'.1⟩, by omega, hd'.2.2⟩

theorem decodeStr_returns : decodeStr addr buf pos ≠ .error .noReturn := by
  unfold decodeStr
  split
  · nofun
  · simp only []
    split
    · nofun
    · split <;> nofun

theorem decodeNum_returns : decodeNum buf pos ≠ .error .noReturn := by
  unfold decodeNum
  split <;> nofun

theorem atEnd_returns : atEnd buf pos ≠ .error .noReturn := by
  unfold atEnd
  split
  · nofun
  · split <;> nofun

theorem bind_pure_returns {α β : Type} {x : Except Err α} {f : α → β}
    (hx : x ≠ .error .noReturn) : (x >>= fun a => pure (f a)) ≠ .error .noReturn := by
  intro h
  rcases bind_noReturn h with h | ⟨a, -, h⟩
  · exact hx h
  · exact absurd h nofun

/-- The recursion ends: a call and the loop it starts are at later positions each time around. -/
theorem decode_returns (addr : Nat) (buf : List Byte) (fuel : Nat) :
    (∀ pos, 2 * (buf.length - pos) + 1 ≤ fuel → decode addr buf fuel pos ≠ .error .noReturn) ∧
    (∀ pos, 2 * (buf.length - pos) + 2 ≤ fuel →
      decodeItems addr buf fuel pos ≠ .error .noReturn) ∧
    (∀ pos, 2 * (buf.length - pos) + 2 ≤ fuel →
      decodePairs addr buf fuel pos ≠ .error .noReturn) := by
  induction fuel with
  | zero => exact ⟨fun _ h => absurd h (by omega), fun _ h => absurd h (by omega),
      fun _ h => absurd h (by omega)⟩
  | succ fuel ih =>
    rcases ih with ⟨ihNode, ihItems, ihPairs⟩
    have hok := (decode_ok addr buf fuel).1
    refine ⟨?_, ?_, ?_⟩
    -- the loops start one byte further on
    · intro pos hfuel
      rw [decode]
      split
      case h_1 => nofun
      case h_2 b hb =>
        have hpos := (List.getElem?_eq_some_iff.mp hb).1
        split
        case isTrue => exact decodeStr_returns
        case isFalse =>
          split
          case isTrue => exact decodeNum_returns
          case isFalse =>
            split
            case isTrue => exact bind_pure_returns (ihItems (pos + 1) (by omega))
            case isFalse =>
              split
              case isTrue => exact bind_pure_returns (ihPairs (pos + 1) (by omega))
              case isFalse => nofun
    · intro pos hfuel h
      rw [decodeItems] at h
      -- the loop goes on behind a value, which is not empty
      rcases bind_noReturn h with h | ⟨⟨node, off⟩, hnode, h⟩
      · exact ihNode pos (by omega) h
      · have hnode' := hok _ _ _ hnode
        have hoff := hnode'.2
        rcases bind_noReturn h with h | ⟨last, -, h⟩
        · exact atEnd_returns h
        · match last, h with
          | true, h => exact absurd h nofun
          | false, h => exact bind_pure_returns (ihItems (pos + off) (by omega)) h
    · intro pos hfuel h
      rw [decodePairs] at h
      rcases bind_noReturn h with h | ⟨⟨key, off⟩, hkey, h⟩
      · exact ihNode pos (by omega) h
      · have hkoff := (hok _ _ _ hkey).2
        change (if key.isStr = true then _ else _) = _ at h
        split at h
        case isFalse => exact absurd h nofun
        case isTrue =>
          rcases bind_noReturn h with h | ⟨⟨val, voff⟩, hval, h⟩
          · exact ihNode (pos + off) (by omega) h
          · have hvoff := (hok _ _ _ hval).2
            rcases bind_noReturn h with h | ⟨last, -, h⟩
            · exact atEnd_returns h
            · match last, h with
              | true, h => exact absurd h nofun
              | false, h => exact bind_pure_returns (ihPairs (pos + off + voff) (by omega)) h

theorem btEnDecode_returns (addr : Nat) (buf : List Byte) :
    btEnDecode addr buf ≠ .error .noReturn :=
  (decode_returns addr buf _).1 0 (by omega)

/-- The buffer starts with the encoding of `v` and `bt_en_decode` finds `v` and nothing else. -/
def Complete (addr : Nat) (v : Value) (post : List Byte) : Prop :=
  ∃ node, btEnDecode addr (v.encode ++ post) = .ok (node, v.encode.length) ∧
    node.value (v.encode ++ post) = v

theorem complete_of_decodes {v : Value} (hfit : addr + (v.encode ++ post).length < 2 ^ 64)
    (hpost : v.IsStr → post ≠ []) : Complete addr v post ↔ v.NoEmpty := by
  have hfuel : 2 * v.encode.length + 1 ≤ 2 * (v.encode ++ post).length + 1 := by
    rw [List.length_append]
    omega
  have h := v.decodes addr (v.encode ++ post) [] post 0 _ rfl rfl hfit hfuel hpost
  constructor
  · rintro ⟨node, hrun, -⟩
    by_contra hne
    rw [btEnDecode, h.2 hne] at hrun
    exact absurd hrun nofun
  · exact h.1

/-- Every value without empty containers is decoded, a string only if the buffer goes on after it;
no other value is. -/
theorem btEnDecode_complete_iff (addr : Nat) (v : Value) (post : List Byte)
    (hfit : addr + (v.encode ++ post).length < 2 ^ 64) :
    (Complete addr v post ↔ v.NoEmpty ∧ (v.IsStr → post ≠ [])) ∧
    ∀ addr buf node off, btEnDecode addr buf = .ok (node, off) → node.KeysStr := by
  refine ⟨?_, fun addr buf node off h => ((decode_ok addr buf _).1 0 node off h).1⟩
  by_cases hpost : v.IsStr → post ≠ []
  · rw [complete_of_decodes hfit hpost]
    exact ⟨fun h => ⟨h, hpost⟩, fun h => h.1⟩
  · refine ⟨?_, fun h => absurd h.2 hpost⟩
    rintro ⟨node, hrun, -⟩
    -- only a string that ends with the buffer is left
    match v, hpost with
    | .str s, hpost =>
      have hnil : post = [] := by
        by_contra hne
        exact hpost (fun _ => hne)
      have henc : (Value.str s).encode = encodeStr s := rfl
      have hbuf : encodeStr s ++ post = [] ++ (encodeStr s ++ post) := rfl
      have hpos : 0 = ([] : List Byte).length := rfl
      rw [henc] at hfit hrun
      rw [btEnDecode, decode_str hbuf hpos, decodeStr_eq hbuf hpos hfit, if_pos hnil] at hrun
      exact absurd hrun nofun
    | .int _, hpost => exact absurd (fun h => h.elim) hpost
    | .list _, hpost => exact absurd (fun h => h.elim) hpost
    | .dict _, hpost => exact absurd (fun h => h.elim) hpost

/-- The list `l1:ae` of one string. -/
theorem btEnDecode_complete_nested : Complete 0 (.list (.cons (.str [chr 'a']) .nil)) [] :=
  (btEnDecode_complete_iff 0 (.list (.cons (.str [chr 'a']) .nil)) []
    (by simp [Value.encode, Values.encode, encodeStr, decimal])).1.mpr
    ⟨⟨nofun, trivial, trivial⟩, nofun⟩

/-- The empty list `le` is refused, and so is the string `0:` with nothing behind it. -/
theorem btEnDecode_not_complete : ¬Complete 0 (.list .nil) [] ∧ ¬Complete 0 (.str []) [] := by
  constructor
  · rintro ⟨node, hrun, -⟩
    have hbad : btEnDecode 0 [chr 'l', chr 'e'] = .error .ebadmsg := rfl
    exact absurd (hbad.symm.trans hrun) nofun
  · rintro ⟨node, hrun, -⟩
    have henc : (Value.str []).encode ++ [] = [chr '0', chr ':'] := by
      simp [Value.encode, encodeStr, decimal, chr]
    have hbad : btEnDecode 0 [chr '0', chr ':'] = .error .ebadmsg := rfl
    rw [henc, hbad] at hrun
    exact absurd hrun nofun

end BtEncode
