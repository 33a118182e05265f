import Liblcb.Utils.Base64
import Mathlib.Data.List.DropRight
import Mathlib.Tactic.IntervalCases

/-!
# What the Base64 functions compute

`encodeList` and `decodeList` are the two functions on byte strings.  The encoder writes `encodeList`
of its source and a zero byte, the decoder writes `decodeList` of its source without the padding and
a zero byte, also when it reads the buffer it writes.
-/

namespace Base64

open Buffer

/-! ## The functions on byte strings -/

def encodeList : List Byte → List Byte
  | [] => []
  | [a] => encodeTail [a]
  | [a, b] => encodeTail [a, b]
  | a :: b :: c :: src => encodeGroup a b c ++ encodeList src

def decodeList : List Byte → List Byte
  | [] => []
  | [_] => []
  | [b0, b1] => [first b0 b1]
  | [b0, b1, b2] => [first b0 b1, second b1 b2]
  | b0 :: b1 :: b2 :: b3 :: src => first b0 b1 :: second b1 b2 :: third b2 b3 :: decodeList src

/-- The bytes of the 64-symbol alphabet in a text. -/
def symbols (text : List Byte) : List Byte := text.filter fun b => decoding b ≠ 64

/-- `text` without the padding at its end. -/
def unpadded (text : List Byte) : List Byte := text.rdropWhile fun b => b = padding

@[simp] theorem length_encodeGroup (a b c : Byte) : (encodeGroup a b c).length = 4 := rfl

theorem encSize_eq (n : Nat) : encSize n = 4 * ((n + 2) / 3) := by
  unfold encSize
  split <;> omega

theorem dcdSize_eq (n : Nat) : dcdSize n = 3 * ((n + 3) / 4) := by
  unfold dcdSize
  split <;> omega

theorem length_encodeList (src : List Byte) : (encodeList src).length = encSize src.length := by
  rw [encSize_eq]
  induction src using encodeList.induct with
  | case1 => simp [encodeList]
  | case2 a => simp [encodeList, encodeTail]
  | case3 a b => simp [encodeList, encodeTail]
  | case4 a b c src ih =>
    rw [encodeList, List.length_append, length_encodeGroup, ih]
    simp only [List.length_cons]
    omega

theorem length_decodeList (src : List Byte) :
    (decodeList src).length = src.length / 4 * 3 + (src.length % 4 - 1) := by
  induction src using decodeList.induct with
  | case1 => simp [decodeList]
  | case2 b0 => simp [decodeList]
  | case3 b0 b1 => simp [decodeList]
  | case4 b0 b1 b2 => simp [decodeList]
  | case5 b0 b1 b2 b3 src ih =>
    rw [decodeList]
    simp only [List.length_cons, ih]
    omega

/-! ## The tables -/

set_option maxRecDepth 10000 in
theorem decoding_coding : ∀ v : Byte, v.toNat < 64 → decoding (coding v) = v := by
  decide +kernel

theorem decoding_padding : decoding padding = 64 := by decide +kernel

theorem coding_isSymbol {v : Byte} (h : v.toNat < 64) : decoding (coding v) ≠ 64 := by
  rw [decoding_coding v h]
  rintro rfl
  exact absurd h (by decide)

theorem shiftRight_lt (a : Byte) : (a >>> 2).toNat < 64 := by
  rw [BitVec.toNat_ushiftRight, Nat.shiftRight_eq_div_pow]
  have := a.isLt
  omega

theorem and_lt {a : Byte} (m : Byte) (h : m.toNat < 64) : (a &&& m).toNat < 64 := by
  rw [BitVec.toNat_and]
  exact Nat.lt_of_le_of_lt Nat.and_le_right h

theorem or_lt {a b : Byte} (ha : a.toNat < 64) (hb : b.toNat < 64) : (a ||| b).toNat < 64 := by
  rw [BitVec.toNat_or]
  exact Nat.or_lt_two_pow (n := 6) ha hb

/-! The bits of a byte go through the symbols and back. -/

private theorem first_bits (a b : Byte) :
    (a >>> 2) <<< 2 ||| (((a <<< 4) &&& 0x30#8) ||| ((b >>> 4) &&& 0x0f#8)) >>> 4 = a := by
  apply BitVec.eq_of_getLsbD_eq
  intro i hi
  interval_cases i <;> simp

private theorem first_bits_tail (a : Byte) :
    (a >>> 2) <<< 2 ||| ((a <<< 4) &&& 0x30#8) >>> 4 = a := by
  apply BitVec.eq_of_getLsbD_eq
  intro i hi
  interval_cases i <;> simp

private theorem second_bits (a b c : Byte) :
    (((a <<< 4) &&& 0x30#8) ||| ((b >>> 4) &&& 0x0f#8)) <<< 4 |||
      (((b <<< 2) &&& 0x3c#8) ||| ((c >>> 6) &&& 0x03#8)) >>> 2 = b := by
  apply BitVec.eq_of_getLsbD_eq
  intro i hi
  interval_cases i <;> simp

private theorem second_bits_tail (a b : Byte) :
    (((a <<< 4) &&& 0x30#8) ||| ((b >>> 4) &&& 0x0f#8)) <<< 4 ||| ((b <<< 2) &&& 0x3c#8) >>> 2 = b := by
  apply BitVec.eq_of_getLsbD_eq
  intro i hi
  interval_cases i <;> simp

private theorem third_bits (b c : Byte) :
    (((b <<< 2) &&& 0x3c#8) ||| ((c >>> 6) &&& 0x03#8)) <<< 6 ||| (c &&& 0x3f#8) = c := by
  apply BitVec.eq_of_getLsbD_eq
  intro i hi
  interval_cases i <;> simp

private theorem index_one_lt (a b : Byte) :
    (((a <<< 4) &&& 0x30#8) ||| ((b >>> 4) &&& 0x0f#8)).toNat < 64 :=
  or_lt (and_lt 0x30#8 (by decide)) (and_lt 0x0f#8 (by decide))

private theorem index_two_lt (b c : Byte) :
    (((b <<< 2) &&& 0x3c#8) ||| ((c >>> 6) &&& 0x03#8)).toNat < 64 :=
  or_lt (and_lt 0x3c#8 (by decide)) (and_lt 0x03#8 (by decide))

/-! ## The round trip on byte strings -/

theorem symbols_append (l l' : List Byte) : symbols (l ++ l') = symbols l ++ symbols l' :=
  List.filter_append ..

theorem symbols_cons_of_isSymbol {b : Byte} (h : decoding b ≠ 64) (l : List Byte) :
    symbols (b :: l) = b :: symbols l := by
  rw [symbols, List.filter_cons_of_pos (by simpa using h), ← symbols]

theorem symbols_cons_of_not {b : Byte} (h : decoding b = 64) (l : List Byte) :
    symbols (b :: l) = symbols l := by
  rw [symbols, List.filter_cons_of_neg (by simpa using h), ← symbols]

theorem symbols_encodeGroup (a b c : Byte) : symbols (encodeGroup a b c) = encodeGroup a b c := by
  rw [encodeGroup, symbols_cons_of_isSymbol (coding_isSymbol (shiftRight_lt a)),
    symbols_cons_of_isSymbol (coding_isSymbol (index_one_lt a b)),
    symbols_cons_of_isSymbol (coding_isSymbol (index_two_lt b c)),
    symbols_cons_of_isSymbol (coding_isSymbol (and_lt 0x3f#8 (by decide)))]
  rfl

theorem symbols_encodeTail_one (a : Byte) :
    symbols (encodeTail [a]) = [coding (a >>> 2), coding ((a <<< 4) &&& 0x30#8)] := by
  rw [encodeTail, symbols_cons_of_isSymbol (coding_isSymbol (shiftRight_lt a)),
    symbols_cons_of_isSymbol (coding_isSymbol (and_lt 0x30#8 (by decide))),
    symbols_cons_of_not decoding_padding, symbols_cons_of_not decoding_padding]
  rfl

theorem symbols_encodeTail_two (a b : Byte) :
    symbols (encodeTail [a, b]) = [coding (a >>> 2),
      coding (((a <<< 4) &&& 0x30#8) ||| ((b >>> 4) &&& 0x0f#8)), coding ((b <<< 2) &&& 0x3c#8)] := by
  rw [encodeTail, symbols_cons_of_isSymbol (coding_isSymbol (shiftRight_lt a)),
    symbols_cons_of_isSymbol (coding_isSymbol (index_one_lt a b)),
    symbols_cons_of_isSymbol (coding_isSymbol (and_lt 0x3c#8 (by decide))),
    symbols_cons_of_not decoding_padding]
  rfl

theorem decodeList_symbols_encodeList (src : List Byte) :
    decodeList (symbols (encodeList src)) = src := by
  induction src using encodeList.induct with
  | case1 => rfl
  | case2 a =>
    rw [encodeList, symbols_encodeTail_one, decodeList, first,
      decoding_coding _ (shiftRight_lt a), decoding_coding _ (and_lt 0x30#8 (by decide)),
      first_bits_tail]
  | case3 a b =>
    rw [encodeList, symbols_encodeTail_two, decodeList, first, second,
      decoding_coding _ (shiftRight_lt a), decoding_coding _ (index_one_lt a b),
      decoding_coding _ (and_lt 0x3c#8 (by decide)), first_bits, second_bits_tail]
  | case4 a b c src ih =>
    rw [encodeList, symbols_append, symbols_encodeGroup, encodeGroup]
    simp only [List.cons_append, List.nil_append, decodeList, first, second, third, ih,
      decoding_coding _ (shiftRight_lt a), decoding_coding _ (index_one_lt a b),
      decoding_coding _ (index_two_lt b c), decoding_coding (c &&& 0x3f#8) (and_lt _ (by decide)),
      first_bits, second_bits, third_bits]

theorem encodeList_eq_symbols_append (src : List Byte) :
    ∃ k, encodeList src = symbols (encodeList src) ++ List.replicate k padding := by
  induction src using encodeList.induct with
  | case1 => exact ⟨0, rfl⟩
  | case2 a =>
    refine ⟨2, ?_⟩
    rw [encodeList, symbols_encodeTail_one]
    rfl
  | case3 a b =>
    refine ⟨1, ?_⟩
    rw [encodeList, symbols_encodeTail_two]
    rfl
  | case4 a b c src ih =>
    rcases ih with ⟨k, hk⟩
    refine ⟨k, ?_⟩
    rw [encodeList, symbols_append, symbols_encodeGroup, List.append_assoc, ← hk]

theorem length_symbols_encodeList (src : List Byte) :
    (symbols (encodeList src)).length = (4 * src.length + 2) / 3 := by
  induction src using encodeList.induct with
  | case1 => rfl
  | case2 a =>
    rw [encodeList, symbols_encodeTail_one]
    simp
  | case3 a b =>
    rw [encodeList, symbols_encodeTail_two]
    simp
  | case4 a b c src ih =>
    rw [encodeList, symbols_append, symbols_encodeGroup, List.length_append, ih,
      length_encodeGroup]
    simp only [List.length_cons]
    omega

theorem unpadded_append_padding (l : List Byte) (k : Nat) :
    unpadded (l ++ List.replicate k padding) = unpadded l := by
  induction k with
  | zero => rw [List.replicate_zero, List.append_nil]
  | succ k ih =>
    rw [List.replicate_succ', ← List.append_assoc, unpadded, List.rdropWhile_concat,
      if_pos (by simp), ← unpadded, ih]

theorem unpadded_symbols (l : List Byte) : unpadded (symbols l) = symbols l := by
  rw [unpadded, List.rdropWhile_eq_self_iff]
  intro h
  have hmem : (symbols l).getLast h ∈ symbols l := List.getLast_mem h
  have hsym := (List.mem_filter.mp hmem).2
  intro hpad
  rw [decide_eq_true_eq] at hpad hsym
  exact hsym (hpad ▸ decoding_padding)

theorem unpadded_encodeList (src : List Byte) :
    unpadded (encodeList src) = symbols (encodeList src) := by
  rcases encodeList_eq_symbols_append src with ⟨k, hk⟩
  rw [hk, unpadded_append_padding, unpadded_symbols, ← hk]

/-! ## Encoding -/

theorem encodeLoop_eq : ∀ (src : List Byte) (wpos : Nat) (dst : List Byte),
    wpos + src.length / 3 * 4 ≤ dst.length →
    ∃ rest front, encodeLoop src wpos dst = some (rest, wpos + front.length, splice dst wpos front) ∧
      rest.length < 3 ∧ front.length = src.length / 3 * 4 ∧
      encodeList src = front ++ encodeTail rest
  | a :: b :: c :: src, wpos, dst, h => by
    simp only [List.length_cons] at h
    have hgroup : wpos + (encodeGroup a b c).length ≤ dst.length := by
      rw [length_encodeGroup]
      omega
    have hroom : wpos + 4 + src.length / 3 * 4 ≤ (splice dst wpos (encodeGroup a b c)).length := by
      rw [length_splice hgroup]
      omega
    rcases encodeLoop_eq src (wpos + 4) _ hroom with ⟨rest, front, hrun, hlt, hlen, heq⟩
    refine ⟨rest, encodeGroup a b c ++ front, ?_, hlt, ?_, ?_⟩
    · have hsplice : splice (splice dst wpos (encodeGroup a b c)) (wpos + 4) front =
          splice dst wpos (encodeGroup a b c ++ front) := splice_splice hgroup
      rw [encodeLoop, putAll_eq hgroup, Option.bind_eq_bind, Option.bind_some, hrun, hsplice,
        List.length_append, length_encodeGroup, Nat.add_assoc]
    · rw [List.length_append, length_encodeGroup, hlen]
      simp only [List.length_cons]
      omega
    · rw [encodeList, heq, List.append_assoc]
  | [], wpos, dst, h => by
    refine ⟨[], [], ?_, by decide, rfl, rfl⟩
    rw [encodeLoop, splice_nil]
    · rfl
    · simp
  | [a], wpos, dst, h => by
    refine ⟨[a], [], ?_, by simp, by simp, rfl⟩
    rw [encodeLoop, splice_nil]
    · rfl
    · simp
  | [a, b], wpos, dst, h => by
    refine ⟨[a, b], [], ?_, by simp, by simp, rfl⟩
    rw [encodeLoop, splice_nil]
    · rfl
    · simp

theorem base64Encode_eq {src dst : List Byte} (hsrc : src ≠ [])
    (h : encSize src.length ≤ dst.length) :
    base64Encode src dst =
      if encSize src.length < dst.length then
        some (⟨.ok, some (encSize src.length)⟩, splice dst 0 (encodeList src ++ [0]))
      else none := by
  have hne : src.length ≠ 0 := fun h0 => hsrc (List.length_eq_zero_iff.mp h0)
  have hsize := encSize_eq src.length
  rcases encodeLoop_eq src 0 dst (by omega) with ⟨rest, front, hrun, hlt, hlen, heq⟩
  have hall := length_encodeList src
  rw [heq, List.length_append] at hall
  have hfront : 0 + front.length ≤ dst.length := by omega
  have htail : 0 + front.length + (encodeTail rest).length ≤ (splice dst 0 front).length := by
    rw [length_splice hfront]
    omega
  have hwrite : splice (splice dst 0 front) (0 + front.length) (encodeTail rest) =
      splice dst 0 (encodeList src) := by rw [splice_splice hfront, heq]
  have hlist : (encodeList src).length = encSize src.length := length_encodeList src
  have hpos : 0 + front.length + (encodeTail rest).length = 0 + (encodeList src).length := by
    rw [hlist]
    omega
  have hbuf : (splice dst 0 (encodeList src)).length = dst.length := length_splice (by omega)
  rw [base64Encode, if_neg hne, if_neg (by omega), hrun]
  simp only [Option.bind_eq_bind, Option.bind_some]
  rw [putAll_eq htail, Option.bind_some, hwrite, hpos]
  split
  · rw [put_eq _ (by omega), Option.bind_some, splice_splice (by omega)]
  · rw [put_none _ (by omega), Option.bind_none]

/-! ## Decoding -/

/-- The source holds `text` from `pos` on. -/
def Src.Holds (src : Src) (dst : List Byte) (pos : Nat) (text : List Byte) : Prop :=
  ∀ i, i < text.length → src.read dst (pos + i) = text[i]?

/-- Writes below `wpos` do not reach what is read from `rpos` on. -/
def Src.Behind (src : Src) (wpos rpos : Nat) : Prop :=
  match src with
  | .own _ => True
  | .dst => wpos ≤ rpos

theorem Src.Behind.mono {src : Src} {wpos rpos wpos' rpos' : Nat} (h : src.Behind wpos rpos)
    (hle : wpos' + rpos ≤ wpos + rpos') : src.Behind wpos' rpos' := by
  cases src with
  | own src => trivial
  | dst =>
    have : wpos ≤ rpos := h
    show wpos' ≤ rpos'
    omega

theorem read_splice {src : Src} {dst bs : List Byte} {wpos i : Nat}
    (hroom : wpos + bs.length ≤ dst.length) (h : src.Behind (wpos + bs.length) i) :
    src.read (splice dst wpos bs) i = src.read dst i := by
  cases src with
  | own src => rfl
  | dst => exact getElem?_splice_of_ge hroom h

theorem Src.Holds.tail {src : Src} {dst : List Byte} {pos : Nat} {b : Byte} {text : List Byte}
    (h : src.Holds dst pos (b :: text)) : src.Holds dst (pos + 1) text := by
  intro i hi
  have := h (i + 1) (by rw [List.length_cons]; omega)
  rwa [List.getElem?_cons_succ, ← Nat.add_assoc, Nat.add_right_comm] at this

theorem Src.Holds.head {src : Src} {dst : List Byte} {pos : Nat} {b : Byte} {text : List Byte}
    (h : src.Holds dst pos (b :: text)) : src.read dst pos = some b :=
  h 0 (by rw [List.length_cons]; omega)

theorem Src.Holds.splice {src : Src} {dst bs text : List Byte} {wpos pos : Nat}
    (h : src.Holds dst pos text) (hroom : wpos + bs.length ≤ dst.length)
    (hb : src.Behind (wpos + bs.length) pos) : src.Holds (splice dst wpos bs) pos text := by
  intro i hi
  rw [read_splice hroom (hb.mono (by omega))]
  exact h i hi

theorem holds_own (text dst : List Byte) : (Src.own text).Holds dst 0 text := by
  intro i _
  rw [Nat.zero_add]
  rfl

theorem Src.Holds.left {src : Src} {dst : List Byte} {pos : Nat} {l l' : List Byte}
    (h : src.Holds dst pos (l ++ l')) : src.Holds dst pos l := by
  intro i hi
  rw [h i (by rw [List.length_append]; omega), List.getElem?_append_left hi]

theorem decodePut_eq {src : Src} {f : Byte → Byte → Byte} {rpos wpos : Nat} {dst : List Byte}
    {x y : Byte} {text : List Byte} (h : src.Holds dst rpos (x :: y :: text))
    (hw : wpos < dst.length) :
    decodePut src f rpos wpos dst = some (splice dst wpos [f x y]) := by
  rw [decodePut, h.head, h.tail.head]
  simp only [Option.bind_eq_bind, Option.bind_some]
  exact put_eq _ hw

theorem Src.Holds.afterPut {src : Src} {rpos wpos : Nat} {dst : List Byte} {x v : Byte}
    {text : List Byte} (h : src.Holds dst rpos (x :: text)) (hb : src.Behind wpos rpos)
    (hw : wpos < dst.length) : src.Holds (Buffer.splice dst wpos [v]) (rpos + 1) text :=
  h.tail.splice hw (hb.mono (by rw [List.length_singleton]; omega))

private theorem decodeRound_eq {src : Src} {rpos wpos : Nat} {dst : List Byte} {b0 b1 b2 b3 : Byte}
    {text : List Byte} (h : src.Holds dst rpos (b0 :: b1 :: b2 :: b3 :: text))
    (hb : src.Behind wpos rpos) (hw : wpos + 3 ≤ dst.length) (n : Nat) :
    decodeLoop src (n + 1) rpos wpos dst = decodeLoop src n (rpos + 4) (wpos + 3)
      (splice dst wpos [first b0 b1, second b1 b2, third b2 b3]) := by
  have h1 : wpos + [first b0 b1].length ≤ dst.length := by
    rw [List.length_singleton]
    omega
  have h2 : wpos + [first b0 b1, second b1 b2].length ≤ dst.length := by
    simp only [List.length_cons, List.length_nil]
    omega
  have e1 : splice (splice dst wpos [first b0 b1]) (wpos + 1) [second b1 b2] =
      splice dst wpos [first b0 b1, second b1 b2] := splice_splice h1
  have e2 : splice (splice dst wpos [first b0 b1, second b1 b2]) (wpos + 2) [third b2 b3] =
      splice dst wpos [first b0 b1, second b1 b2, third b2 b3] := splice_splice h2
  have g1 := h.afterPut (v := first b0 b1) hb (by omega)
  have l1 : (splice dst wpos [first b0 b1]).length = dst.length := length_splice h1
  have g2 := g1.afterPut (v := second b1 b2) (hb.mono (show wpos + 1 + rpos ≤ _ by omega))
    (by omega)
  rw [e1] at g2
  have l2 : (splice dst wpos [first b0 b1, second b1 b2]).length = dst.length := length_splice h2
  rw [decodeLoop, decodePut_eq h (by omega)]
  simp only [Option.bind_eq_bind, Option.bind_some]
  rw [decodePut_eq g1 (by omega), Option.bind_some, e1, decodePut_eq g2 (by omega),
    Option.bind_some, e2]

theorem decodeLoop_eq {src : Src} : ∀ (n rpos wpos : Nat) (dst text : List Byte),
    src.Holds dst rpos text → src.Behind wpos rpos → 4 * n ≤ text.length →
    wpos + 3 * n ≤ dst.length →
    ∃ front, decodeLoop src n rpos wpos dst = some (splice dst wpos front) ∧
      front.length = 3 * n ∧ decodeList text = front ++ decodeList (text.drop (4 * n))
  | 0, rpos, wpos, dst, text, _, _, _, _ => ⟨[], by rw [decodeLoop, splice_nil], rfl, rfl⟩
  | n + 1, rpos, wpos, dst, text, h, hb, hlen, hw => by
    match text, hlen with
    | b0 :: b1 :: b2 :: b3 :: text, hlen =>
      simp only [List.length_cons] at hlen
      have h3 : wpos + [first b0 b1, second b1 b2, third b2 b3].length ≤ dst.length := by
        simp only [List.length_cons, List.length_nil]
        omega
      have hnext := (h.tail.tail.tail.tail).splice h3 (hb.mono (by
        simp only [List.length_cons, List.length_nil]
        omega))
      rcases decodeLoop_eq n (rpos + 4) (wpos + 3) _ text hnext (hb.mono (by omega)) (by omega)
        (by rw [length_splice h3]; omega) with ⟨front, hrun, hfront, heq⟩
      have e : splice (splice dst wpos [first b0 b1, second b1 b2, third b2 b3]) (wpos + 3)
          front = splice dst wpos ([first b0 b1, second b1 b2, third b2 b3] ++ front) :=
        splice_splice h3
      refine ⟨[first b0 b1, second b1 b2, third b2 b3] ++ front, ?_, ?_, ?_⟩
      · rw [decodeRound_eq h hb (by omega), hrun, e]
      · rw [List.length_append, hfront]
        simp only [List.length_cons, List.length_nil]
        omega
      · rw [decodeList, heq, Nat.mul_succ]
        rfl

theorem decodeTail_eq {src : Src} {rpos wpos : Nat} {dst text : List Byte}
    (h : src.Holds dst rpos text) (hb : src.Behind wpos rpos) (hlen : text.length < 4)
    (hw : wpos + (decodeList text).length ≤ dst.length) :
    decodeTail src text.length rpos wpos dst =
      some (splice dst wpos (decodeList text), (decodeList text).length) := by
  match text, hlen with
  | [], _ => rw [decodeList, splice_nil]; rfl
  | [b0], _ => rw [decodeList, splice_nil]; rfl
  | [b0, b1], _ =>
    have hw' : wpos + 1 ≤ dst.length := hw
    show (do let dst ← decodePut src first rpos wpos dst; some (dst, 1)) = _
    rw [decodePut_eq h (by omega)]
    rfl
  | [b0, b1, b2], _ =>
    have hw' : wpos + 2 ≤ dst.length := hw
    have h1 : wpos + [first b0 b1].length ≤ dst.length := by
      rw [List.length_singleton]
      omega
    have e1 : splice (splice dst wpos [first b0 b1]) (wpos + 1) [second b1 b2] =
        splice dst wpos [first b0 b1, second b1 b2] := splice_splice h1
    have g1 := h.afterPut (v := first b0 b1) hb (by omega)
    have l1 : (splice dst wpos [first b0 b1]).length = dst.length := length_splice h1
    show (do
      let dst ← decodePut src first rpos wpos dst
      let dst ← decodePut src second (rpos + 1) (wpos + 1) dst
      some (dst, 2)) = _
    rw [decodePut_eq h (by omega)]
    simp only [Option.bind_eq_bind, Option.bind_some]
    rw [decodePut_eq g1 (by omega), Option.bind_some, e1]
    rfl

theorem realSize_eq {src : Src} {dst : List Byte} (text : List Byte) (h : src.Holds dst 0 text) :
    realSize src dst text.length = some (unpadded text).length := by
  induction text using List.reverseRecOn with
  | nil => rfl
  | append_singleton text b ih =>
    have hread : src.read dst text.length = some b := by
      have := h text.length (by rw [List.length_append, List.length_singleton]; omega)
      rwa [Nat.zero_add, List.getElem?_append_right (Nat.le_refl _), Nat.sub_self] at this
    rw [List.length_append, List.length_singleton, realSize, hread, unpadded,
      List.rdropWhile_concat]
    simp only [Option.bind_eq_bind, Option.bind_some, decide_eq_true_eq]
    split
    · exact ih h.left
    · rw [List.length_append, List.length_singleton]

theorem length_decodeList_le (text : List Byte) :
    (decodeList text).length ≤ dcdSize text.length := by
  rw [length_decodeList, dcdSize_eq]
  omega

/-- `base64_decode` of a source that holds `text`; `real` is the text without the padding. -/
theorem base64Decode_eq {src : Src} {dst text real : List Byte} (h : src.Holds dst 0 text)
    (hreal : unpadded text = real) (h2 : 2 ≤ real.length) (hroom : dcdSize real.length ≤ dst.length) :
    base64Decode src text.length dst =
      if (decodeList real).length < dst.length then
        some (⟨.ok, some (decodeList real).length⟩, splice dst 0 (decodeList real ++ [0]))
      else none := by
  have hpre : real <+: text := by
    rw [← hreal]
    exact List.rdropWhile_prefix ..
  rcases hpre with ⟨pad, hpad⟩
  have hholds : src.Holds dst 0 real := by
    rw [← hpad] at h
    exact h.left
  have hne : text.length ≠ 0 := by
    rw [← hpad, List.length_append]
    omega
  have hfit := length_decodeList real
  have hd := dcdSize_eq real.length
  have hle := length_decodeList_le real
  have hbehind : src.Behind 0 0 := by
    cases src with
    | own src => trivial
    | dst => exact Nat.le_refl 0
  -- the groups of four first; what they write is not in front of what is still to be read
  rcases decodeLoop_eq (real.length / 4) 0 0 dst real hholds hbehind (by omega) (by omega) with
    ⟨front, hrun, hlen, heq⟩
  have hfront : 0 + front.length ≤ dst.length := by omega
  have htl : (real.drop (4 * (real.length / 4))).length = real.length - real.length / 4 * 4 := by
    rw [List.length_drop]
    omega
  have hrest : src.Holds (splice dst 0 front) (real.length / 4 * 4)
      (real.drop (4 * (real.length / 4))) := by
    refine Src.Holds.splice ?_ hfront (hbehind.mono (by omega))
    intro i hi
    have hsrc := hholds (real.length / 4 * 4 + i) (by
      rw [htl] at hi
      omega)
    rw [Nat.zero_add] at hsrc
    rw [hsrc, List.getElem?_drop, Nat.mul_comm]
  have hsum : front.length + (decodeList (real.drop (4 * (real.length / 4)))).length =
      (decodeList real).length := by rw [heq, List.length_append]
  -- then the two or three symbols that are left
  have htail := decodeTail_eq hrest (hbehind.mono (show real.length / 4 * 3 + 0 ≤
    0 + real.length / 4 * 4 by omega)) (by rw [htl]; omega) (by
      rw [length_splice hfront]
      omega)
  rw [htl] at htail
  have hpos : real.length / 4 * 3 = 0 + front.length := by omega
  have hall : splice (splice dst 0 front) (real.length / 4 * 3)
      (decodeList (real.drop (4 * (real.length / 4)))) = splice dst 0 (decodeList real) := by
    rw [hpos, splice_splice hfront, heq]
  have hend : real.length / 4 * 3 + (decodeList (real.drop (4 * (real.length / 4)))).length =
      (decodeList real).length := by omega
  have hbuf : (splice dst 0 (decodeList real)).length = dst.length := length_splice (by omega)
  rw [base64Decode, if_neg hne, realSize_eq text h, hreal]
  simp only [Option.bind_eq_bind, Option.bind_some]
  rw [if_neg (by omega), if_neg (by omega), if_neg (by omega), hrun, Option.bind_some, htail,
    Option.bind_some]
  simp only [hall, hend]
  split
  · have e : splice (splice dst 0 (decodeList real)) (0 + (decodeList real).length) [0] =
        splice dst 0 (decodeList real ++ [0]) := splice_splice (by omega)
    rw [Nat.zero_add] at e
    rw [put_eq _ (by omega), Option.bind_some, e]
  · rw [put_none _ (by omega), Option.bind_none]

/-! ## Copying the symbols -/

theorem enCopyLoop_eq {src : Src} : ∀ (text : List Byte) (rpos wpos : Nat) (dst : List Byte),
    src.Holds dst rpos text → src.Behind wpos rpos →
    wpos + (symbols text).length ≤ dst.length →
    enCopyLoop src text.length rpos wpos dst =
      some (wpos + (symbols text).length, splice dst wpos (symbols text))
  | [], rpos, wpos, dst, _, _, _ => by
    rw [show symbols [] = [] from rfl, splice_nil]
    rfl
  | b :: text, rpos, wpos, dst, h, hb, hw => by
    rw [List.length_cons, enCopyLoop, h.head]
    simp only [Option.bind_eq_bind, Option.bind_some]
    by_cases hsym : decoding b = 64
    · rw [if_pos hsym, symbols_cons_of_not hsym]
      rw [symbols_cons_of_not hsym] at hw
      exact enCopyLoop_eq text (rpos + 1) wpos dst h.tail (hb.mono (by omega)) hw
    · rw [symbols_cons_of_isSymbol hsym, List.length_cons] at hw
      have h1 : wpos + [b].length ≤ dst.length := by
        rw [List.length_singleton]
        omega
      have e : splice (splice dst wpos [b]) (wpos + 1) (symbols text) =
          splice dst wpos ([b] ++ symbols text) := splice_splice h1
      rw [if_neg hsym, put_eq _ (by omega), Option.bind_some,
        enCopyLoop_eq text (rpos + 1) (wpos + 1) _ (h.afterPut hb (by omega))
          (hb.mono (by omega)) (by rw [length_splice h1]; omega),
        e, symbols_cons_of_isSymbol hsym, List.length_cons, Nat.add_right_comm wpos 1]
      rfl

theorem base64EnCopy_eq {src : Src} {dst text : List Byte} (h : src.Holds dst 0 text)
    (hroom : text.length ≤ dst.length) :
    base64EnCopy src text.length dst = some ((symbols text).length, splice dst 0 (symbols text)) := by
  have hle : (symbols text).length ≤ text.length := List.length_filter_le ..
  have hbehind : src.Behind 0 0 := by
    cases src with
    | own src => trivial
    | dst => exact Nat.le_refl 0
  rw [base64EnCopy, enCopyLoop_eq text 0 0 dst h hbehind (by omega), Nat.zero_add]

theorem holds_splice (dst text : List Byte) (hroom : text.length ≤ dst.length) :
    Src.dst.Holds (splice dst 0 text) 0 text := by
  intro i hi
  exact getElem?_splice_of_mem (by omega) hi

theorem base64DecodeFmt_eq {src : Src} {dst text : List Byte} (h : src.Holds dst 0 text)
    (hroom : text.length ≤ dst.length) (h2 : 2 ≤ (symbols text).length)
    (hdcd : dcdSize (symbols text).length ≤ dst.length) :
    base64DecodeFmt src text.length dst =
      some (⟨.ok, some (decodeList (symbols text)).length⟩,
        splice (splice dst 0 (symbols text)) 0 (decodeList (symbols text) ++ [0])) := by
  have hle : (symbols text).length ≤ text.length := List.length_filter_le ..
  have hlen := length_decodeList (symbols text)
  have hbuf : (splice dst 0 (symbols text)).length = dst.length := length_splice (by omega)
  rw [base64DecodeFmt, if_neg (by omega), base64EnCopy_eq h hroom]
  simp only [Option.bind_eq_bind, Option.bind_some]
  rw [base64Decode_eq (holds_splice dst _ (by omega)) (unpadded_symbols text) h2 (by omega),
    if_pos (by omega)]

theorem base64DecodeFmt_short {src : Src} {dst text : List Byte} (h : src.Holds dst 0 text)
    (hroom : text.length ≤ dst.length) (h2 : (symbols text).length < 2) :
    base64DecodeFmt src text.length dst =
      some (if symbols text = [] then ⟨.ok, some 0⟩ else ⟨.einval, none⟩,
        splice dst 0 (symbols text)) := by
  have hle : (symbols text).length ≤ text.length := List.length_filter_le ..
  rw [base64DecodeFmt, if_neg (by omega), base64EnCopy_eq h hroom]
  simp only [Option.bind_eq_bind, Option.bind_some]
  by_cases h0 : symbols text = []
  · rw [if_pos h0, h0]
    rfl
  · have hne : (symbols text).length ≠ 0 := fun h => h0 (List.length_eq_zero_iff.mp h)
    rw [if_neg h0, base64Decode, if_neg hne, realSize_eq _ (holds_splice dst _ (by omega)),
      unpadded_symbols]
    simp only [Option.bind_eq_bind, Option.bind_some]
    rw [if_neg hne, if_pos h2]

end Base64
