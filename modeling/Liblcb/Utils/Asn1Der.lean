import Liblcb.Utils.Asn1
import Mathlib.Data.Nat.Digits.Lemmas

/-!
# Headers in the distinguished encoding

The octets of a class, a tag and a length in their shortest form, and that the parser reads them
back.
-/

namespace Asn1

open Mem

def tagOctets (tag : Nat) : List Byte :=
  match Nat.digits 128 tag with
  | [] => [0]
  | d :: ds => (ds.reverse.map fun d => BitVec.ofNat 8 d ||| asnBit8) ++ [BitVec.ofNat 8 d]

def lenOctets (n : Nat) : List Byte := (Nat.digits 256 n).reverse.map (BitVec.ofNat 8)

def firstOctet (cls : BitVec 2) (constructed : Bool) (low : BitVec 5) : Byte :=
  cls ++ BitVec.ofBool constructed ++ low

def derIdent (cls : BitVec 2) (constructed : Bool) (tag : Nat) : List Byte :=
  if tag < 31 then [firstOctet cls constructed (BitVec.ofNat 5 tag)]
  else firstOctet cls constructed 31#5 :: tagOctets tag

def derLength (n : Nat) : List Byte :=
  if n < 128 then [BitVec.ofNat 8 n]
  else (asnLenLong ||| BitVec.ofNat 8 (lenOctets n).length) :: lenOctets n

/-- The header in front of a content of `n` bytes. -/
def derHeader (cls : BitVec 2) (constructed : Bool) (tag n : Nat) : List Byte :=
  derIdent cls constructed tag ++ derLength n

variable {tag n : Nat}

/-! ## Digits -/

theorem foldl_digits (base n : Nat) :
    (Nat.digits base n).reverse.foldl (fun v d => v * base + d) 0 = n := by
  have hdigits := Nat.ofDigits_digits base n
  rw [Nat.ofDigits_eq_foldr] at hdigits
  rw [List.foldl_reverse]
  calc (Nat.digits base n).foldr (fun d v => v * base + d) 0
      = (Nat.digits base n).foldr (fun d v => (d : Nat) + base * v) 0 := by
        congr 1
        funext d v
        rw [Nat.mul_comm, Nat.add_comm]
    _ = n := hdigits

theorem fold64_digits {w : Nat} (hlt : n < 2 ^ 64) :
    fold64 w 0 (Nat.digits (2 ^ w) n).reverse = n := by
  have h := fold64_eq (w := w) (Nat.digits (2 ^ w) n).reverse 0
  rw [foldl_digits, Nat.mod_eq_of_lt hlt] at h
  exact h

/-! ## The identifier -/

theorem firstOctet_spec (cls : BitVec 2) (constructed : Bool) (low : BitVec 5) :
    firstOctet cls constructed low >>> 6 = cls.setWidth 8 ∧
      firstOctet cls constructed low &&& asnIdFConstructed =
        (if constructed then asnIdFConstructed else asnIdFPrimitive) ∧
      firstOctet cls constructed low &&& asnIdCuTagMask = low.setWidth 8 := by
  revert cls constructed low
  decide

theorem setWidth_eq_universal (cls : BitVec 2) :
    cls.setWidth 8 = asnIdClassUniversal → cls = 0 := by
  revert cls
  decide

theorem digit_last : ∀ d < 128, BitVec.ofNat 8 d &&& asnBit8 = 0 ∧ low7 (BitVec.ofNat 8 d) = d := by
  decide

theorem digit_more : ∀ d < 128, (BitVec.ofNat 8 d ||| asnBit8) &&& asnBit8 ≠ 0 ∧
    low7 (BitVec.ofNat 8 d ||| asnBit8) = d := by
  decide

theorem TagOctets.append {ds : List Byte} {b : Byte} (h : b &&& asnBit8 = 0)
    (hds : ∀ c ∈ ds, c &&& asnBit8 ≠ 0) : TagOctets (ds ++ [b]) := by
  induction ds with
  | nil => exact .last h
  | cons c ds ih =>
    exact .more (hds c List.mem_cons_self) (ih fun e he => hds e (List.mem_cons_of_mem c he))

theorem tagOctets_spec (hpos : tag ≠ 0) (hlt : tag < 2 ^ 64) :
    TagOctets (tagOctets tag) ∧ fold64 7 0 ((tagOctets tag).map low7) = tag := by
  have hdigit : ∀ d ∈ Nat.digits 128 tag, d < 128 := fun d hd => Nat.digits_lt_base (by decide) hd
  have hfold : fold64 7 0 (Nat.digits 128 tag).reverse = tag := fold64_digits hlt
  rw [tagOctets]
  cases hds : Nat.digits 128 tag with
  | nil => exact absurd (Nat.digits_eq_nil_iff_eq_zero.mp hds) hpos
  | cons d ds =>
    rw [hds] at hdigit hfold
    rw [List.reverse_cons] at hfold
    obtain ⟨hd, hrest⟩ := List.forall_mem_cons.mp hdigit
    refine ⟨TagOctets.append (digit_last d hd).1 fun c hc => ?_, ?_⟩
    · rw [List.mem_map] at hc
      obtain ⟨e, he, rfl⟩ := hc
      exact (digit_more e (hrest e (List.mem_reverse.mp he))).1
    · have hmap : (ds.reverse.map fun d => BitVec.ofNat 8 d ||| asnBit8).map low7 =
          ds.reverse := by
        rw [List.map_map]
        conv_rhs => rw [← List.map_id ds.reverse]
        apply List.map_congr_left
        intro e he
        exact (digit_more e (hrest e (List.mem_reverse.mp he))).2
      rw [List.map_append, hmap, List.map_singleton, (digit_last d hd).2]
      exact hfold

theorem low5 {tag : Nat} (h : tag < 31) :
    (BitVec.ofNat 5 tag).setWidth 8 ≠ asnIdCuTagLongForm ∧
      ((BitVec.ofNat 5 tag).setWidth 8).toNat = tag := by
  interval_cases tag <;> decide

theorem derIdent_spec (cls : BitVec 2) (constructed : Bool) (hlt : tag < 2 ^ 64) :
    IdentOctets (derIdent cls constructed tag) ∧
      idClass (derIdent cls constructed tag) = cls.setWidth 8 ∧
      idFlag (derIdent cls constructed tag) =
        (if constructed then asnIdFConstructed else asnIdFPrimitive) ∧
      idTag (derIdent cls constructed tag) = tag := by
  rw [derIdent]
  by_cases hshort : tag < 31
  · obtain ⟨hcls, hflag, htag⟩ := firstOctet_spec cls constructed (BitVec.ofNat 5 tag)
    obtain ⟨hne, hval⟩ := low5 hshort
    rw [← htag] at hne hval
    rw [if_pos hshort]
    refine ⟨.short hne, hcls, hflag, ?_⟩
    rw [idTag, List.headD_cons, if_neg hne]
    exact hval
  · obtain ⟨hcls, hflag, htag⟩ := firstOctet_spec cls constructed 31#5
    obtain ⟨hoctets, hval⟩ := tagOctets_spec (by omega) hlt
    rw [if_neg hshort]
    have hlong : firstOctet cls constructed 31#5 &&& asnIdCuTagMask = asnIdCuTagLongForm := htag
    refine ⟨.long hlong hoctets, hcls, hflag, ?_⟩
    rw [idTag, List.headD_cons, if_pos hlong]
    exact hval

/-! ## The length -/

theorem map_toNat_lenOctets (n : Nat) :
    (lenOctets n).map BitVec.toNat = (Nat.digits 256 n).reverse := by
  rw [lenOctets, List.map_map]
  conv_rhs => rw [← List.map_id (Nat.digits 256 n).reverse]
  apply List.map_congr_left
  intro d hd
  have hlt : d < 256 := Nat.digits_lt_base (by decide) (List.mem_reverse.mp hd)
  exact Nat.mod_eq_of_lt hlt

theorem lenOctets_length (hlt : n < 2 ^ 64) : (lenOctets n).length ≤ 8 := by
  rw [lenOctets, List.length_map, List.length_reverse, Nat.digits_length_le_iff (by decide)]
  exact hlt

theorem lenOctets_cons (hpos : n ≠ 0) (hlt : n < 2 ^ 64) :
    ∃ b sig, lenOctets n = b :: sig ∧ b ≠ 0 ∧ sigValue b sig = n := by
  have hmap := map_toNat_lenOctets n
  cases hoctets : lenOctets n with
  | nil =>
    rw [hoctets, List.map_nil] at hmap
    have hnil := List.reverse_eq_nil_iff.mp hmap.symm
    exact absurd (Nat.digits_eq_nil_iff_eq_zero.mp hnil) hpos
  | cons b sig =>
    rw [hoctets, List.map_cons] at hmap
    refine ⟨b, sig, rfl, ?_, ?_⟩
    · -- the first octet is the last digit, and that is not zero
      rintro rfl
      have hne : Nat.digits 256 n ≠ [] := Nat.digits_ne_nil_iff_ne_zero.mpr hpos
      have hlast := Nat.getLast_digit_ne_zero 256 hpos
      have hhead := List.head?_reverse (l := Nat.digits 256 n)
      rw [← hmap, List.head?_cons, List.getLast?_eq_some_getLast hne, Option.some.injEq] at hhead
      exact hlast hhead.symm
    · have hfold : fold64 8 0 (Nat.digits (2 ^ 8) n).reverse = n := fold64_digits hlt
      rw [show (2 : Nat) ^ 8 = 256 from rfl, ← hmap, fold64_cons, Nat.zero_mul, Nat.zero_add,
        Nat.mod_eq_of_lt (Nat.lt_trans b.isLt (by decide))] at hfold
      exact hfold

theorem short_length : ∀ n < 128,
    BitVec.ofNat 8 n &&& asnLenLong = 0 ∧ (BitVec.ofNat 8 n).toNat = n := by
  decide

theorem long_length : ∀ k ≤ 8, (asnLenLong ||| BitVec.ofNat 8 k) &&& asnLenLong ≠ 0 ∧
    lenLow (asnLenLong ||| BitVec.ofNat 8 k) = k := by
  decide

theorem asnLength_der {off hSize : Nat} {content post : List Byte} {bufSize : Nat}
    (hlt : content.length < 2 ^ 64) (hbuf : bufSize < 2 ^ 64)
    (hsize : off + hSize + (derLength content.length).length + (content ++ post).length = bufSize) :
    asnLength bufSize off hSize (derLength content.length ++ (content ++ post)) =
      .ok ⟨hSize + (derLength content.length).length, content.length, content ++ post⟩ := by
  rw [derLength] at hsize ⊢
  by_cases hshort : content.length < 128
  · obtain ⟨hlow, hval⟩ := short_length _ hshort
    rw [if_pos hshort, List.singleton_append, asnLength_short hlow, hval]
    rfl
  · obtain ⟨b, sig, hoctets, hb, hval⟩ := lenOctets_cons (by omega) hlt
    have hle := lenOctets_length hlt
    obtain ⟨hhigh, hlow⟩ := long_length _ hle
    rw [if_neg hshort] at hsize ⊢
    rw [hoctets] at hle hhigh hlow hsize ⊢
    rw [List.length_cons] at hle
    -- the octets have no leading zero, so nothing is skipped
    have hlong : LongLength (asnLenLong ||| BitVec.ofNat 8 (b :: sig).length) [] b sig :=
      ⟨hhigh, fun z hz => absurd hz List.not_mem_nil, hb, by
        rw [hlow, List.length_nil, List.length_cons]
        omega, by omega⟩
    have hrun := @asnLength_long hSize bufSize off _ _ _ _ (content ++ post) hlong
    have hne : content ++ post ≠ [] := by
      intro hnil
      rw [(List.append_eq_nil_iff.mp hnil).1] at hshort
      exact hshort (by decide)
    have hle : content.length ≤ (content ++ post).length := by
      rw [List.length_append]
      exact Nat.le_add_right _ _
    rw [List.length_cons] at hsize
    rw [sub64_content (m := (content ++ post).length) (by omega) hbuf, hval,
      if_neg (fun hor => hor.elim hne (Nat.not_lt.mpr hle)), hlow] at hrun
    have hhdr : hSize + 1 + (b :: sig).length =
        hSize + ((asnLenLong ||| BitVec.ofNat 8 (b :: sig).length) :: b :: sig).length := by
      rw [@List.length_cons _ _ (b :: sig)]
      omega
    rw [← hhdr]
    exact hrun

/-! ## The whole header -/

/-- What the flags check asks of a universal tag. -/
def FlagAllowed (constructed : Bool) (tag : Nat) : Prop :=
  ∃ ps, asnClassUniPs[tag]? = some ps ∧
    (ps = asnIdFPc ∨ (if constructed then asnIdFConstructed else asnIdFPrimitive) = ps)

/-- The call reads back what was encoded, whatever stands before it and behind it. -/
theorem asnParse_der (cls : BitVec 2) (constructed : Bool) (tag : Nat)
    (pre content post : List Byte)
    (htag : tag < 2 ^ 63) (hlen : content.length < 2 ^ 63)
    (huni : cls = 0 → tag < 31 ∧ FlagAllowed constructed tag)
    (hbuf : (pre ++ derHeader cls constructed tag content.length ++ content ++ post).length
      < 2 ^ 64) :
    asnParse (pre ++ derHeader cls constructed tag content.length ++ content ++ post)
        (some pre.length) = .ok {
      offset := (pre ++ derHeader cls constructed tag content.length ++ content).length
      hdrSize := (derHeader cls constructed tag content.length).length
      aclass := cls.setWidth 8
      ps := if constructed then asnIdFConstructed else asnIdFPrimitive
      atag := tag
      data := (pre ++ derHeader cls constructed tag content.length).length
      dataSize := content.length } := by
  obtain ⟨hid, hcls, hflag, hval⟩ := derIdent_spec cls constructed
    (Nat.lt_trans htag (by decide : 2 ^ 63 < 2 ^ 64))
  rw [derHeader] at hbuf ⊢
  generalize hbytes : derIdent cls constructed tag = id at hbuf hid hcls hflag hval ⊢
  have hne : derLength content.length ≠ [] := by
    rw [derLength]
    split_ifs
    · exact List.cons_ne_nil _ _
    · exact List.cons_ne_nil _ _
  obtain ⟨l, tail, hcons⟩ := List.exists_cons_of_ne_nil hne
  -- only the universal class is looked up in the table
  have hflags : FlagsOk id := by
    intro huniversal
    have hzero : cls = 0 := setWidth_eq_universal cls (hcls ▸ huniversal)
    rw [hval, hflag]
    exact (huni hzero).2
  have hdrop : (pre ++ (id ++ derLength content.length) ++ content ++ post).drop
      ((some pre.length).getD 0) = id ++ l :: (tail ++ (content ++ post)) := by
    rw [Option.getD_some, List.append_assoc, List.append_assoc, List.drop_left, hcons,
      List.append_assoc, List.cons_append]
  have hlength := @asnLength_der pre.length id.length _ post _
    (Nat.lt_trans hlen (by decide : 2 ^ 63 < 2 ^ 64)) hbuf (by
      rw [List.length_append, List.length_append, List.length_append, List.length_append,
        List.length_append]
      omega)
  rw [hcons, List.cons_append, ← hcons] at hlength
  rw [List.length_append, List.length_append, List.length_append, List.length_append] at hbuf
  rw [asnParse_split (by simpa only [List.length_append] using hbuf) hid hdrop, Option.getD_some,
    hlength, asnFlags_ok hflags]
  show Except.ok (parsed _ _ id _) = _
  rw [parsed, hcls, hflag, hval]
  congr 2
  · show (pre.length + (id.length + (derLength content.length).length) + content.length) %
      2 ^ 64 = _
    rw [List.length_append, List.length_append, List.length_append]
    omega
  · rw [List.length_append]
  · rw [List.length_append, List.length_append, List.length_append, List.length_append,
      List.length_append]
    omega

/-- A context tag of 40 in front of three bytes. -/
theorem asnParse_der_context :
    asnParse ([0x00#8] ++ derHeader 2 true 40 3 ++ [1#8, 2#8, 3#8] ++ [9#8]) (some 1) =
      .ok ⟨7, 3, 2, asnIdFConstructed, 40, 4, 3⟩ :=
  asnParse_der 2 true 40 [0x00#8] [1#8, 2#8, 3#8] [9#8] (by decide) (by decide)
    (fun h => absurd h (by decide)) (by decide)

end Asn1
