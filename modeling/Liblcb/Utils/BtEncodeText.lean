import Liblcb.Utils.BtEncodeSpec

/-!
# The texts of the decoder

Which texts the decoder accepts and which it refuses, as a grammar over the positions of the buffer.
-/

namespace BtEncode

open Mem

/-! ## The texts that are accepted and refused -/

/-- A call of the decoder, and its loops over what is in a list and in a dictionary. -/
inductive Part where
  | item
  | items
  | pairs

/-- The size that is read in front of the colon of a string. -/
def strSize (buf : List Byte) (pos colon : Nat) : Nat :=
  (ustr2usize ((buf.drop pos).take (colon - pos))).toNat

def DigitAt (buf : List Byte) (pos : Nat) : Prop := ∃ b, buf[pos]? = some b ∧ IsDigit b

/-- A string begins at `pos`, and its end is in the address space. -/
structure StrAt (addr : Nat) (buf : List Byte) (pos colon : Nat) : Prop where
  digit : DigitAt buf pos
  found : memChrOff (pos + 1) buf (chr ':') = some colon
  room : addr + (colon + 1) + strSize buf pos colon < 2 ^ 64

/-- The texts that are accepted, from where they begin to where they end; that of a loop ends at the
position of the end marker.  A key that is no string ends a dictionary where it begins. -/
inductive Text (addr : Nat) (buf : List Byte) : Part → Nat → Nat → Prop
  | str {pos colon : Nat} : StrAt addr buf pos colon →
      colon + 1 + strSize buf pos colon < buf.length →
      Text addr buf .item pos (colon + 1 + strSize buf pos colon)
  | num {pos last : Nat} : buf[pos]? = some (chr 'i') →
      memChrOff (pos + 1) buf (chr 'e') = some last → Text addr buf .item pos (last + 1)
  | list {pos last : Nat} : buf[pos]? = some (chr 'l') → Text addr buf .items (pos + 1) last →
      Text addr buf .item pos (last + 1)
  | dict {pos last : Nat} : buf[pos]? = some (chr 'd') → Text addr buf .pairs (pos + 1) last →
      Text addr buf .item pos (last + 1)
  | last {pos q : Nat} : Text addr buf .item pos q → buf[q]? = some (chr 'e') →
      Text addr buf .items pos q
  | more {pos q r : Nat} {b : Byte} : Text addr buf .item pos q → buf[q]? = some b → b ≠ chr 'e' →
      Text addr buf .items q r → Text addr buf .items pos r
  | lastPair {pos q r : Nat} : DigitAt buf pos → Text addr buf .item pos q →
      Text addr buf .item q r → buf[r]? = some (chr 'e') → Text addr buf .pairs pos r
  | morePairs {pos q r s : Nat} {b : Byte} : DigitAt buf pos → Text addr buf .item pos q →
      Text addr buf .item q r → buf[r]? = some b → b ≠ chr 'e' → Text addr buf .pairs r s →
      Text addr buf .pairs pos s
  | noKey {pos q : Nat} : ¬ DigitAt buf pos → Text addr buf .item pos q →
      Text addr buf .pairs pos pos

/-- The texts that are refused: something in them is no item, and what stands in front of it is
accepted and goes on inside the buffer. -/
inductive Wrong (addr : Nat) (buf : List Byte) : Part → Nat → Prop
  | nothing {pos : Nat} : buf[pos]? = none → Wrong addr buf .item pos
  | other {pos : Nat} {b : Byte} : buf[pos]? = some b → ¬ IsDigit b →
      b ∉ [chr 'i', chr 'l', chr 'd'] → Wrong addr buf .item pos
  | noColon {pos : Nat} : DigitAt buf pos → memChrOff (pos + 1) buf (chr ':') = none →
      Wrong addr buf .item pos
  | tooLong {pos colon : Nat} : StrAt addr buf pos colon →
      buf.length ≤ colon + 1 + strSize buf pos colon → Wrong addr buf .item pos
  | noEnd {pos : Nat} : buf[pos]? = some (chr 'i') → memChrOff (pos + 1) buf (chr 'e') = none →
      Wrong addr buf .item pos
  | list {pos : Nat} : buf[pos]? = some (chr 'l') → Wrong addr buf .items (pos + 1) →
      Wrong addr buf .item pos
  | dict {pos : Nat} : buf[pos]? = some (chr 'd') → Wrong addr buf .pairs (pos + 1) →
      Wrong addr buf .item pos
  | elem {pos : Nat} : Wrong addr buf .item pos → Wrong addr buf .items pos
  | more {pos q : Nat} {b : Byte} : Text addr buf .item pos q → buf[q]? = some b → b ≠ chr 'e' →
      Wrong addr buf .items q → Wrong addr buf .items pos
  | key {pos : Nat} : Wrong addr buf .item pos → Wrong addr buf .pairs pos
  | val {pos q : Nat} : DigitAt buf pos → Text addr buf .item pos q → Wrong addr buf .item q →
      Wrong addr buf .pairs pos
  | morePairs {pos q r : Nat} {b : Byte} : DigitAt buf pos → Text addr buf .item pos q →
      Text addr buf .item q r → buf[r]? = some b → b ≠ chr 'e' → Wrong addr buf .pairs r →
      Wrong addr buf .pairs pos

variable {addr : Nat} {buf : List Byte} {pos q fuel : Nat} {k : Part}

/-! ## Where a call ends -/

/-- What a call or a loop returns, as the position where it ends. -/
def ends (addr : Nat) (buf : List Byte) (fuel : Nat) : Part → Nat → Except Err Nat
  | .item, pos => (decode addr buf fuel pos).map fun r => pos + r.2
  | .items, pos => (decodeItems addr buf fuel pos).map fun r => r.2
  | .pairs, pos => (decodePairs addr buf fuel pos).map fun r => r.2

def needs (buf : List Byte) : Part → Nat → Nat
  | .item, pos => 2 * (buf.length - pos) + 1
  | _, pos => 2 * (buf.length - pos) + 2

def Refused (r : Except Err Nat) : Prop := r = .error .einval ∨ r = .error .ebadmsg

theorem Refused.bind {x : Except Err Nat} (h : Refused x) (f : Nat → Except Err Nat) :
    Refused (x >>= f) := by
  rcases h with rfl | rfl
  · exact .inl rfl
  · exact .inr rfl

theorem Refused.map {x : Except Err Nat} (h : Refused x) (f : Nat → Nat) : Refused (x.map f) := by
  rcases h with rfl | rfl
  · exact .inl rfl
  · exact .inr rfl

/-- A text that is accepted goes on, and ends in the buffer. -/
def Text.Bounds (buf : List Byte) : Part → Nat → Nat → Prop
  | .item, pos, q => pos < q ∧ q ≤ buf.length
  | .items, pos, q => pos < q ∧ q < buf.length
  | .pairs, pos, q => pos ≤ q ∧ q < buf.length

theorem lt_length {b : Byte} (h : buf[pos]? = some b) : pos < buf.length :=
  (List.getElem?_eq_some_iff.mp h).1

theorem Text.bounds (h : Text addr buf k pos q) : Text.Bounds buf k pos q := by
  induction h with
  | str hstr hlt =>
    have hb := memChrOff_bounds hstr.found
    exact ⟨by omega, Nat.le_of_lt hlt⟩
  | num _ hlast =>
    have hb := memChrOff_bounds hlast
    exact ⟨by omega, by omega⟩
  | list _ _ ih => exact ⟨by have := ih.1; omega, ih.2⟩
  | dict _ _ ih => exact ⟨by have := ih.1; omega, ih.2⟩
  | last _ hend ih => exact ⟨ih.1, lt_length hend⟩
  | more _ _ _ _ ih ihmore => exact ⟨Nat.lt_trans ih.1 ihmore.1, ihmore.2⟩
  | lastPair _ _ _ hend ihkey ihval =>
    exact ⟨Nat.le_of_lt (Nat.lt_trans ihkey.1 ihval.1), lt_length hend⟩
  | morePairs _ _ _ _ _ _ ihkey ihval ihmore =>
    exact ⟨Nat.le_trans (Nat.le_of_lt (Nat.lt_trans ihkey.1 ihval.1)) ihmore.1, ihmore.2⟩
  | noKey _ _ ih => exact ⟨Nat.le_refl _, Nat.lt_of_lt_of_le ih.1 ih.2⟩

/-! ### One call -/

theorem decode_digit (h : DigitAt buf pos) :
    decode addr buf (fuel + 1) pos = decodeStr addr buf pos := by
  obtain ⟨b, hb, hdigit⟩ := h
  rw [decode, hb]
  exact if_pos hdigit

theorem decodeStr_room {colon : Nat} (h : StrAt addr buf pos colon) : decodeStr addr buf pos =
    if buf.length ≤ colon + 1 + strSize buf pos colon then .error .ebadmsg
    else .ok (.str (colon + 1) (strSize buf pos colon),
      strSize buf pos colon + (colon + 1 - pos)) := by
  have hroom : ¬ 2 ^ 64 ≤ addr + (colon + 1) + strSize buf pos colon := Nat.not_le.mpr h.room
  rw [decodeStr, h.found, Nat.add_comm (colon + 1)]
  exact if_neg hroom

theorem decodeStr_noRoom {colon : Nat} (h : memChrOff (pos + 1) buf (chr ':') = some colon)
    (hroom : 2 ^ 64 ≤ addr + (colon + 1) + strSize buf pos colon) :
    decodeStr addr buf pos = .error .undef := by
  rw [decodeStr, h]
  exact if_pos hroom

theorem ends_str {colon : Nat} (h : StrAt addr buf pos colon) :
    ends addr buf (fuel + 1) .item pos =
      if buf.length ≤ colon + 1 + strSize buf pos colon then .error .ebadmsg
      else .ok (colon + 1 + strSize buf pos colon) := by
  have hb := memChrOff_bounds h.found
  rw [ends, decode_digit h.digit, decodeStr_room h]
  by_cases hlong : buf.length ≤ colon + 1 + strSize buf pos colon
  · rw [if_pos hlong, if_pos hlong]
    rfl
  · rw [if_neg hlong, if_neg hlong]
    show Except.ok (pos + (strSize buf pos colon + (colon + 1 - pos))) = _
    congr 1
    omega

theorem ends_noColon (h : DigitAt buf pos) (hno : memChrOff (pos + 1) buf (chr ':') = none) :
    ends addr buf (fuel + 1) .item pos = .error .ebadmsg := by
  rw [ends, decode_digit h, decodeStr, hno]
  rfl

theorem decode_num (h : buf[pos]? = some (chr 'i')) :
    decode addr buf (fuel + 1) pos = decodeNum buf pos := by
  rw [decode, h]
  rfl

theorem ends_num (h : buf[pos]? = some (chr 'i')) : ends addr buf (fuel + 1) .item pos =
    match memChrOff (pos + 1) buf (chr 'e') with
    | none => .error .ebadmsg
    | some last => .ok (last + 1) := by
  rw [ends, decode_num h, decodeNum]
  cases hlast : memChrOff (pos + 1) buf (chr 'e') with
  | none => rfl
  | some last =>
    have hb := memChrOff_bounds hlast
    show Except.ok (pos + (last - pos + 1)) = _
    congr 1
    omega

theorem ends_list (h : buf[pos]? = some (chr 'l')) : ends addr buf (fuel + 1) .item pos =
    (ends addr buf fuel .items (pos + 1)).map (· + 1) := by
  rw [ends, ends, decode, h]
  change (decodeItems addr buf fuel (pos + 1) >>= _).map _ = _
  cases hitems : decodeItems addr buf fuel (pos + 1) with
  | error e => rfl
  | ok r =>
    obtain ⟨l, last⟩ := r
    have hle := ((decode_ok addr buf fuel).2.1 _ _ _ hitems).2.1
    show Except.ok (pos + (last - pos + 1)) = .ok (last + 1)
    congr 1
    omega

theorem ends_dict (h : buf[pos]? = some (chr 'd')) : ends addr buf (fuel + 1) .item pos =
    (ends addr buf fuel .pairs (pos + 1)).map (· + 1) := by
  rw [ends, ends, decode, h]
  change (decodePairs addr buf fuel (pos + 1) >>= _).map _ = _
  cases hpairs : decodePairs addr buf fuel (pos + 1) with
  | error e => rfl
  | ok r =>
    obtain ⟨d, last⟩ := r
    have hle := ((decode_ok addr buf fuel).2.2 _ _ _ hpairs).2.1
    show Except.ok (pos + (last - pos + 1)) = .ok (last + 1)
    congr 1
    omega

theorem ends_nothing (h : buf[pos]? = none) :
    ends addr buf (fuel + 1) .item pos = .error .einval := by
  rw [ends, decode, h]
  rfl

theorem ends_other {b : Byte} (h : buf[pos]? = some b) (hdigit : ¬ IsDigit b)
    (hb : b ∉ [chr 'i', chr 'l', chr 'd']) :
    ends addr buf (fuel + 1) .item pos = .error .ebadmsg := by
  simp only [List.mem_cons, List.not_mem_nil, or_false, not_or] at hb
  have hnot : ¬ (chr '0' ≤ b ∧ b ≤ chr '9') := hdigit
  rw [ends, decode, h]
  dsimp only
  rw [if_neg hnot, if_neg hb.1, if_neg hb.2.1, if_neg hb.2.2]
  rfl

theorem ends_items : ends addr buf (fuel + 1) .items pos =
    ends addr buf fuel .item pos >>= fun q => atEnd buf q >>= fun last =>
      if last then .ok q else ends addr buf fuel .items q := by
  show (decodeItems addr buf (fuel + 1) pos).map (fun r => r.2) =
    (decode addr buf fuel pos).map (fun r => pos + r.2) >>= _
  rw [decodeItems]
  cases hnode : decode addr buf fuel pos with
  | error e => rfl
  | ok r =>
    obtain ⟨node, off⟩ := r
    show ((atEnd buf (pos + off)) >>= _).map _ = (atEnd buf (pos + off)) >>= _
    cases hlast : atEnd buf (pos + off) with
    | error e => rfl
    | ok last =>
      cases last with
      | true => rfl
      | false =>
        show (decodeItems addr buf fuel (pos + off) >>= _).map _ =
          ends addr buf fuel .items (pos + off)
        rw [ends]
        cases hitems : decodeItems addr buf fuel (pos + off) <;> rfl

theorem decodeStr_isStr {node : Node} {off : Nat} (h : decodeStr addr buf pos = .ok (node, off)) :
    node.isStr = true := by
  rw [decodeStr] at h
  cases hcolon : memChrOff (pos + 1) buf (chr ':') with
  | none =>
    rw [hcolon] at h
    cases h
  | some colon =>
    rw [hcolon] at h
    dsimp only at h
    split at h
    · cases h
    · split at h
      · cases h
      · rw [Except.ok.injEq, Prod.mk.injEq] at h
        rw [← h.1]
        rfl

theorem decodeNum_isStr {node : Node} {off : Nat} (h : decodeNum buf pos = .ok (node, off)) :
    node.isStr = false := by
  rw [decodeNum] at h
  cases hlast : memChrOff (pos + 1) buf (chr 'e') with
  | none =>
    rw [hlast] at h
    cases h
  | some last =>
    rw [hlast, Except.ok.injEq, Prod.mk.injEq] at h
    rw [← h.1]
    rfl

theorem isStr_of_digit {node : Node} {off : Nat} (hdigit : DigitAt buf pos)
    (h : decode addr buf fuel pos = .ok (node, off)) : node.isStr = true := by
  cases fuel with
  | zero => cases h
  | succ fuel =>
    rw [decode_digit hdigit] at h
    exact decodeStr_isStr h

theorem isStr_of_notDigit {node : Node} {off : Nat} (hdigit : ¬ DigitAt buf pos)
    (h : decode addr buf fuel pos = .ok (node, off)) : node.isStr = false := by
  cases fuel with
  | zero => cases h
  | succ fuel =>
    rw [decode] at h
    cases hb : buf[pos]? with
    | none =>
      rw [hb] at h
      cases h
    | some b =>
      have hnot : ¬ (chr '0' ≤ b ∧ b ≤ chr '9') := fun hd => hdigit ⟨b, hb, hd⟩
      rw [hb] at h
      dsimp only at h
      rw [if_neg hnot] at h
      split at h
      · exact decodeNum_isStr h
      split at h
      · obtain ⟨r, -, hr⟩ := bind_ok h
        cases hr
        rfl
      split at h
      · obtain ⟨r, -, hr⟩ := bind_ok h
        cases hr
        rfl
      · cases h

theorem ends_pairs (hdigit : DigitAt buf pos) : ends addr buf (fuel + 1) .pairs pos =
    ends addr buf fuel .item pos >>= fun q => ends addr buf fuel .item q >>= fun r =>
      atEnd buf r >>= fun last => if last then .ok r else ends addr buf fuel .pairs r := by
  show (decodePairs addr buf (fuel + 1) pos).map (fun r => r.2) =
    (decode addr buf fuel pos).map (fun r => pos + r.2) >>= _
  rw [decodePairs]
  cases hkey : decode addr buf fuel pos with
  | error e => rfl
  | ok r =>
    obtain ⟨key, off⟩ := r
    -- the type of the key is looked at before the value is decoded
    have hstr := isStr_of_digit hdigit hkey
    show (if key.isStr = true then _ else _ : Except Err (Pairs × Nat)).map _ = _
    rw [if_pos hstr]
    show (decode addr buf fuel (pos + off) >>= _).map _ =
      (decode addr buf fuel (pos + off)).map (fun r => pos + off + r.2) >>= _
    cases hval : decode addr buf fuel (pos + off) with
    | error e => rfl
    | ok r =>
      obtain ⟨val, voff⟩ := r
      show ((atEnd buf (pos + off + voff)) >>= _).map _ = atEnd buf (pos + off + voff) >>= _
      cases hlast : atEnd buf (pos + off + voff) with
      | error e => rfl
      | ok last =>
        cases last with
        | true => rfl
        | false =>
          show (decodePairs addr buf fuel (pos + off + voff) >>= _).map _ =
            (decodePairs addr buf fuel (pos + off + voff)).map _
          cases hpairs : decodePairs addr buf fuel (pos + off + voff) <;> rfl

theorem ends_noKey (hdigit : ¬ DigitAt buf pos) : ends addr buf (fuel + 1) .pairs pos =
    (ends addr buf fuel .item pos).map fun _ => pos := by
  show (decodePairs addr buf (fuel + 1) pos).map (fun r => r.2) =
    ((decode addr buf fuel pos).map fun r => pos + r.2).map _
  rw [decodePairs]
  cases hkey : decode addr buf fuel pos with
  | error e => rfl
  | ok r =>
    obtain ⟨key, off⟩ := r
    -- the loop ends without an error, at the key
    have hstr := isStr_of_notDigit hdigit hkey
    show (if key.isStr = true then _ else _ : Except Err (Pairs × Nat)).map _ = _
    rw [hstr]
    rfl

theorem atEnd_eq {b : Byte} (h : buf[pos]? = some b) : atEnd buf pos = .ok (b = chr 'e') := by
  rw [atEnd, if_neg (Nat.not_lt.mpr (Nat.le_of_lt (lt_length h))), h]

/-! ## The texts and the decoder -/

section Fuel

theorem needs_succ (h : needs buf k pos ≤ fuel) : ∃ fuel', fuel = fuel' + 1 := by
  have hpos : 0 < needs buf k pos := by
    cases k <;> exact Nat.succ_pos _
  exact ⟨fuel - 1, by omega⟩

theorem of_needs {P : Nat → Prop} (h : ∀ fuel, needs buf k pos ≤ fuel + 1 → P (fuel + 1)) :
    ∀ fuel, needs buf k pos ≤ fuel → P fuel := by
  intro fuel hfuel
  obtain ⟨fuel', rfl⟩ := needs_succ hfuel
  exact h fuel' hfuel

theorem needs_inside (hlt : pos < buf.length) (h : needs buf .item pos ≤ fuel + 1) :
    needs buf .items (pos + 1) ≤ fuel := by
  simp only [needs] at h ⊢
  omega

theorem needs_first (h : needs buf .items pos ≤ fuel + 1) : needs buf .item pos ≤ fuel := by
  simp only [needs] at h ⊢
  omega

theorem needs_next (hitem : Text addr buf .item pos q) (h : needs buf .items pos ≤ fuel + 1) :
    needs buf .items q ≤ fuel := by
  have hb : pos < q ∧ q ≤ buf.length := hitem.bounds
  simp only [needs] at h ⊢
  omega

theorem needs_item (h : needs buf .items pos ≤ fuel) : needs buf .item pos ≤ fuel := by
  simp only [needs] at h ⊢
  omega

end Fuel

/-- A text that is accepted is decoded up to its end. -/
theorem Text.decoded (h : Text addr buf k pos q) : ∀ fuel, needs buf k pos ≤ fuel →
    ends addr buf fuel k pos = .ok q := by
  induction h with
  | str hstr hlt =>
    refine of_needs fun fuel hfuel => ?_
    rw [ends_str hstr, if_neg (Nat.not_le.mpr hlt)]
  | num hi hlast =>
    refine of_needs fun fuel hfuel => ?_
    rw [ends_num hi, hlast]
  | list hl hitems ih =>
    refine of_needs fun fuel hfuel => ?_
    rw [ends_list hl, ih _ (needs_inside (lt_length hl) hfuel)]
    rfl
  | dict hd hpairs ih =>
    refine of_needs fun fuel hfuel => ?_
    rw [ends_dict hd, ih _ (needs_inside (lt_length hd) hfuel)]
    rfl
  -- an item, and the end marker behind it
  | last hitem hend ih =>
    refine of_needs fun fuel hfuel => ?_
    rw [ends_items, ih _ (needs_first hfuel)]
    show atEnd _ _ >>= _ = _
    rw [atEnd_eq hend]
    rfl
  | more hitem hb hne hmore ih ihmore =>
    refine of_needs fun fuel hfuel => ?_
    rw [ends_items, ih _ (needs_first hfuel)]
    show atEnd _ _ >>= _ = _
    rw [atEnd_eq hb, decide_eq_false hne]
    exact ihmore _ (needs_next hitem hfuel)
  -- a key and a value, and the end marker behind them
  | lastPair hdigit hkey hval hend ihkey ihval =>
    refine of_needs fun fuel hfuel => ?_
    rw [ends_pairs hdigit, ihkey _ (needs_first hfuel)]
    show ends _ _ _ _ _ >>= _ = _
    rw [ihval _ (needs_item (needs_next hkey hfuel))]
    show atEnd _ _ >>= _ = _
    rw [atEnd_eq hend]
    rfl
  | morePairs hdigit hkey hval hb hne hmore ihkey ihval ihmore =>
    refine of_needs fun fuel hfuel => ?_
    have hnext := needs_next hkey hfuel
    rw [ends_pairs hdigit, ihkey _ (needs_first hfuel)]
    show ends _ _ _ _ _ >>= _ = _
    rw [ihval _ (needs_item hnext)]
    show atEnd _ _ >>= _ = _
    rw [atEnd_eq hb, decide_eq_false hne]
    exact ihmore _ (needs_next hval (Nat.le_succ_of_le hnext))
  | noKey hdigit hitem ih =>
    refine of_needs fun fuel hfuel => ?_
    rw [ends_noKey hdigit, ih _ (needs_first hfuel)]
    rfl

/-- A text that is wrong is refused. -/
theorem Wrong.refused (h : Wrong addr buf k pos) : ∀ fuel, needs buf k pos ≤ fuel →
    Refused (ends addr buf fuel k pos) := by
  induction h with
  | nothing hnone =>
    refine of_needs fun fuel hfuel => ?_
    exact .inl (ends_nothing hnone)
  | other hb hdigit hkind =>
    refine of_needs fun fuel hfuel => ?_
    exact .inr (ends_other hb hdigit hkind)
  | noColon hdigit hno =>
    refine of_needs fun fuel hfuel => ?_
    exact .inr (ends_noColon hdigit hno)
  | tooLong hstr hlong =>
    refine of_needs fun fuel hfuel => ?_
    rw [ends_str hstr, if_pos hlong]
    exact .inr rfl
  | noEnd hi hno =>
    refine of_needs fun fuel hfuel => ?_
    rw [ends_num hi, hno]
    exact .inr rfl
  | list hl hitems ih =>
    refine of_needs fun fuel hfuel => ?_
    rw [ends_list hl]
    exact (ih _ (needs_inside (lt_length hl) hfuel)).map _
  | dict hd hpairs ih =>
    refine of_needs fun fuel hfuel => ?_
    rw [ends_dict hd]
    exact (ih _ (needs_inside (lt_length hd) hfuel)).map _
  | elem hitem ih =>
    refine of_needs fun fuel hfuel => ?_
    rw [ends_items]
    exact (ih _ (needs_first hfuel)).bind _
  | more hitem hb hne hmore ihmore =>
    refine of_needs fun fuel hfuel => ?_
    -- the item is decoded, and what comes behind it is refused
    rw [ends_items, hitem.decoded _ (needs_first hfuel)]
    show Refused (atEnd _ _ >>= _)
    rw [atEnd_eq hb, decide_eq_false hne]
    exact ihmore _ (needs_next hitem hfuel)
  | @key pos hkey ih =>
    refine of_needs fun fuel hfuel => ?_
    by_cases hdigit : DigitAt buf pos
    · rw [ends_pairs hdigit]
      exact (ih _ (needs_first hfuel)).bind _
    · rw [ends_noKey hdigit]
      exact (ih _ (needs_first hfuel)).map _
  | val hdigit hkey hval ih =>
    refine of_needs fun fuel hfuel => ?_
    rw [ends_pairs hdigit, hkey.decoded _ (needs_first hfuel)]
    show Refused (ends _ _ _ _ _ >>= _)
    exact (ih _ (needs_item (needs_next hkey hfuel))).bind _
  | morePairs hdigit hkey hval hb hne hmore ihmore =>
    refine of_needs fun fuel hfuel => ?_
    have hnext := needs_next hkey hfuel
    rw [ends_pairs hdigit, hkey.decoded _ (needs_first hfuel)]
    show Refused (ends _ _ _ _ _ >>= _)
    rw [hval.decoded _ (needs_item hnext)]
    show Refused (atEnd _ _ >>= _)
    rw [atEnd_eq hb, decide_eq_false hne]
    exact ihmore _ (needs_next hval (Nat.le_succ_of_le hnext))

def Judged (addr : Nat) (buf : List Byte) (k : Part) (pos : Nat) : Except Err Nat → Prop
  | .ok q => Text addr buf k pos q
  | .error .undef => True
  | .error .noReturn => True
  | .error _ => Wrong addr buf k pos

section Judged

variable {k' : Part} {pos' : Nat} {x : Except Err Nat}

theorem judged_bind {f : Nat → Except Err Nat} (h : Judged addr buf k pos x)
    (hwrong : Wrong addr buf k pos → Wrong addr buf k' pos')
    (htext : ∀ q, Text addr buf k pos q → Judged addr buf k' pos' (f q)) :
    Judged addr buf k' pos' (x >>= f) := by
  cases x with
  | ok q => exact htext q h
  | error e =>
    cases e with
    | einval => exact hwrong h
    | ebadmsg => exact hwrong h
    | undef => trivial
    | noReturn => trivial

theorem judged_map {f : Nat → Nat} (h : Judged addr buf k pos x)
    (hwrong : Wrong addr buf k pos → Wrong addr buf k' pos')
    (htext : ∀ q, Text addr buf k pos q → Text addr buf k' pos' (f q)) :
    Judged addr buf k' pos' (x.map f) := by
  have hbind : x.map f = x >>= fun q => .ok (f q) := by
    cases x <;> rfl
  rw [hbind]
  exact judged_bind h hwrong htext

theorem judged_imp (h : Judged addr buf k pos x)
    (hwrong : Wrong addr buf k pos → Wrong addr buf k' pos')
    (htext : ∀ q, Text addr buf k pos q → Text addr buf k' pos' q) : Judged addr buf k' pos' x := by
  have hmap := judged_map (f := id) h hwrong htext
  rwa [Except.map_id] at hmap

theorem judged_atEnd (hq : q ≤ buf.length)
    (hend : buf[q]? = some (chr 'e') → Text addr buf k pos q)
    (hmore : ∀ b, buf[q]? = some b → b ≠ chr 'e' → Judged addr buf k pos x) :
    Judged addr buf k pos (atEnd buf q >>= fun last => if last then .ok q else x) := by
  cases hb : buf[q]? with
  | none =>
    -- the byte behind the buffer is read
    have hundef : atEnd buf q = .error .undef := by
      rw [atEnd, if_neg (Nat.not_lt.mpr hq), hb]
    rw [hundef]
    trivial
  | some b =>
    rw [atEnd_eq hb]
    show Judged addr buf k pos (if decide (b = chr 'e') = true then .ok q else x)
    by_cases he : b = chr 'e'
    · rw [decide_eq_true he, if_pos rfl]
      exact hend (he ▸ hb)
    · rw [decide_eq_false he]
      exact hmore b hb he

theorem judged_str (hdigit : DigitAt buf pos) :
    Judged addr buf .item pos (ends addr buf (fuel + 1) .item pos) := by
  cases hcolon : memChrOff (pos + 1) buf (chr ':') with
  | none =>
    rw [ends_noColon hdigit hcolon]
    exact Wrong.noColon hdigit hcolon
  | some colon =>
    by_cases hroom : addr + (colon + 1) + strSize buf pos colon < 2 ^ 64
    · have hstr : StrAt addr buf pos colon := ⟨hdigit, hcolon, hroom⟩
      rw [ends_str hstr]
      by_cases hlong : buf.length ≤ colon + 1 + strSize buf pos colon
      · rw [if_pos hlong]
        exact Wrong.tooLong hstr hlong
      · rw [if_neg hlong]
        exact Text.str hstr (Nat.not_le.mp hlong)
    · -- the end of the string wraps
      rw [ends, decode_digit hdigit, decodeStr_noRoom hcolon (Nat.not_lt.mp hroom)]
      trivial

theorem judged_num (h : buf[pos]? = some (chr 'i')) :
    Judged addr buf .item pos (ends addr buf (fuel + 1) .item pos) := by
  rw [ends_num h]
  cases hlast : memChrOff (pos + 1) buf (chr 'e') with
  | none => exact Wrong.noEnd h hlast
  | some last => exact Text.num h hlast

end Judged

theorem judged (addr : Nat) (buf : List Byte) (fuel : Nat) :
    ∀ k pos, Judged addr buf k pos (ends addr buf fuel k pos) := by
  induction fuel with
  | zero =>
    intro k pos
    cases k <;> exact trivial
  | succ fuel ih =>
    intro k pos
    cases k with
    | item =>
      cases hb : buf[pos]? with
      | none =>
        rw [ends_nothing hb]
        exact Wrong.nothing hb
      | some b =>
        by_cases hdigit : IsDigit b
        · exact judged_str ⟨b, hb, hdigit⟩
        by_cases hkind : b ∈ [chr 'i', chr 'l', chr 'd']
        · simp only [List.mem_cons, List.not_mem_nil, or_false] at hkind
          rcases hkind with rfl | rfl | rfl
          · exact judged_num hb
          · rw [ends_list hb]
            exact judged_map (ih .items (pos + 1)) (.list hb) fun q => .list hb
          · rw [ends_dict hb]
            exact judged_map (ih .pairs (pos + 1)) (.dict hb) fun q => .dict hb
        · rw [ends_other hb hdigit hkind]
          exact Wrong.other hb hdigit hkind
    | items =>
      rw [ends_items]
      refine judged_bind (ih .item pos) .elem fun q hitem => ?_
      refine judged_atEnd hitem.bounds.2 (.last hitem) fun b hb hne => ?_
      exact judged_imp (ih .items q) (.more hitem hb hne) fun r => .more hitem hb hne
    | pairs =>
      by_cases hdigit : DigitAt buf pos
      · rw [ends_pairs hdigit]
        refine judged_bind (ih .item pos) .key fun q hkey => ?_
        refine judged_bind (ih .item q) (.val hdigit hkey) fun r hval => ?_
        refine judged_atEnd hval.bounds.2 (.lastPair hdigit hkey hval) fun b hb hne => ?_
        exact judged_imp (ih .pairs r) (.morePairs hdigit hkey hval hb hne)
          fun s => .morePairs hdigit hkey hval hb hne
      · rw [ends_noKey hdigit]
        exact judged_map (ih .item pos) .key fun q => .noKey hdigit

end BtEncode
