import Liblcb.Proto.DnsSafety

/-!
# The checked and the unchecked readers

Where nothing is accessed outside, the readers with every access checked return what the readers
over the plain list of bytes do.
-/

namespace Dns.Read

open Mem Wire Buffer Progress

variable {buf : List Byte} {msgSize maxPos offset : Nat}

/-- The unchecked call returns the same wherever nothing is accessed outside. -/
structure Agrees {α : Type} (r : Except Stop α) (r' : Except Errno α) : Prop where
  ok : ∀ a, r = .ok a → r' = .ok a
  errno : ∀ e, r = .error (.errno e) → r' = .error e

theorem Agrees.done {α : Type} (a : α) : Agrees (.ok a) (.ok a) :=
  ⟨fun _ h => congrArg Except.ok (Except.ok.inj h), (fun _ h => by cases h)⟩

theorem Agrees.refused {α : Type} (e : Errno) :
    Agrees (.error (.errno e) : Except Stop α) (.error e) :=
  ⟨(fun _ h => by cases h), fun _ h => congrArg Except.error (Stop.errno.inj (Except.error.inj h))⟩

theorem Agrees.outside {α : Type} {r' : Except Errno α} {e : Stop} (he : e = .read ∨ e = .write) :
    Agrees (.error e) r' := by
  refine ⟨(fun _ h => by cases h), fun e' h => ?_⟩
  cases h
  rcases he with he | he <;> cases he

theorem sizeLoop_agrees (off n : Nat) : ∀ (fuel cur : Nat), n - cur < fuel →
    Agrees (ended (run (catching (sizeTurn buf off n)) (n + 1 - ·) cur))
      (labelsSizeLoop buf off n fuel cur)
  | 0, _, h => absurd h (Nat.not_lt_zero _)
  | fuel + 1, cur, h => by
    -- the only read of the turn
    by_cases hin : off + cur < buf.length
    case neg =>
      have hturn : sizeTurn buf off n cur = .error .read := by
        rw [sizeTurn, readByte_error (Nat.le_of_not_lt hin)]
        rfl
      rw [ended_error hturn]
      exact .outside (.inl rfl)
    have hturn : sizeTurn buf off n cur = (do
        let label ← (.ok (byteAt buf (off + cur)) : Except Stop Byte)
        let cur := cur + 1
        if label &&& labelCtrlMask = 0x00#8 then
          let len := (label &&& labelDataMask).toNat
          if n < cur + len then .error (.errno .ebadmsg)
          else if len = 0 then .ok (.done cur)
          else .ok (.again (cur + len))
        else if label &&& labelCtrlMask = 0xc0#8 then .ok (.done (cur + 1))
        else .ok (.done cur)) := by
      rw [sizeTurn, readByte_ok hin]
    change sizeTurn buf off n cur = (if _ then _ else _) at hturn
    rw [labelsSizeLoop]
    simp only at hturn ⊢
    split at hturn
    · next hctrl =>
      rw [if_pos hctrl]
      split at hturn
      · next hbad =>
        rw [if_pos hbad, ended_error hturn]
        exact .refused _
      next hfit =>
      rw [if_neg hfit]
      split at hturn
      · next hzero =>
        rw [if_pos hzero, ended_done hturn]
        exact .done _
      · next hne =>
        rw [if_neg hne, ended_again (sizeTurn_lowers buf off n) hturn]
        exact sizeLoop_agrees off n fuel _ (by omega)
    · next hctrl =>
      rw [if_neg hctrl]
      split at hturn
      · next hptr =>
        rw [if_pos hptr, ended_done hturn]
        exact .done _
      · next hptr =>
        rw [if_neg hptr, ended_done hturn]
        exact .done _

theorem sequenceOfLabelsGetSize_agrees (off n : Nat) :
    Agrees (sequenceOfLabelsGetSize buf off n) (Dns.sequenceOfLabelsGetSize buf off n) := by
  rw [sequenceOfLabelsGetSize, Dns.sequenceOfLabelsGetSize]
  split
  · exact .refused _
  · exact sizeLoop_agrees off n (n + 1) 0 (by omega)

theorem Agrees.bind {α β : Type} {x : Except Stop α} {x' : Except Errno α}
    {f : α → Except Stop β} {f' : α → Except Errno β} (hx : Agrees x x')
    (hf : ∀ a, x = .ok a → Agrees (f a) (f' a)) : Agrees (x >>= f) (x' >>= f') := by
  cases hr : x with
  | ok a =>
    rw [hx.ok a hr]
    exact hf a hr
  | error e =>
    cases e with
    | read => exact .outside (.inl rfl)
    | write => exact .outside (.inr rfl)
    | errno e =>
      rw [hx.errno e hr]
      exact .refused e

theorem Agrees.read {α β : Type} {x : Except Stop α} {a : α} {f : α → Except Stop β}
    {r : Except Errno β} (hx : Agrees x (.ok a)) (hf : Agrees (f a) r) : Agrees (x >>= f) r := by
  cases hr : x with
  | ok b =>
    cases hx.ok b hr
    exact hf
  | error e =>
    cases e with
    | read => exact .outside (.inl rfl)
    | write => exact .outside (.inr rfl)
    | errno e => cases hx.errno e hr

theorem Agrees.map {α β : Type} {x : Except Stop α} {x' : Except Errno α} (hx : Agrees x x')
    (g : α → β) : Agrees (x.map g) (x'.map g) := by
  cases hr : x with
  | ok a =>
    rw [hx.ok a hr]
    exact .done _
  | error e =>
    cases e with
    | read => exact .outside (.inl rfl)
    | write => exact .outside (.inr rfl)
    | errno e =>
      rw [hx.errno e hr]
      exact .refused e

/-- The name so far is what the buffer holds up to its length. -/
theorem nameLoop_agrees : ∀ (fuel : Nat) (s : Walk), s.Room →
    maxNameCycles - s.jumps + (s.name.length - s.nameLen) < fuel →
    Agrees ((ended (run (catching (nameTurn buf msgSize maxPos)) (Walk.rank maxPos) s)).map
        fun r => r.2.take r.1)
      (labels2nameLoop buf msgSize maxPos s.name.length fuel s.jumps s.cur
        (s.name.take s.nameLen))
  | 0, _, _, h => absurd h (Nat.not_lt_zero _)
  | fuel + 1, s, hs, h => by
    have hlow := nameTurn_lowers buf msgSize maxPos
    have htake : (s.name.take s.nameLen).length = s.nameLen := by
      rw [List.length_take]
      exact Nat.min_eq_left (Nat.le_of_lt hs)
    rw [labels2nameLoop]
    by_cases hj : s.jumps < maxNameCycles
    case neg =>
      rw [if_pos (Nat.le_of_not_lt hj), ended_error ((walkTurn_eloop (Nat.le_of_not_lt hj)))]
      exact .refused _
    rw [if_neg (Nat.not_le_of_lt hj)]
    simp only
    -- a pointer or a label that is cut, a pointer, a label, and neither of them
    rcases place_cases buf s.cur with hcut | ⟨offset, hp⟩ | ⟨len, hl⟩ | ⟨hin, hptr, hlabel⟩
    · rw [ended_error (nameTurn_cut hj hcut)]
      exact .outside (.inl rfl)
    · rw [if_pos hp.ctrl, hp.offset_eq]
      by_cases hbad : msgSize < offset ∨ offset < hdrSize ∨ s.cur = offset
      · rw [if_pos hbad, ended_error ((walkTurn_bad_pointer hj hp hbad))]
        exact .refused _
      · rw [if_neg hbad]
        rw [not_or, not_or, Nat.not_lt, Nat.not_lt] at hbad
        have hfollows : Follows buf msgSize s.cur offset := ⟨hp, hbad.2.1, hbad.1, hbad.2.2⟩
        rw [ended_again hlow (nameTurn_pointer hj hfollows)]
        exact nameLoop_agrees fuel (s.jumped offset) hs (by
          simp only [Walk.jumped]
          omega)
    · rw [if_neg hl.not_pointer, if_neg (not_not.mpr hl.ctrl), hl.len_eq]
      by_cases hpos : maxPos < s.cur + 1 + len
      · rw [if_pos hpos, ended_error ((walkTurn_long hj hl hpos))]
        exact .refused _
      rw [if_neg hpos]
      by_cases hne : len = 0
      · subst hne
        -- the zero goes over the last dot, and what is in front of it is the name
        have hfront : s.nameLen - 1 ≤ s.name.length :=
          Nat.le_trans (Nat.sub_le _ _) (Nat.le_of_lt hs)
        rw [if_pos rfl, ended_done (nameTurn_end hj hs hl (Nat.le_of_not_lt hpos)),
          List.dropLast_take hs, ← @take_splice_left _ _ [0#8] _ hfront]
        exact .done _
      rw [if_neg hne, htake]
      by_cases hroom : s.name.length ≤ s.nameLen + (len + 1)
      · rw [if_pos hroom, ended_error (nameTurn_overflow hj ⟨hl, hne, Nat.le_of_not_lt hpos⟩ hroom)]
        exact .refused _
      rw [if_neg hroom]
      have hfits : Fits buf maxPos s len :=
        ⟨⟨hl, hne, Nat.le_of_not_lt hpos⟩, Nat.lt_of_not_le hroom⟩
      by_cases hin : s.cur + 1 + len ≤ buf.length
      case neg =>
        rw [ended_error (nameTurn_cut_label hj hfits (Nat.lt_of_not_le hin))]
        exact .outside (.inl rfl)
      rw [ended_again hlow (nameTurn_copies hj hfits hin)]
      have hlen := hfits.copied_length
      have hdata : ((buf.drop (s.cur + 1)).take len ++ [dot]).length = len + 1 := by
        rw [List.length_append, List.length_take, List.length_drop, List.length_singleton]
        omega
      -- the name with the label and its dot behind it
      have hname := @take_splice _ s.name ((buf.drop (s.cur + 1)).take len ++ [dot]) s.nameLen
        (Nat.le_of_lt hs)
      rw [hdata] at hname
      have hroom' : (s.copied buf len).Room := by
        rw [Walk.Room, hlen]
        exact hfits.room
      have ih := nameLoop_agrees fuel (s.copied buf len) hroom' (by
        rw [hlen]
        simp only [Walk.copied, Walk.counted]
        omega)
      rw [hlen] at ih
      rw [List.append_assoc, ← hname]
      exact ih
    · rw [if_neg hptr, if_pos hlabel, ended_error ((walkTurn_unsupported hj hin hptr hlabel))]
      exact .refused _

theorem sequenceOfLabels2name_agrees (name : List Byte) :
    Agrees ((sequenceOfLabels2name buf msgSize offset name).map fun r => r.2.take r.1)
      (Dns.sequenceOfLabels2name buf msgSize offset name.length) := by
  rw [sequenceOfLabels2name, Dns.sequenceOfLabels2name]
  split
  · exact .refused _
  next hargs =>
  split
  · exact .refused _
  · exact nameLoop_agrees _ ⟨0, offset, 0, name⟩ (Nat.pos_of_ne_zero (not_or.mp hargs).1) (by
      simp only
      omega)

theorem itemName_agrees (name : Option (List Byte)) :
    Agrees (itemName buf msgSize offset name)
      ((name.map List.length).mapM (Dns.sequenceOfLabels2name buf msgSize offset)) := by
  cases name with
  | none => exact .done _
  | some name =>
    have h := (@sequenceOfLabels2name_agrees buf msgSize offset name).map some
    have hmap : itemName buf msgSize offset (some name) =
        ((sequenceOfLabels2name buf msgSize offset name).map fun r => r.2.take r.1).map some := by
      rw [itemName]
      cases sequenceOfLabels2name buf msgSize offset name <;> rfl
    rw [hmap, Option.map_some, Option.mapM_some]
    exact h

theorem readBe16_agrees (i : Nat) : Agrees (readBe16 buf i) (.ok (getBe16 buf i)) := by
  rw [readBe16]
  split
  · exact .done _
  · exact .outside (.inl rfl)

theorem readBytes_agrees (i n : Nat) : Agrees (readBytes buf i n) (.ok ((buf.drop i).take n)) := by
  rw [readBytes]
  split
  · exact .done _
  · exact .outside (.inl rfl)

theorem Agrees.sized {α : Type} {f : Nat → Except Stop α} {r' : Except Errno α}
    (herr : ∀ e, Dns.sequenceOfLabelsGetSize buf offset (msgSize - offset) = .error e →
      r' = .error .ebadmsg)
    (hok : ∀ size, Dns.sequenceOfLabelsGetSize buf offset (msgSize - offset) = .ok size →
      Agrees (f size) r') :
    Agrees (itemNameSize buf msgSize offset >>= f) r' := by
  have h := @sequenceOfLabelsGetSize_agrees buf offset (msgSize - offset)
  rw [itemNameSize]
  cases hr : sequenceOfLabelsGetSize buf offset (msgSize - offset) with
  | ok size => exact hok size (h.ok size hr)
  | error e =>
    cases e with
    | read => exact .outside (.inl rfl)
    | write => exact .outside (.inr rfl)
    | errno e =>
      rw [herr e (h.errno e hr)]
      exact .refused _

theorem questionGetData_agrees (name : Option (List Byte)) :
    Agrees (questionGetData buf msgSize offset name)
      (Dns.questionGetData buf msgSize offset (name.map List.length)) := by
  rw [questionGetData, Dns.questionGetData]
  split
  · exact .refused _
  split
  · exact .refused _
  refine .sized (fun e h => by rw [h]) fun size h => ?_
  rw [h]
  simp only
  split
  · exact .refused _
  · refine (readBe16_agrees _).read ((readBe16_agrees _).read ?_)
    exact (itemName_agrees name).bind fun _ _ => .done _

theorem rrGetData_agrees (name : Option (List Byte)) :
    Agrees (rrGetData buf msgSize offset name)
      (Dns.rrGetData buf msgSize offset (name.map List.length)) := by
  rw [rrGetData, Dns.rrGetData]
  split
  · exact .refused _
  split
  · exact .refused _
  refine .sized (fun e h => by rw [h]) fun size h => (readBe16_agrees _).read ?_
  rw [h]
  simp only
  split
  · exact .refused _
  · refine (readBe16_agrees _).read ((readBe16_agrees _).read ((readBytes_agrees _ _).read ?_))
    exact (itemName_agrees name).bind fun _ _ => .done _

theorem skip_agrees {getSize : Nat → Except Stop Nat} {getSize' : Nat → Except Errno Nat}
    (h : ∀ off, Agrees (getSize off) (getSize' off)) : ∀ count off : Nat,
    Agrees (skip getSize count off) (Dns.skip getSize' count off)
  | 0, _ => .done _
  | count + 1, off => (h off).bind fun _ _ => skip_agrees h count _

theorem msgInfoGet_agrees : Agrees (msgInfoGet buf msgSize) (Dns.msgInfoGet buf msgSize) := by
  have hquestion : ∀ off, Agrees ((questionGetData buf msgSize off none).map (·.size))
      (Dns.questionGetSize buf msgSize off) := fun off => (questionGetData_agrees none).map _
  have hrecord : ∀ off, Agrees ((rrGetData buf msgSize off none).map (·.size))
      (Dns.rrGetSize buf msgSize off) := fun off => (rrGetData_agrees none).map _
  rw [msgInfoGet, Dns.msgInfoGet]
  split
  · exact .refused _
  refine (readBe16_agrees 4).read ((skip_agrees hquestion _ _).bind fun _ _ => ?_)
  refine (readBe16_agrees 6).read ((skip_agrees hrecord _ _).bind fun _ _ => ?_)
  refine (readBe16_agrees 8).read ((skip_agrees hrecord _ _).bind fun _ _ => ?_)
  exact (readBe16_agrees 10).read ((skip_agrees hrecord _ _).bind fun _ _ => .done _)

end Dns.Read
