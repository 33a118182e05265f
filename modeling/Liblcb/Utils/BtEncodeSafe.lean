import Liblcb.Utils.BtEncodeText

/-!
# Where the decoder is safe

The buffers on which the decoder reads nothing it must not and returns spans that are right: it
never returns the span of a list or a dictionary as it should be, so these are left only where they
are refused.
-/

namespace BtEncode

open Mem

mutual

/-- The spans of a node that is read from `pos` up to `last`, out of `used` bytes: that of a string
or a number lies in these, that of a container is what stands between its letter and its `e`. -/
def Node.Spans (buf : List Byte) (used : Nat) : Node → Nat → Nat → Prop
  | .str raw rawSize, _, _ => raw + rawSize ≤ used
  | .num raw rawSize _, _, _ => raw + rawSize ≤ used
  | .list raw rawSize l, pos, last => raw = pos + 1 ∧ raw + rawSize + 1 = last ∧
      buf[raw + rawSize]? = some (chr 'e') ∧ l.Spans buf used raw (raw + rawSize)
  | .dict raw rawSize d, pos, last => raw = pos + 1 ∧ raw + rawSize + 1 = last ∧
      buf[raw + rawSize]? = some (chr 'e') ∧ d.Spans buf used raw (raw + rawSize)

def Nodes.Spans (buf : List Byte) (used : Nat) : Nodes → Nat → Nat → Prop
  | .nil, pos, last => pos = last
  | .cons node l, pos, last => ∃ q, node.Spans buf used pos q ∧ l.Spans buf used q last

def Pairs.Spans (buf : List Byte) (used : Nat) : Pairs → Nat → Nat → Prop
  | .nil, pos, last => pos = last
  | .cons key val d, pos, last => ∃ q r, key.Spans buf used pos q ∧ val.Spans buf used q r ∧
      d.Spans buf used r last

end

variable {addr : Nat} {buf : List Byte} {pos q fuel : Nat}

/-- The decoder returns, reads nothing outside the buffer, and returns spans that are right. -/
def Safe (addr : Nat) (buf : List Byte) : Prop :=
  match btEnDecode addr buf with
  | .error e => e ≠ .undef ∧ e ≠ .noReturn
  | .ok (node, off) => 1 ≤ off ∧ off ≤ buf.length ∧ node.Spans buf off 0 off

/-- What begins with a digit is no string whose end wraps; anything else is a number, or refused. -/
def SafeText (addr : Nat) (buf : List Byte) : Prop :=
  ∀ b, buf[0]? = some b →
    (IsDigit b → ∀ colon, memChrOff 1 buf (chr ':') = some colon →
      addr + (colon + 1) + strSize buf 0 colon < 2 ^ 64) ∧
    (¬ IsDigit b → b = chr 'i' ∨ Wrong addr buf .item 0)

theorem ends_of_decode {node : Node} {off : Nat} (h : decode addr buf fuel pos = .ok (node, off)) :
    ends addr buf fuel .item pos = .ok (pos + off) := by
  rw [ends, h]
  rfl

theorem ends_error {e : Err} (h : decode addr buf fuel pos = .error e) :
    ends addr buf fuel .item pos = .error e := by
  rw [ends, h]
  rfl

theorem containerRawSize_ne (pos curPos : Nat) (h : pos < curPos) :
    pos + 1 + containerRawSize pos curPos + 1 ≠ pos + (curPos - pos + 1) := by
  rw [containerRawSize]
  by_cases hone : curPos - pos = 1
  · rw [hone]
    omega
  · have hle : (curPos - pos + 2 ^ 64 - 2) % 2 ^ 64 ≤ curPos - pos - 2 := by
      have hsub : curPos - pos + 2 ^ 64 - 2 = curPos - pos - 2 + 2 ^ 64 := by omega
      rw [hsub, Nat.add_mod_right]
      exact Nat.mod_le _ _
    omega

theorem safe_of_error {e : Err} (h : btEnDecode addr buf = .error e) :
    Safe addr buf ↔ e ≠ .undef ∧ e ≠ .noReturn := by
  rw [Safe, h]

theorem safe_of_ok {node : Node} {off : Nat} (h : btEnDecode addr buf = .ok (node, off)) :
    Safe addr buf ↔ 1 ≤ off ∧ off ≤ buf.length ∧ node.Spans buf off 0 off := by
  rw [Safe, h]

theorem safe_str (hdigit : DigitAt buf 0) : Safe addr buf ↔
    ∀ colon, memChrOff 1 buf (chr ':') = some colon →
      addr + (colon + 1) + strSize buf 0 colon < 2 ^ 64 := by
  have hrun : btEnDecode addr buf = decodeStr addr buf 0 := decode_digit hdigit
  cases hcolon : memChrOff 1 buf (chr ':') with
  | none =>
    have hnone : decodeStr addr buf 0 = .error .ebadmsg := by rw [decodeStr, hcolon]
    rw [safe_of_error (hrun.trans hnone)]
    exact ⟨fun _ colon hc => absurd hc (by simp), fun _ => ⟨by decide, by decide⟩⟩
  | some colon =>
    by_cases hroom : addr + (colon + 1) + strSize buf 0 colon < 2 ^ 64
    · refine ⟨fun _ c hc => Option.some.inj hc ▸ hroom, fun _ => ?_⟩
      have hstr := decodeStr_room ⟨hdigit, hcolon, hroom⟩
      by_cases hlong : buf.length ≤ colon + 1 + strSize buf 0 colon
      · rw [if_pos hlong] at hstr
        rw [safe_of_error (hrun.trans hstr)]
        exact ⟨by decide, by decide⟩
      · rw [if_neg hlong] at hstr
        rw [safe_of_ok (hrun.trans hstr)]
        refine ⟨by omega, by omega, ?_⟩
        show colon + 1 + strSize buf 0 colon ≤ strSize buf 0 colon + (colon + 1 - 0)
        omega
    · rw [safe_of_error (hrun.trans (decodeStr_noRoom hcolon (Nat.not_lt.mp hroom)))]
      exact ⟨fun h => absurd rfl h.1, fun h => absurd (h colon rfl) hroom⟩

theorem safe_num (h : buf[0]? = some (chr 'i')) : Safe addr buf := by
  have hrun : btEnDecode addr buf = decodeNum buf 0 := decode_num h
  cases hlast : memChrOff 1 buf (chr 'e') with
  | none =>
    have hnone : decodeNum buf 0 = .error .ebadmsg := by rw [decodeNum, hlast]
    rw [safe_of_error (hrun.trans hnone)]
    exact ⟨by decide, by decide⟩
  | some last =>
    have hb := memChrOff_bounds hlast
    have hnum : decodeNum buf 0 = .ok (.num 1 (last - 1)
        (ustr2s64 ((buf.drop 1).take (last - 1))), last + 1) := by rw [decodeNum, hlast]; rfl
    rw [safe_of_ok (hrun.trans hnum)]
    refine ⟨by omega, by omega, ?_⟩
    show 1 + (last - 1) ≤ last + 1
    omega

theorem decode_container {node : Node} {off : Nat} (hdigit : ¬ DigitAt buf pos)
    (hi : buf[pos]? ≠ some (chr 'i')) (h : decode addr buf (fuel + 1) pos = .ok (node, off)) :
    ∃ curPos, pos < curPos ∧ off = curPos - pos + 1 ∧
      ((∃ l, node = .list (pos + 1) (containerRawSize pos curPos) l) ∨
        ∃ d, node = .dict (pos + 1) (containerRawSize pos curPos) d) := by
  rw [decode] at h
  cases hb : buf[pos]? with
  | none =>
    rw [hb] at h
    cases h
  | some b =>
    have hnot : ¬ (chr '0' ≤ b ∧ b ≤ chr '9') := fun hd => hdigit ⟨b, hb, hd⟩
    have hne : b ≠ chr 'i' := fun heq => hi (heq ▸ hb)
    rw [hb] at h
    dsimp only at h
    rw [if_neg hnot, if_neg hne] at h
    split at h
    · obtain ⟨r, hr, hnode⟩ := bind_ok h
      have hle := ((decode_ok addr buf fuel).2.1 _ _ _ hr).2.1
      cases hnode
      exact ⟨r.2, hle, rfl, .inl ⟨r.1, rfl⟩⟩
    split at h
    · obtain ⟨r, hr, hnode⟩ := bind_ok h
      have hle := ((decode_ok addr buf fuel).2.2 _ _ _ hr).2.1
      cases hnode
      exact ⟨r.2, hle, rfl, .inr ⟨r.1, rfl⟩⟩
    · cases h

theorem not_safe_of_text (hdigit : ¬ DigitAt buf 0) (hi : buf[0]? ≠ some (chr 'i'))
    (h : Text addr buf .item 0 q) : ¬ Safe addr buf := by
  have hends : ends addr buf (2 * buf.length + 1) .item 0 = .ok q := h.decoded _ (Nat.le_refl _)
  cases hrun : decode addr buf (2 * buf.length + 1) 0 with
  | error e =>
    rw [ends_error hrun] at hends
    cases hends
  | ok r =>
    obtain ⟨node, off⟩ := r
    obtain ⟨curPos, hlt, hoff, hnode⟩ := decode_container hdigit hi hrun
    -- the end marker is counted twice
    have hsize := containerRawSize_ne 0 curPos hlt
    rw [safe_of_ok hrun, hoff]
    rintro ⟨-, -, hspans⟩
    rcases hnode with ⟨l, rfl⟩ | ⟨d, rfl⟩
    · have hend := hspans.2.1
      omega
    · have hend := hspans.2.1
      omega

theorem safe_iff_wrong (hdigit : ¬ DigitAt buf 0) (hi : buf[0]? ≠ some (chr 'i')) :
    Safe addr buf ↔ Wrong addr buf .item 0 := by
  have hjudged := judged addr buf (2 * buf.length + 1) .item 0
  constructor
  · intro hsafe
    cases hrun : decode addr buf (2 * buf.length + 1) 0 with
    | error e =>
      rw [ends_error hrun] at hjudged
      rw [safe_of_error hrun] at hsafe
      cases e with
      | einval => exact hjudged
      | ebadmsg => exact hjudged
      | undef => exact absurd rfl hsafe.1
      | noReturn => exact absurd rfl hsafe.2
    | ok r =>
      rw [ends_of_decode hrun] at hjudged
      exact absurd hsafe (not_safe_of_text hdigit hi hjudged)
  · intro hwrong
    -- a text that is refused gives an error that is returned, with this fuel too
    have hrefused := hwrong.refused _ (Nat.le_refl (needs buf .item 0))
    change Refused (ends addr buf (2 * buf.length + 1) .item 0) at hrefused
    cases hrun : decode addr buf (2 * buf.length + 1) 0 with
    | error e =>
      rw [ends_error hrun] at hrefused
      rw [safe_of_error hrun]
      rcases hrefused with he | he
      · cases he
        exact ⟨by decide, by decide⟩
      · cases he
        exact ⟨by decide, by decide⟩
    | ok r =>
      rw [ends_of_decode hrun] at hrefused
      rcases hrefused with he | he <;> cases he

/-- Exactly the strings whose end does not wrap, the numbers, and the texts that are refused. -/
theorem btEnDecode_safe_iff (addr : Nat) (buf : List Byte) : Safe addr buf ↔ SafeText addr buf := by
  unfold SafeText
  cases hb : buf[0]? with
  | none =>
    have hempty : btEnDecode addr buf = .error .einval := by rw [btEnDecode, decode, hb]
    rw [safe_of_error hempty]
    exact ⟨fun _ b h => absurd h (by simp), fun _ => ⟨by decide, by decide⟩⟩
  | some b =>
    by_cases hdigit : IsDigit b
    · rw [safe_str ⟨b, hb, hdigit⟩]
      refine ⟨fun h c hc => ?_, fun h => (h b rfl).1 hdigit⟩
      cases hc
      exact ⟨fun _ => h, fun hno => absurd hdigit hno⟩
    have hnot : ¬ DigitAt buf 0 := by
      rintro ⟨c, hc, hd⟩
      rw [hb] at hc
      cases hc
      exact hdigit hd
    by_cases hi : b = chr 'i'
    · refine ⟨fun _ c hc => ?_, fun _ => safe_num (hi ▸ hb)⟩
      cases hc
      exact ⟨fun hd => absurd hd hdigit, fun _ => .inl hi⟩
    · rw [safe_iff_wrong hnot (fun h => hi (Option.some.inj (hb.symm.trans h)))]
      refine ⟨fun h c hc => ?_, fun h => ((h b rfl).2 hdigit).resolve_left hi⟩
      cases hc
      exact ⟨fun hd => absurd hd hdigit, fun _ => .inr h⟩

/-- `li1e`: the byte behind the buffer is read.  `li1ee`: the span of the list is a byte short. -/
theorem list_not_safe : ¬ Safe 0 [chr 'l', chr 'i', chr '1', chr 'e'] ∧
    ¬ Safe 0 [chr 'l', chr 'i', chr '1', chr 'e', chr 'e'] := by
  constructor
  · have hrun : btEnDecode 0 [chr 'l', chr 'i', chr '1', chr 'e'] = .error .undef := rfl
    rw [safe_of_error hrun]
    exact fun h => h.1 rfl
  · have hrun : btEnDecode 0 [chr 'l', chr 'i', chr '1', chr 'e', chr 'e'] =
        .ok (.list 1 2 (.cons (.num 2 1 1#64) .nil), 5) := rfl
    rw [safe_of_ok hrun]
    rintro ⟨-, -, hspans⟩
    exact absurd hspans.2.1 (by decide)

end BtEncode
