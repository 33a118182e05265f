import Liblcb.BigNum.Products
import Liblcb.Lib.Buffer

/-!
# Binary import and export

`bn_digits_export_*_bin` and `bn_export_*_bin` of `math/big_num.h`, and what they make together with
`bn_import_*_bin`.  The big-endian export looks for the first byte that is not zero; the
little-endian one compares the top digit to a bound it shifts the wrong way.
-/

namespace BigNum

open Limbs StateErr

def bnExportFAutoSize : BitVec 32 := 1 <<< 0

/-- `0 != (flags & BN_EXPORT_F_AUTO_SIZE)` -/
def autoSize (flags : BitVec 32) : Bool := flags &&& bnExportFAutoSize != 0

/-- What an export writes: the buffer of the caller, and `*buf_size_ret` once it is written. -/
structure Exported where
  buf : List (BitVec 8)
  size : Option Nat
  deriving DecidableEq

def topBytes (a : List Digit) : List (BitVec 8) := (toBytes a).reverse.dropWhile (· = 0)

def bnDigitsExportBeBin (a : List Digit) (flags : BitVec 32) : EStateM Err Exported Unit :=
  fun out =>
    let bufSize := out.buf.length
    if bufSize = 0 then .error .einval out
    else if a.length = 0 then
      let bufSize := if autoSize flags then 1 else bufSize
      .ok () ⟨Buffer.splice out.buf 0 (List.replicate bufSize 0), some bufSize⟩
    else
      let bytes := topBytes a
      let tm := bytes.length
      if autoSize flags then
        let out := { out with size := some tm }
        if bufSize < tm then .error .eoverflow out
        else .ok () { out with buf := Buffer.splice out.buf 0 bytes }
      else
        let out := { out with size := some bufSize }
        if bufSize < tm then .error .eoverflow out
        else
          let zeros := List.replicate (bufSize - tm) 0
          .ok () { out with buf := Buffer.splice out.buf 0 (zeros ++ bytes) }

def bnDigitsExportLeBin (a : List Digit) (flags : BitVec 32) : EStateM Err Exported Unit :=
  fun out =>
    let bufSize := out.buf.length
    if bufSize = 0 then .error .einval out
    else
      let bnSize := a.length * 8
      let out := { out with size := some (if autoSize flags then bnSize else bufSize) }
      if bufSize < bnSize then
        let ddiff := bnSize - bufSize
        let top := a.getD (a.length - 1) 0
        if 8 < ddiff then .error .eoverflow out
        else if ddiff = 8 ∧ top ≠ 0 then .error .eoverflow out
        -- the shift is as wide as the digit
        else if 64 ≤ 1 + ddiff * 8 then .error .undef out
        else if (1 : Digit) <<< (1 + ddiff * 8) ≤ top then .error .eoverflow out
        else .ok () ⟨Buffer.splice out.buf 0 ((toBytes a).take bufSize), some bufSize⟩
      else
        let buf := Buffer.splice out.buf 0 (toBytes a)
        if bnSize < bufSize ∧ ¬autoSize flags then
          .ok () { out with buf := Buffer.splice buf bnSize (List.replicate (bufSize - bnSize) 0) }
        else .ok () { out with buf := buf }

namespace Bn

def bnExportBeBin (b : Bn) (flags : BitVec 32) : EStateM Err Exported Unit :=
  bnDigitsExportBeBin b.sig flags

def bnExportLeBin (b : Bn) (flags : BitVec 32) : EStateM Err Exported Unit :=
  bnDigitsExportLeBin b.sig flags

/-! ## What an export writes -/

variable {b d : Bn}

theorem length_topBytes (a : List Digit) : (topBytes a).length = limbCount 8 (Limbs.val a) := by
  rw [topBytes, ← List.length_reverse, reverse_dropWhile_zero (by decide), length_limbs,
    val_toBytes]

theorem topBytes_eq (a : List Digit) :
    topBytes a = (limbs 8 (limbCount 8 (Limbs.val a)) (Limbs.val a)).reverse := by
  rw [← val_toBytes a, ← reverse_dropWhile_zero (by decide), List.reverse_reverse, topBytes]

theorem bnExportBeBin_spec (hb : b.WF) {out : Exported} (hn : 0 < out.buf.length) :
    bnExportBeBin b 0 out =
      if b.value < 2 ^ (8 * out.buf.length) then
        .ok () ⟨(limbs 8 out.buf.length b.value).reverse, some out.buf.length⟩
      else .error .eoverflow { out with size := some out.buf.length } := by
  rw [bnExportBeBin, bnDigitsExportBeBin]
  simp only
  rw [if_neg (by omega), hb.length_sig]
  by_cases h0 : b.digits = 0
  · have hv : b.value = 0 := hb.digits_eq_zero.mp h0
    have hauto : autoSize 0 = false := rfl
    have hzero : limbs 8 out.buf.length 0 = List.replicate out.buf.length 0 := by
      rw [← limbs_append_zeros (k := 0) (by simp) (Nat.zero_le _)]
      rfl
    rw [if_pos h0, hv, if_pos (Nat.two_pow_pos _), hauto, if_neg (by decide), hzero,
      List.reverse_replicate, Buffer.splice_zero (by rw [List.length_replicate])]
  · have hauto : autoSize 0 = false := rfl
    have hfit := limbCount_le_iff (w := 8) (by decide) b.value out.buf.length
    rw [if_neg h0, hauto, if_neg (by decide), length_topBytes, ← value]
    by_cases hlt : b.value < 2 ^ (8 * out.buf.length)
    · have hle := hfit.mpr hlt
      rw [if_neg (by omega), if_pos hlt, topBytes_eq, ← value, ← List.reverse_replicate,
        ← List.reverse_append,
        limbs_append_zeros (lt_pow_limbCount (by decide) b.value) hle,
        Buffer.splice_zero (by rw [List.length_reverse, length_limbs])]
    · rw [if_pos (by omega), if_neg hlt]

/-- How many bytes of the digits in use do not fit a buffer of `n` bytes. -/
def missing (b : Bn) (n : Nat) : Nat := 8 * b.digits - n

/-- The top digit in use. -/
def top (b : Bn) : Digit := b.dig (b.digits - 1)

def LeAccepts (b : Bn) (n : Nat) : Prop :=
  8 * b.digits ≤ n ∨ (b.missing n < 8 ∧ b.top.toNat < 2 ^ (1 + 8 * b.missing n))

instance (b : Bn) (n : Nat) : Decidable (b.LeAccepts n) := by unfold LeAccepts; infer_instance

theorem bnExportLeBin_spec (hb : b.WF) {out : Exported} (hn : 0 < out.buf.length) :
    bnExportLeBin b 0 out =
      if b.LeAccepts out.buf.length then
        .ok () ⟨limbs 8 out.buf.length b.value, some out.buf.length⟩
      else .error .eoverflow { out with size := some out.buf.length } := by
  have hauto : autoSize 0 = false := rfl
  have hbytes : toBytes b.sig = limbs 8 (8 * b.digits) b.value := by
    rw [toBytes, hb.length_sig, value]
  have hvlt : b.value < 2 ^ (8 * (8 * b.digits)) := by
    rw [← Nat.mul_assoc]
    exact hb.value_lt
  rw [bnExportLeBin, bnDigitsExportLeBin]
  simp only
  rw [if_neg (by omega), hb.length_sig, hauto, hbytes]
  simp only [Bool.false_eq_true, if_false, not_false_eq_true, and_true]
  by_cases hbig : out.buf.length < b.digits * 8
  · have hpos : 0 < b.digits := by omega
    have htop : b.sig.getD (b.digits - 1) 0 = b.top := (dig_eq_sig b (by omega)).symm
    have htop0 : b.top ≠ 0 := hb.top.resolve_left (by omega)
    -- the bytes of the number that do not fit have to be zero
    have hmiss : b.digits * 8 - out.buf.length = b.missing out.buf.length := by
      rw [missing, Nat.mul_comm]
    have hrefuse : ¬(b.missing out.buf.length < 8 ∧
        b.top.toNat < 2 ^ (1 + 8 * b.missing out.buf.length)) → ¬b.LeAccepts out.buf.length := by
      intro h hacc
      exact hacc.elim (by omega) h
    rw [if_pos hbig, htop, hmiss]
    by_cases h8 : 8 < b.missing out.buf.length
    · rw [if_pos h8, if_neg (hrefuse (by omega))]
    · rw [if_neg h8]
      by_cases heq : b.missing out.buf.length = 8
      · rw [if_pos ⟨heq, htop0⟩, if_neg (hrefuse (by omega))]
      -- the bound of the check, as a power of two
      · have hshift : ((1 : Digit) <<< (1 + b.missing out.buf.length * 8)).toNat =
            2 ^ (1 + 8 * b.missing out.buf.length) := by
          have hlt : 2 ^ (1 + b.missing out.buf.length * 8) < 2 ^ 64 :=
            Nat.pow_lt_pow_right (by decide) (by omega)
          rw [BitVec.toNat_shiftLeft, show (1 : Digit).toNat = 1 from rfl, Nat.shiftLeft_eq,
            Nat.one_mul, Nat.mod_eq_of_lt hlt, Nat.mul_comm]
        have hle : (1 : Digit) <<< (1 + b.missing out.buf.length * 8) ≤ b.top ↔
            2 ^ (1 + 8 * b.missing out.buf.length) ≤ b.top.toNat := by
          rw [BitVec.le_def, hshift]
        rw [if_neg (fun h => heq h.1), if_neg (by omega)]
        by_cases hacc : b.top.toNat < 2 ^ (1 + 8 * b.missing out.buf.length)
        · have hok : b.LeAccepts out.buf.length := Or.inr ⟨by omega, hacc⟩
          rw [if_neg (by rw [hle]; omega), if_pos hok, take_limbs (by omega),
            Buffer.splice_zero (by rw [length_limbs])]
        · rw [if_pos (by rw [hle]; omega), if_neg (hrefuse fun h => hacc h.2)]
  · have hok : b.LeAccepts out.buf.length := Or.inl (by omega)
    rw [if_neg hbig, if_pos hok]
    by_cases hlt : b.digits * 8 < out.buf.length
    · have hrest : 0 + (limbs 8 (8 * b.digits) b.value).length = b.digits * 8 := by
        rw [length_limbs]
        omega
      have hstart : 0 + (limbs 8 (8 * b.digits) b.value).length ≤ out.buf.length := by omega
      have hfill := @Buffer.splice_splice _ _ _ (List.replicate (out.buf.length - b.digits * 8) 0)
        _ hstart
      rw [hrest, Nat.mul_comm b.digits 8] at hfill
      rw [if_pos hlt, Nat.mul_comm b.digits 8, hfill, limbs_append_zeros hvlt (by omega),
        Buffer.splice_zero (by rw [length_limbs])]
    · have hlen : out.buf.length = 8 * b.digits := by omega
      rw [if_neg hlt, ← hlen, Buffer.splice_zero (by rw [length_limbs])]

theorem value_lt_iff (hb : b.WF) {n : Nat} (hmiss : b.missing n < 8) (hpos : 0 < b.missing n) :
    b.value < 2 ^ (8 * n) ↔ b.top.toNat < 2 ^ (64 - 8 * b.missing n) := by
  have hd : 0 < b.digits := by
    rw [missing] at hpos
    omega
  have htop : b.top.toNat = b.value / 2 ^ (64 * (b.digits - 1)) := by
    have hlt : b.value / 2 ^ (64 * (b.digits - 1)) < 2 ^ 64 := by
      rw [Nat.div_lt_iff_lt_mul (Nat.two_pow_pos _), ← Nat.pow_add]
      refine hb.value_lt.trans_le (Nat.pow_le_pow_right (by decide) ?_)
      omega
    rw [top, dig_eq_sig b (by omega), getD_eq_ofNat, BitVec.toNat_ofNat, ← value,
      Nat.mod_eq_of_lt hlt]
  have hexp : 64 - 8 * b.missing n + 64 * (b.digits - 1) = 8 * n := by
    rw [missing] at hmiss hpos ⊢
    omega
  rw [htop, Nat.div_lt_iff_lt_mul (Nat.two_pow_pos _), ← Nat.pow_add, hexp]

/-! ## Import after export -/

/-- An import returns 0 and leaves `value`. -/
def Imports (run : EStateM.Result Err Bn Unit) (value : Nat) : Prop :=
  ∃ t, run = .ok () t ∧ t.value = value

/-- An export writes `bytes` when the number fits and is refused otherwise. -/
def Writes (run : EStateM.Result Err Exported Unit) (fits : Prop) (bytes : List (BitVec 8)) :
    Prop :=
  (fits → ∃ out, run = .ok () out ∧ out.buf = bytes) ∧
    (¬fits → ∃ out, run = .error .eoverflow out)

theorem pow_bytes (n : Nat) : 256 ^ n = 2 ^ (8 * n) := by
  rw [Nat.pow_mul]

theorem bnImportLeBin_imports_iff (hd : d.WF) {s : List (BitVec 8)} (hn : 0 < s.length)
    (hfit : s.length ≤ 8 * d.count) :
    Imports (bnImportLeBin s d) (Limbs.val s) ↔ d.digits ≤ (s.length + 7) / 8 := by
  have hrun : Num.bnImportLeBin s d.abs = .ok () ⟨d.count, Limbs.val s +
      2 ^ (64 * ((s.length + 7) / 8)) * (d.value / 2 ^ (64 * ((s.length + 7) / 8)))⟩ := by
    rw [Num.bnImportLeBin, abs_count, if_neg (by omega), if_neg (by omega)]
    rfl
  obtain ⟨t, ht, habs, -⟩ := (bnImportLeBin_refines s).ok hd hrun
  have hval : t.value = _ := congrArg Num.val habs
  have hpos : 0 < 2 ^ (64 * ((s.length + 7) / 8)) := Nat.two_pow_pos _
  have hhigh : d.digits ≤ (s.length + 7) / 8 ↔
      d.value / 2 ^ (64 * ((s.length + 7) / 8)) = 0 := by
    rw [hd.digits_eq, limbCount_le_iff (by decide), Nat.div_eq_zero_iff_lt hpos]
  rw [hhigh]
  constructor
  · rintro ⟨t', ht', hv⟩
    rw [ht] at ht'
    cases ht'
    rw [hval] at hv
    have hzero := Nat.add_left_cancel (hv.trans (Nat.add_zero _).symm)
    exact (Nat.mul_eq_zero.mp hzero).resolve_left hpos.ne'
  · intro hzero
    refine ⟨t, ht, ?_⟩
    rw [hval, hzero, Nat.mul_zero, Nat.add_zero]

theorem bnExportBeBin_writes (hb : b.WF) {out : Exported} (hn : 0 < out.buf.length) :
    Writes (bnExportBeBin b 0 out) (b.value < 256 ^ out.buf.length)
      (limbs 8 out.buf.length b.value).reverse := by
  rw [pow_bytes, bnExportBeBin_spec hb hn]
  constructor
  · intro hfit
    rw [if_pos hfit]
    exact ⟨_, rfl, rfl⟩
  · intro hbig
    rw [if_neg hbig]
    exact ⟨_, rfl⟩

/-- The bound of the little-endian export is the right one. -/
def BoundRight (b : Bn) (n : Nat) : Prop :=
  0 < b.missing n → b.missing n < 8 →
    (b.top.toNat < 2 ^ (1 + 8 * b.missing n) ↔ b.top.toNat < 2 ^ (64 - 8 * b.missing n))

theorem leAccepts_iff (hb : b.WF) (n : Nat) :
    (b.LeAccepts n ↔ b.value < 2 ^ (8 * n)) ↔ b.BoundRight n := by
  have hsize := hb.value_lt
  by_cases h0 : b.missing n = 0
  · -- the buffer takes all digits
    have hle : 8 * b.digits ≤ n := by
      rw [missing] at h0
      omega
    have hfit : b.value < 2 ^ (8 * n) :=
      hsize.trans_le (Nat.pow_le_pow_right (by decide) (by omega))
    exact iff_of_true (iff_of_true (Or.inl hle) hfit) fun h => absurd h0 h.ne'
  · have hmiss : n < 8 * b.digits := by
      rw [missing] at h0
      omega
    by_cases h8 : b.missing n < 8
    · have hacc : b.LeAccepts n ↔ b.top.toNat < 2 ^ (1 + 8 * b.missing n) := by
        constructor
        · intro h
          exact (h.resolve_left (by omega)).2
        · intro h
          exact Or.inr ⟨h8, h⟩
      rw [hacc, value_lt_iff hb h8 (by omega)]
      exact ⟨fun h _ _ => h, fun h => h (by omega) h8⟩
    · -- the top digit is left out
      have hbig : ¬b.value < 2 ^ (8 * n) := by
        have hd : b.digits ≠ 0 := by omega
        have hlow := (lt_limbCount_iff (w := 64) (by decide) b.value (b.digits - 1)).mp
          (by rw [← hb.digits_eq]; omega)
        have hpow : 2 ^ (8 * n) ≤ 2 ^ (64 * (b.digits - 1)) := by
          apply Nat.pow_le_pow_right (by decide)
          rw [missing] at h8
          omega
        omega
      have hno : ¬b.LeAccepts n := fun h => h.elim (by omega) fun h => h8 h.1
      exact iff_of_true (iff_of_false hno hbig) fun _ h => absurd h h8

theorem bnExportLeBin_writes_iff (hb : b.WF) {out : Exported} (hn : 0 < out.buf.length) :
    Writes (bnExportLeBin b 0 out) (b.value < 256 ^ out.buf.length)
      (limbs 8 out.buf.length b.value) ↔ b.BoundRight out.buf.length := by
  rw [← leAccepts_iff hb, pow_bytes, bnExportLeBin_spec hb hn]
  by_cases hacc : b.LeAccepts out.buf.length
  · rw [if_pos hacc]
    constructor
    · rintro ⟨-, hbig⟩
      refine iff_of_true hacc ?_
      by_contra hno
      obtain ⟨_, h⟩ := hbig hno
      cases h
    · intro h
      exact ⟨fun _ => ⟨_, rfl, rfl⟩, fun hno => absurd (h.mp hacc) hno⟩
  · rw [if_neg hacc]
    constructor
    · rintro ⟨hfit, -⟩
      refine iff_of_false hacc ?_
      intro hlt
      obtain ⟨_, h, -⟩ := hfit hlt
      cases h
    · intro h
      exact ⟨fun hlt => absurd (h.mpr hlt) hacc, fun _ => ⟨_, rfl⟩⟩

/-- What the four functions do with a number `b`, a destination `d`, a string `s` and a buffer of
the same length. -/
structure BinExact (b d : Bn) (s : List (BitVec 8)) (out : Exported) : Prop where
  importBe : s.length ≤ 8 * d.count → Imports (bnImportBeBin s d) (Limbs.val s.reverse)
  importLe : s.length ≤ 8 * d.count → Imports (bnImportLeBin s d) (Limbs.val s)
  exportBe : Writes (bnExportBeBin b 0 out) (b.value < 256 ^ out.buf.length)
    (limbs 8 out.buf.length b.value).reverse
  exportLe : Writes (bnExportLeBin b 0 out) (b.value < 256 ^ out.buf.length)
    (limbs 8 out.buf.length b.value)
  backBe : ∀ out', b.value < 256 ^ out.buf.length → out.buf.length ≤ 8 * d.count →
    bnExportBeBin b 0 out = .ok () out' → Imports (bnImportBeBin out'.buf d) b.value
  backLe : ∀ out', b.value < 256 ^ out.buf.length → out.buf.length ≤ 8 * d.count →
    bnExportLeBin b 0 out = .ok () out' → Imports (bnImportLeBin out'.buf d) b.value

/-- All of it holds when the destination has no digit above those the string covers, and the bound
of the little-endian export is the right one. -/
theorem binExact_iff (hb : b.WF) (hd : d.WF) {s : List (BitVec 8)} {out : Exported}
    (hn : 0 < s.length) (hlen : out.buf.length = s.length) :
    BinExact b d s out ↔
      (s.length ≤ 8 * d.count → d.digits ≤ (s.length + 7) / 8) ∧ b.BoundRight s.length := by
  have hout : 0 < out.buf.length := by omega
  constructor
  · intro h
    constructor
    · intro hfit
      exact (bnImportLeBin_imports_iff hd hn hfit).mp (h.importLe hfit)
    · rw [← hlen]
      exact (bnExportLeBin_writes_iff hb hout).mp h.exportLe
  · rintro ⟨hdst, hbound⟩
    rw [← hlen] at hbound
    have himp : ∀ s' : List (BitVec 8), s'.length = s.length → s'.length ≤ 8 * d.count →
        Imports (bnImportLeBin s' d) (Limbs.val s') := by
      intro s' hs' hfit
      apply (bnImportLeBin_imports_iff hd (by omega) hfit).mpr
      rw [hs']
      exact hdst (by omega)
    have hback : ∀ bytes : List (BitVec 8), bytes = limbs 8 out.buf.length b.value →
        b.value < 256 ^ out.buf.length → out.buf.length ≤ 8 * d.count →
        Imports (bnImportLeBin bytes d) b.value := by
      rintro bytes rfl hfit hroom
      have h := himp (limbs 8 out.buf.length b.value) (by rw [length_limbs, hlen])
        (by rw [length_limbs]; exact hroom)
      rwa [val_limbs_of_lt (by rw [← pow_bytes]; exact hfit)] at h
    have hbe := bnExportBeBin_writes hb hout
    have hle := (bnExportLeBin_writes_iff hb hout).mpr hbound
    refine ⟨?_, himp s rfl, hbe, hle, ?_, ?_⟩
    · intro hfit
      exact himp s.reverse (List.length_reverse) (by rw [List.length_reverse]; exact hfit)
    · intro out' hfit hroom hrun
      obtain ⟨out'', hrun', hbytes⟩ := hbe.1 hfit
      rw [hrun] at hrun'
      cases hrun'
      exact hback _ (by rw [hbytes, List.reverse_reverse]) hfit hroom
    · intro out' hfit hroom hrun
      obtain ⟨out'', hrun', hbytes⟩ := hle.1 hfit
      rw [hrun] at hrun'
      cases hrun'
      exact hback _ hbytes hfit hroom

/-- 5 through a buffer of one byte, into a number that held 3. -/
theorem binExact_five : BinExact (oneDigit 1 5) (oneDigit 1 3) [7] ⟨[0], none⟩ := by
  have h5 : (oneDigit 1 5).WF := oneDigit_wf (by decide) (by decide) (by decide)
  have h3 : (oneDigit 1 3).WF := oneDigit_wf (by decide) (by decide) (by decide)
  apply (@binExact_iff _ _ h5 h3 [7] ⟨[0], none⟩ (by decide) rfl).mpr
  constructor
  · decide
  · intro _ _
    decide

/-- 256 goes into one byte as 0. -/
theorem not_forall_binExact :
    ¬ ∀ (b d : Bn) (s : List (BitVec 8)) (out : Exported), b.WF → d.WF → 0 < s.length →
      out.buf.length = s.length → BinExact b d s out := by
  intro h
  have hwf : (oneDigit 1 256).WF := oneDigit_wf (by decide) (by decide) (by decide)
  have hle := (h _ _ [7] ⟨[0], none⟩ hwf hwf (by decide) rfl).exportLe
  have hbound := (@bnExportLeBin_writes_iff _ hwf ⟨[0], none⟩ (by decide)).mp hle
  exact absurd (hbound (by decide) (by decide)) (by decide)

end Bn

end BigNum
