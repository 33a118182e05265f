import Liblcb.BigNum.Binary

/-!
# Hex import and export

`bn_digits_export_*_hex` and `bn_export_*_hex` of `math/big_num.h`, and what they make together with
`bn_import_*_hex`.  The imports pair the characters up from one end and drop a digit that is left
over, and they judge by the length of the string whether it fits.
-/

namespace BigNum

open Limbs StateErr

def hexTbl : List (BitVec 8) :=
  [0x30, 0x31, 0x32, 0x33, 0x34, 0x35, 0x36, 0x37, 0x38, 0x39, 0x61, 0x62, 0x63, 0x64, 0x65, 0x66]

def hexPair (byte : BitVec 8) : List (BitVec 8) :=
  [hexTbl.getD ((byte >>> 4) &&& 0x0f).toNat 0, hexTbl.getD (byte &&& 0x0f).toNat 0]

/-- `ok_exit`: the characters written, a zero after them if there is room, and their number. -/
def exportHexExit (text : List (BitVec 8)) : EStateM Err Exported Unit := fun out =>
  let buf := Buffer.splice out.buf 0 text
  let buf := if text.length < out.buf.length then buf.set text.length 0 else buf
  .ok () ⟨buf, some text.length⟩

/-- The two hex exports, which differ in the bytes they write and in the end the zeros go to.  The
size is rounded down with `buf_size &= ~((size_t)1)`. -/
def exportHex (a : List Digit) (bytes : List (BitVec 8))
    (join : List (BitVec 8) → List (BitVec 8) → List (BitVec 8)) (flags : BitVec 32) :
    EStateM Err Exported Unit := fun out =>
  let bufSize := out.buf.length
  if bufSize < 2 then .error .einval out
  else if a.length = 0 then
    let bufSize := if autoSize flags then 2 else bufSize / 2 * 2
    exportHexExit (List.replicate bufSize 0x30) out
  else
    let tm := 2 * bytes.length
    if bufSize < tm then .error .eoverflow { out with size := some tm }
    else
      let zeros := if autoSize flags then [] else List.replicate ((bufSize - tm) / 2 * 2) 0x30
      exportHexExit (join zeros (bytes.flatMap hexPair)) out

def bnDigitsExportLeHex (a : List Digit) (flags : BitVec 32) : EStateM Err Exported Unit :=
  exportHex a (toBytes a) (fun zeros text => text ++ zeros) flags

def bnDigitsExportBeHex (a : List Digit) (flags : BitVec 32) : EStateM Err Exported Unit :=
  exportHex a (topBytes a) (fun zeros text => zeros ++ text) flags

namespace Bn

def bnExportLeHex (b : Bn) (flags : BitVec 32) : EStateM Err Exported Unit :=
  bnDigitsExportLeHex b.sig flags

def bnExportBeHex (b : Bn) (flags : BitVec 32) : EStateM Err Exported Unit :=
  bnDigitsExportBeHex b.sig flags

end Bn

/-! ## The digits of a string -/

/-- The hex digits of a string; other characters do not count. -/
def hexDigits (s : List (BitVec 8)) : List (BitVec 8) := s.filterMap hexDigit

/-- The number the hex digits of a string denote, in order. -/
def hexNumber (s : List (BitVec 8)) : Nat :=
  (hexDigits s).foldl (fun n d => 16 * n + d.toNat) 0

def pairUp (join : BitVec 8 → BitVec 8 → BitVec 8) : List (BitVec 8) → List (BitVec 8)
  | first :: second :: ds => join first second :: pairUp join ds
  | _ => []

theorem hexBytes_eq (join : BitVec 8 → BitVec 8 → BitVec 8) (first : Option (BitVec 8))
    (cs : List (BitVec 8)) :
    hexBytes join first cs = pairUp join (first.toList ++ hexDigits cs) := by
  fun_induction hexBytes join first cs with
  | case1 first => cases first <;> rfl
  | case2 first c cs hd ih => rw [ih, hexDigits, hexDigits, List.filterMap_cons_none hd]
  | case3 c cs d hd ih =>
    rw [ih, hexDigits, hexDigits, List.filterMap_cons_some hd]
    rfl
  | case4 c cs d h hd ih =>
    rw [ih, hexDigits, hexDigits, List.filterMap_cons_some hd]
    rfl

theorem hexDigit_lt {c d : BitVec 8} (h : hexDigit c = some d) : d.toNat < 16 := by
  unfold hexDigit at h
  split at h
  · cases h
    bv_omega
  · split at h
    · cases h
      bv_omega
    · split at h
      · cases h
        bv_omega
      · cases h

theorem hexDigits_lt {s : List (BitVec 8)} {d : BitVec 8} (h : d ∈ hexDigits s) : d.toNat < 16 := by
  rw [hexDigits, List.mem_filterMap] at h
  obtain ⟨c, -, hc⟩ := h
  exact hexDigit_lt hc

theorem hexDigits_reverse (s : List (BitVec 8)) : hexDigits s.reverse = (hexDigits s).reverse := by
  rw [hexDigits, hexDigits, List.filterMap_reverse]

def nibbles (ds : List (BitVec 8)) : Nat := Nat.ofDigits 16 (ds.map BitVec.toNat)

theorem nibbles_cons (d : BitVec 8) (ds : List (BitVec 8)) :
    nibbles (d :: ds) = d.toNat + 16 * nibbles ds := by
  rw [nibbles, List.map_cons, Nat.ofDigits_cons, nibbles]

theorem hexNumber_eq (s : List (BitVec 8)) : hexNumber s = nibbles (hexDigits s).reverse := by
  have hfold : ∀ (ds : List (BitVec 8)),
      nibbles ds = ds.foldr (fun d n => 16 * n + d.toNat) 0 := by
    intro ds
    induction ds with
    | nil => rfl
    | cons d ds ih => rw [nibbles_cons, List.foldr_cons, ih, Nat.add_comm]
  rw [hfold, List.foldr_reverse, hexNumber]

theorem add_mul_mod_mul {x k N M : Nat} (hx : x < k) : (x + k * N) % (k * M) = x + k * (N % M) := by
  rw [Nat.mod_mul, Nat.add_mul_mod_self_left, Nat.mod_eq_of_lt hx,
    Nat.add_mul_div_left _ _ (by omega), Nat.div_eq_of_lt hx, Nat.zero_add]

theorem val_pairUp (ds : List (BitVec 8)) (hds : ∀ d ∈ ds, d.toNat < 16) :
    Limbs.val (pairUp (fun first second => first ||| (second <<< 4)) ds) =
      nibbles ds % 16 ^ (2 * (ds.length / 2)) := by
  induction ds using pairUp.induct with
  | case1 a b ds ih =>
    have ha := hds a List.mem_cons_self
    have hb := hds b (List.mem_cons_of_mem _ List.mem_cons_self)
    have hjoin : (a ||| (b <<< 4)).toNat = a.toNat + 16 * b.toNat := by
      have hshift : (b <<< 4).toNat = 2 ^ 4 * b.toNat := by
        rw [BitVec.toNat_shiftLeft, Nat.shiftLeft_eq, Nat.mod_eq_of_lt (by omega), Nat.mul_comm]
      rw [BitVec.toNat_or, hshift, Nat.or_comm, ← Nat.two_pow_add_eq_or_of_lt (by omega)]
      omega
    have hlen : (a :: b :: ds).length / 2 = ds.length / 2 + 1 := by
      rw [List.length_cons, List.length_cons]
      omega
    have hpow : 16 ^ (2 * (ds.length / 2 + 1)) = 2 ^ 8 * 16 ^ (2 * (ds.length / 2)) := by ring
    have hsum : a.toNat + 16 * (b.toNat + 16 * nibbles ds) =
        (a.toNat + 16 * b.toNat) + 2 ^ 8 * nibbles ds := by ring
    have hrest : ∀ d ∈ ds, d.toNat < 16 := fun d hd =>
      hds d (List.mem_cons_of_mem _ (List.mem_cons_of_mem _ hd))
    rw [pairUp, val_cons, ih hrest, hjoin, nibbles_cons, nibbles_cons, hlen, hpow, hsum,
      add_mul_mod_mul (by omega)]
  | case2 ds h =>
    match ds, h with
    | [], _ => rfl
    | [a], _ => simp [pairUp, Nat.mod_one]
    | a :: b :: ds, h => exact absurd rfl (h a b ds)

theorem nibbles_append (as bs : List (BitVec 8)) :
    nibbles (as ++ bs) = nibbles as + 16 ^ as.length * nibbles bs := by
  rw [nibbles, List.map_append, Nat.ofDigits_append, List.length_map, nibbles, nibbles]

theorem nibbles_lt {ds : List (BitVec 8)} (hds : ∀ d ∈ ds, d.toNat < 16) :
    nibbles ds < 16 ^ ds.length := by
  have hlt := Nat.ofDigits_lt_base_pow_length (b := 16) (l := ds.map BitVec.toNat) (by decide) (by
    intro x hx
    rw [List.mem_map] at hx
    obtain ⟨d, hd, rfl⟩ := hx
    exact hds d hd)
  rwa [List.length_map] at hlt

theorem nibbles_mod_iff {ds : List (BitVec 8)} (hds : ∀ d ∈ ds, d.toNat < 16) :
    nibbles ds.reverse % 16 ^ (2 * (ds.reverse.length / 2)) = nibbles ds.reverse ↔
      ds.length % 2 = 0 ∨ ds.head? = some 0 := by
  have hrev : ∀ d ∈ ds.reverse, d.toNat < 16 := fun d hd => hds d (List.mem_reverse.mp hd)
  rw [List.length_reverse]
  by_cases heven : ds.length % 2 = 0
  · refine iff_of_true (Nat.mod_eq_of_lt ?_) (Or.inl heven)
    have hlt := nibbles_lt hrev
    rwa [List.length_reverse, show ds.length = 2 * (ds.length / 2) by omega] at hlt
  · match ds, hrev, heven with
    | [], _, heven => exact absurd rfl heven
    | d :: ds, hrev, heven =>
      have hlow : nibbles ds.reverse < 16 ^ ds.length := by
        have hds : ∀ e ∈ ds.reverse, e.toNat < 16 := by
          intro e he
          apply hrev e
          rw [List.reverse_cons]
          exact List.mem_append_left _ he
        have hlt := nibbles_lt hds
        rwa [List.length_reverse] at hlt
      have hlen : 2 * ((d :: ds).length / 2) = ds.length := by
        rw [List.length_cons] at heven ⊢
        omega
      have hone : nibbles [d] = d.toNat := by
        rw [nibbles_cons]
        rfl
      rw [hlen, List.reverse_cons, nibbles_append, List.length_reverse, hone,
        Nat.add_mul_mod_self_left, Nat.mod_eq_of_lt hlow]
      have hpos : 0 < 16 ^ ds.length := Nat.pow_pos (by decide)
      constructor
      · intro h
        have hzero := Nat.add_left_cancel ((Nat.add_zero _).trans h)
        have hd := (Nat.mul_eq_zero.mp hzero.symm).resolve_left hpos.ne'
        exact Or.inr (congrArg some (BitVec.eq_of_toNat_eq hd))
      · intro h
        have hd : d = 0 := Option.some.inj (h.resolve_left heven)
        rw [hd, show (0 : BitVec 8).toNat = 0 from rfl, Nat.mul_zero, Nat.add_zero]

/-! ## What an export writes is read back -/

theorem hexDigit_hexTbl {x : BitVec 8} (hx : x.toNat < 16) :
    hexDigit (hexTbl.getD x.toNat 0) = some x := by
  have hall : ∀ i, i < 16 → hexDigit (hexTbl.getD i 0) = some (BitVec.ofNat 8 i) := by decide
  rw [hall _ hx, BitVec.ofNat_toNat, BitVec.setWidth_eq]

theorem low_nibble_lt (x : BitVec 8) : (x &&& 0x0f).toNat < 16 := by
  have hle : (x &&& 0x0f).toNat ≤ 15 := by
    rw [BitVec.toNat_and]
    exact Nat.and_le_right
  omega

theorem hexDigits_hexPair (b : BitVec 8) :
    hexDigits (hexPair b) = [b >>> 4 &&& 0x0f, b &&& 0x0f] := by
  rw [hexDigits, hexPair, List.filterMap_cons_some (hexDigit_hexTbl (low_nibble_lt _)),
    List.filterMap_cons_some (hexDigit_hexTbl (low_nibble_lt _)), List.filterMap_nil]

theorem pairUp_flatMap {join : BitVec 8 → BitVec 8 → BitVec 8}
    {write : BitVec 8 → List (BitVec 8)} {x y : BitVec 8 → BitVec 8}
    (hwrite : ∀ b, hexDigits (write b) = [x b, y b]) (hjoin : ∀ b, join (x b) (y b) = b)
    (bs : List (BitVec 8)) : pairUp join (hexDigits (bs.flatMap write)) = bs := by
  induction bs with
  | nil => rfl
  | cons b bs ih =>
    have happ : hexDigits (write b ++ bs.flatMap write) =
        [x b, y b] ++ hexDigits (bs.flatMap write) := by
      rw [← hwrite b, hexDigits, List.filterMap_append]
      rfl
    rw [List.flatMap_cons, happ]
    show join (x b) (y b) :: pairUp join (hexDigits (bs.flatMap write)) = b :: bs
    rw [hjoin, ih]

theorem hexBytes_le (bs : List (BitVec 8)) :
    hexBytes (fun first second => (first <<< 4) ||| second) none (bs.flatMap hexPair) = bs := by
  rw [hexBytes_eq]
  apply pairUp_flatMap hexDigits_hexPair
  decide +kernel

theorem hexBytes_be (bs : List (BitVec 8)) :
    hexBytes (fun first second => first ||| (second <<< 4)) none (bs.flatMap hexPair).reverse =
      bs.reverse := by
  rw [hexBytes_eq, List.reverse_flatMap]
  apply pairUp_flatMap (x := fun b => b &&& 0x0f) (y := fun b => b >>> 4 &&& 0x0f)
  · intro b
    rw [Function.comp_apply, hexDigits_reverse, hexDigits_hexPair]
    rfl
  · decide +kernel

/-- The characters an export leaves. -/
def Exported.text (out : Exported) : List (BitVec 8) := out.buf.take (out.size.getD 0)

theorem exportHexExit_ok (text : List (BitVec 8)) (out : Exported) :
    ∃ out', exportHexExit text out = .ok () out' ∧ out'.text = text := by
  refine ⟨_, rfl, ?_⟩
  have htake := @Buffer.take_splice _ out.buf text _ (Nat.zero_le _)
  rw [List.take_zero, List.nil_append, Nat.zero_add] at htake
  rw [Exported.text, Option.getD_some]
  split
  · rw [List.take_set_of_le le_rfl, htake]
  · exact htake

/-- How many zero bytes an export of `bytes` adds. -/
def zeroBytes (a : List Digit) (bytes : List (BitVec 8)) (flags : BitVec 32) (n : Nat) : Nat :=
  if autoSize flags then (if a.length = 0 then 1 else 0) else n / 2 - bytes.length

theorem flatMap_hexPair_zero (k : Nat) :
    (List.replicate k (0 : BitVec 8)).flatMap hexPair = List.replicate (2 * k) 0x30 := by
  induction k with
  | zero => rfl
  | succ k ih =>
    rw [List.replicate_succ, List.flatMap_cons, ih, Nat.mul_succ]
    rfl

theorem exportHex_eq {a : List Digit} {bytes : List (BitVec 8)}
    {join : List (BitVec 8) → List (BitVec 8) → List (BitVec 8)} {flags : BitVec 32}
    {out : Exported} (hjoin : ∀ zeros, join zeros [] = zeros) (hbytes : a.length = 0 ↔ bytes = []) :
    exportHex a bytes join flags out =
      if out.buf.length < 2 then .error .einval out
      else if out.buf.length < 2 * bytes.length then
        .error .eoverflow { out with size := some (2 * bytes.length) }
      else exportHexExit (join
        ((List.replicate (zeroBytes a bytes flags out.buf.length) 0).flatMap hexPair)
        (bytes.flatMap hexPair)) out := by
  rw [exportHex]
  simp only [zeroBytes, flatMap_hexPair_zero]
  by_cases h2 : out.buf.length < 2
  · rw [if_pos h2, if_pos h2]
  · rw [if_neg h2, if_neg h2]
    by_cases h0 : a.length = 0
    · rw [if_pos h0, if_pos h0, hbytes.mp h0, List.length_nil,
        if_neg (show ¬out.buf.length < 2 * 0 by omega), List.flatMap_nil, hjoin, Nat.sub_zero]
      cases autoSize flags with
      | true => rfl
      | false => rw [if_neg (by decide), if_neg (by decide), Nat.mul_comm]
    · rw [if_neg h0, if_neg h0]
      by_cases hbig : out.buf.length < 2 * bytes.length
      · rw [if_pos hbig, if_pos hbig]
      · rw [if_neg hbig, if_neg hbig]
        cases autoSize flags with
        | true => rfl
        | false =>
          rw [if_neg (by decide), if_neg (by decide),
            show (out.buf.length - 2 * bytes.length) / 2 * 2 =
              2 * (out.buf.length / 2 - bytes.length) by omega]

section Export

variable {a : List Digit} {bytes : List (BitVec 8)}
  {join : List (BitVec 8) → List (BitVec 8) → List (BitVec 8)} {flags : BitVec 32}
  {out : Exported}

theorem exportHex_ok (hjoin : ∀ zeros, join zeros [] = zeros) (hbytes : a.length = 0 ↔ bytes = [])
    {out' : Exported} (hrun : exportHex a bytes join flags out = .ok () out') :
    2 ≤ out.buf.length ∧ 2 * bytes.length ≤ out.buf.length ∧ out'.text = join
      ((List.replicate (zeroBytes a bytes flags out.buf.length) 0).flatMap hexPair)
      (bytes.flatMap hexPair) := by
  rw [exportHex_eq hjoin hbytes] at hrun
  split at hrun
  · cases hrun
  · split at hrun
    · cases hrun
    · obtain ⟨out'', hexit, htext⟩ := exportHexExit_ok (join
        ((List.replicate (zeroBytes a bytes flags out.buf.length) 0).flatMap hexPair)
        (bytes.flatMap hexPair)) out
      rw [hexit] at hrun
      cases hrun
      exact ⟨by omega, by omega, htext⟩

theorem exportHex_returns (hjoin : ∀ zeros, join zeros [] = zeros)
    (hbytes : a.length = 0 ↔ bytes = []) (h2 : 2 ≤ out.buf.length)
    (hroom : 2 * bytes.length ≤ out.buf.length) :
    ∃ out', exportHex a bytes join flags out = .ok () out' := by
  rw [exportHex_eq hjoin hbytes, if_neg (by omega), if_neg (by omega)]
  exact ⟨_, rfl⟩

theorem zeroBytes_fits_iff {count n : Nat} (hc : 0 < count) (hfit : bytes.length ≤ 8 * count)
    (hroom : 2 * bytes.length ≤ n) (hbytes : a.length = 0 ↔ bytes = []) :
    bytes.length + zeroBytes a bytes flags n ≤ 8 * count ↔
      autoSize flags = true ∨ n / 2 ≤ 8 * count := by
  rw [zeroBytes]
  cases autoSize flags with
  | true =>
    rw [if_pos rfl]
    refine iff_of_true ?_ (Or.inl rfl)
    by_cases h0 : a.length = 0
    · rw [if_pos h0, hbytes.mp h0, List.length_nil]
      omega
    · rw [if_neg h0]
      exact hfit
  | false =>
    rw [if_neg (by decide), show bytes.length + (n / 2 - bytes.length) = n / 2 by omega]
    constructor
    · exact Or.inr
    · intro h
      exact h.resolve_left (by decide)

theorem zeroBytes_pos (flags : BitVec 32) {n : Nat} (h2 : 2 ≤ n) (hbytes : a.length = 0 ↔ bytes = []) :
    0 < bytes.length + zeroBytes a bytes flags n := by
  rw [zeroBytes]
  cases autoSize flags with
  | true =>
    rw [if_pos rfl]
    by_cases h0 : a.length = 0
    · rw [if_pos h0]
      omega
    · have hne := List.length_pos_of_ne_nil fun h => h0 (hbytes.mpr h)
      omega
  | false =>
    rw [if_neg (by decide)]
    omega

end Export

namespace Bn

variable {b d : Bn}

/-! ## The imports by value -/

theorem importHexBytes_ok (hd : d.WF) (hc : 0 < d.count) {bufSize : Nat}
    {bytes : List (BitVec 8)} (hle : 2 * bytes.length ≤ bufSize) (hpos : 0 < bufSize)
    (hfit : bufSize / 2 ≤ 8 * d.count) :
    Imports (importHexBytes bufSize bytes d) (Limbs.val bytes) := by
  have hnum : Num.importHexBytes bufSize bytes d.abs = .ok () ⟨d.count, Limbs.val bytes⟩ := by
    rw [Num.importHexBytes, abs_count, if_neg (by omega), if_neg (by omega)]
  obtain ⟨t, ht, habs, -⟩ := (importHexBytes_refines hle).ok hd hnum
  exact ⟨t, ht, congrArg Num.val habs⟩

theorem importHexBytes_overflow (hc : 0 < d.count) {bufSize : Nat} (bytes : List (BitVec 8))
    (hbig : 8 * d.count < bufSize / 2) :
    ∃ t, importHexBytes bufSize bytes d = .error .eoverflow t := by
  refine ⟨d.bnInitDigits d.count, ?_⟩
  rw [importHexBytes]
  simp only [bnInitDigits_count]
  rw [if_neg (by omega), if_pos (by omega)]

theorem importHexBytes_einval {bufSize : Nat} (bytes : List (BitVec 8))
    (h : d.count = 0 ∨ bufSize = 0) :
    ∃ t, importHexBytes bufSize bytes d = .error .einval t := by
  refine ⟨d.bnInitDigits d.count, ?_⟩
  rw [importHexBytes]
  simp only [bnInitDigits_count]
  rw [if_pos h]

/-- `bn_import_be_hex` leaves the number `s` denotes, and refuses only a number that does not
fit. -/
structure BeHexExact (s : List (BitVec 8)) (d : Bn) : Prop where
  value : ∀ t, bnImportBeHex s d = .ok () t → t.value = hexNumber s
  overflow : ∀ t, bnImportBeHex s d = .error .eoverflow t → 2 ^ (64 * d.count) ≤ hexNumber s

theorem val_hexBytes_be (s : List (BitVec 8)) :
    Limbs.val (hexBytes (fun first second => first ||| (second <<< 4)) none s.reverse) =
      nibbles (hexDigits s).reverse % 16 ^ (2 * ((hexDigits s).reverse.length / 2)) := by
  rw [hexBytes_eq, Option.toList_none, List.nil_append, hexDigits_reverse, val_pairUp]
  intro x hx
  exact hexDigits_lt (List.mem_reverse.mp hx)

/-- The number is left when no digit is without a partner, or a zero; the string is refused when
half its length is above the size of the number. -/
theorem beHexExact_iff (hd : d.WF) (s : List (BitVec 8)) :
    BeHexExact s d ↔ (0 < d.count →
      (s.length / 2 ≤ 8 * d.count → (hexDigits s).length % 2 = 0 ∨ (hexDigits s).head? = some 0) ∧
      (8 * d.count < s.length / 2 → 2 ^ (64 * d.count) ≤ hexNumber s)) := by
  have hle : 2 * (hexBytes (fun first second => first ||| (second <<< 4)) none
      s.reverse).length ≤ s.length := by
    have := length_hexBytes (fun first second => first ||| (second <<< 4)) none s.reverse
    rwa [List.length_reverse] at this
  have hpairs := @nibbles_mod_iff (hexDigits s) fun _ => hexDigits_lt
  rw [← val_hexBytes_be, ← hexNumber_eq] at hpairs
  -- nothing is imported into a number without digits, or from an empty string
  by_cases h0 : d.count = 0 ∨ s.length = 0
  · obtain ⟨t, ht⟩ := importHexBytes_einval
      (hexBytes (fun first second => first ||| (second <<< 4)) none s.reverse) h0
    refine iff_of_true ⟨?_, ?_⟩ ?_
    · intro t' ht'
      rw [bnImportBeHex, ht] at ht'
      cases ht'
    · intro t' ht'
      rw [bnImportBeHex, ht] at ht'
      cases ht'
    · intro hc
      have hnil : s = [] := List.eq_nil_iff_length_eq_zero.mpr (h0.resolve_left (by omega))
      rw [hnil]
      exact ⟨fun _ => Or.inl rfl, fun h => absurd h (by simp)⟩
  -- half the length of the string is what is compared with the size, so it is imported or refused
  · have hc : 0 < d.count := by omega
    rw [← hpairs]
    by_cases hfit : s.length / 2 ≤ 8 * d.count
    · obtain ⟨t, ht, hv⟩ := importHexBytes_ok hd hc hle (by omega) hfit
      constructor
      · intro h _
        refine ⟨fun _ => ?_, fun hbig => absurd hfit (by omega)⟩
        rw [← hv]
        exact h.value t ht
      · intro h
        refine ⟨?_, ?_⟩
        · intro t' ht'
          rw [bnImportBeHex, ht] at ht'
          cases ht'
          rw [hv]
          exact (h hc).1 hfit
        · intro t' ht'
          rw [bnImportBeHex, ht] at ht'
          cases ht'
    · obtain ⟨t, ht⟩ := importHexBytes_overflow hc (hexBytes
        (fun first second => first ||| (second <<< 4)) none s.reverse) (Nat.lt_of_not_le hfit)
      constructor
      · intro h _
        exact ⟨fun h' => absurd h' hfit, fun _ => h.overflow t ht⟩
      · intro h
        refine ⟨?_, ?_⟩
        · intro t' ht'
          rw [bnImportBeHex, ht] at ht'
          cases ht'
        · intro _ _
          exact (h hc).2 (by omega)

/-! ## Import after export -/

theorem length_flatMap_hexPair (bs : List (BitVec 8)) :
    (bs.flatMap hexPair).length = 2 * bs.length := by
  induction bs with
  | nil => rfl
  | cons b bs ih =>
    rw [List.flatMap_cons, List.length_append, ih, List.length_cons]
    show 2 + 2 * bs.length = _
    omega

theorem importHexBytes_pairs (hd : d.WF) (hc : 0 < d.count) {bs : List (BitVec 8)}
    (hpos : 0 < bs.length) {bytes : List (BitVec 8)} (hlen : bytes.length = bs.length) :
    Imports (importHexBytes (bs.flatMap hexPair).length bytes d) (Limbs.val bytes) ↔
      bs.length ≤ 8 * d.count := by
  rw [length_flatMap_hexPair]
  constructor
  · rintro ⟨t, ht, -⟩
    by_contra hbig
    have hover : 8 * d.count < 2 * bs.length / 2 := by omega
    obtain ⟨t', ht'⟩ := importHexBytes_overflow hc bytes hover
    rw [ht] at ht'
    cases ht'
  · intro hfit
    exact importHexBytes_ok hd hc (by omega) (by omega) (by omega)

/-- What the characters of an export are read back as. -/
def HexBack (run : EStateM.Result Err Exported Unit) (imp : List (BitVec 8) → BnM Bn Unit)
    (value : Nat) (d : Bn) : Prop :=
  ∀ out, run = .ok () out → Imports (imp out.text d) value

theorem toBytes_sig_nil : b.sig.length = 0 ↔ toBytes b.sig = [] := by
  rw [List.eq_nil_iff_length_eq_zero, length_toBytes]
  omega

theorem topBytes_sig_nil (hb : b.WF) : b.sig.length = 0 ↔ topBytes b.sig = [] := by
  rw [List.eq_nil_iff_length_eq_zero, length_topBytes, ← value, limbCount_eq_zero, hb.length_sig,
    hb.digits_eq_zero]

theorem digits_le_of_fits (hb : b.WF) {count : Nat} (hfit : b.value < 2 ^ (64 * count)) :
    b.digits ≤ count := by
  rw [hb.digits_eq, limbCount_le_iff (by decide)]
  exact hfit

theorem length_toBytes_sig_le (hb : b.WF) {count : Nat} (hfit : b.value < 2 ^ (64 * count)) :
    (toBytes b.sig).length ≤ 8 * count := by
  have := digits_le_of_fits hb hfit
  rw [length_toBytes, hb.length_sig]
  omega

theorem length_topBytes_sig_le {count : Nat} (hfit : b.value < 2 ^ (64 * count)) :
    (topBytes b.sig).length ≤ 8 * count := by
  rw [length_topBytes, ← value, limbCount_le_iff (by decide), ← Nat.mul_assoc]
  exact hfit

variable {flags : BitVec 32} {out : Exported}

theorem hexBack_le (hb : b.WF) (hd : d.WF) (hc : 0 < d.count) (hfit : b.value < 2 ^ (64 * d.count))
    (hroom : autoSize flags = true ∨ out.buf.length / 2 ≤ 8 * d.count) :
    HexBack (bnExportLeHex b flags out) bnImportLeHex b.value d := by
  intro out' hrun
  have hrun' : exportHex b.sig (toBytes b.sig) (fun zeros text => text ++ zeros) flags out =
      .ok () out' := hrun
  have hempty := toBytes_sig_nil (b := b)
  obtain ⟨h2, hbuf, htext⟩ := exportHex_ok List.nil_append hempty hrun'
  have hsize := (zeroBytes_fits_iff hc (length_toBytes_sig_le hb hfit) hbuf hempty).mpr hroom
  have hpos := zeroBytes_pos flags h2 hempty
  generalize zeroBytes b.sig (toBytes b.sig) flags out.buf.length = z at htext hsize hpos
  have hval : Limbs.val (toBytes b.sig ++ List.replicate z (0 : BitVec 8)) = b.value := by
    rw [val_append, val_replicate_zero, val_toBytes, Nat.mul_zero, Nat.add_zero, value]
  rw [htext, ← List.flatMap_append, bnImportLeHex, hexBytes_le, ← hval,
    importHexBytes_pairs hd hc (by rw [List.length_append, List.length_replicate]; exact hpos) rfl,
    List.length_append, List.length_replicate]
  exact hsize

theorem hexBack_be (hb : b.WF) (hd : d.WF) (hc : 0 < d.count) (hfit : b.value < 2 ^ (64 * d.count))
    (hroom : autoSize flags = true ∨ out.buf.length / 2 ≤ 8 * d.count) :
    HexBack (bnExportBeHex b flags out) bnImportBeHex b.value d := by
  intro out' hrun
  have hrun' : exportHex b.sig (topBytes b.sig) (fun zeros text => zeros ++ text) flags out =
      .ok () out' := hrun
  have hempty := topBytes_sig_nil hb
  obtain ⟨h2, hbuf, htext⟩ := exportHex_ok List.append_nil hempty hrun'
  have hsize := (zeroBytes_fits_iff hc (length_topBytes_sig_le hfit) hbuf hempty).mpr hroom
  have hpos := zeroBytes_pos flags h2 hempty
  generalize zeroBytes b.sig (topBytes b.sig) flags out.buf.length = z at htext hsize hpos
  have hval : Limbs.val (List.replicate z (0 : BitVec 8) ++ topBytes b.sig).reverse = b.value := by
    rw [List.reverse_append, List.reverse_replicate, val_append, val_replicate_zero, topBytes_eq,
      List.reverse_reverse, ← value, val_limbs_of_lt (lt_pow_limbCount (by decide) _),
      Nat.mul_zero, Nat.add_zero]
  have hlen : (List.replicate z (0 : BitVec 8) ++ topBytes b.sig).length =
      (topBytes b.sig).length + z := by
    rw [List.length_append, List.length_replicate, Nat.add_comm]
  rw [htext, ← List.flatMap_append, bnImportBeHex, hexBytes_be, ← hval,
    importHexBytes_pairs hd hc (by rw [hlen]; exact hpos) List.length_reverse, hlen]
  exact hsize

theorem room_of_hexBack_le (hb : b.WF) (hc : 0 < d.count) (hfit : b.value < 2 ^ (64 * d.count))
    (h : HexBack (bnExportLeHex b flags out) bnImportLeHex b.value d) :
    autoSize flags = true ∨ out.buf.length / 2 ≤ 8 * d.count := by
  by_contra hno
  rw [not_or] at hno
  have hempty := toBytes_sig_nil (b := b)
  have hlen := length_toBytes_sig_le hb hfit
  obtain ⟨out', hrun⟩ := @exportHex_returns b.sig _ (fun zeros text => text ++ zeros) flags out
    List.nil_append hempty (by omega) (by omega)
  obtain ⟨h2, hbuf, htext⟩ := exportHex_ok List.nil_append hempty hrun
  have hpos := zeroBytes_pos flags h2 hempty
  have hsize : ¬(toBytes b.sig).length + zeroBytes b.sig (toBytes b.sig) flags out.buf.length ≤
      8 * d.count := by
    rw [zeroBytes_fits_iff hc hlen hbuf hempty]
    exact fun h => h.elim hno.1 hno.2
  obtain ⟨t, ht, -⟩ := h out' hrun
  have hover : 8 * d.count < out'.text.length / 2 := by
    rw [htext, ← List.flatMap_append, length_flatMap_hexPair, List.length_append,
      List.length_replicate]
    omega
  have himp := importHexBytes_overflow hc
    (hexBytes (fun first second => (first <<< 4) ||| second) none out'.text) hover
  obtain ⟨t', ht'⟩ := himp
  rw [bnImportLeHex, ht'] at ht
  cases ht

/-- What the four functions do with a string `s`, a number `b`, a buffer and a destination `d`. -/
structure HexExact (s : List (BitVec 8)) (b : Bn) (flags : BitVec 32) (out : Exported) (d : Bn) :
    Prop where
  importBe : BeHexExact s d
  backBe : 0 < d.count → b.value < 2 ^ (64 * d.count) →
    HexBack (bnExportBeHex b flags out) bnImportBeHex b.value d
  backLe : 0 < d.count → b.value < 2 ^ (64 * d.count) →
    HexBack (bnExportLeHex b flags out) bnImportLeHex b.value d

/-- The condition on the string is that of `beHexExact_iff`; a text is read back when the export
sizes it, or the buffer is not longer than the destination. -/
theorem hexExact_iff (hb : b.WF) (hd : d.WF) (s : List (BitVec 8)) :
    HexExact s b flags out d ↔
      (0 < d.count → (s.length / 2 ≤ 8 * d.count →
          (hexDigits s).length % 2 = 0 ∨ (hexDigits s).head? = some 0) ∧
        (8 * d.count < s.length / 2 → 2 ^ (64 * d.count) ≤ hexNumber s)) ∧
      (0 < d.count → b.value < 2 ^ (64 * d.count) →
        autoSize flags = true ∨ out.buf.length / 2 ≤ 8 * d.count) := by
  rw [← beHexExact_iff hd s]
  constructor
  · intro h
    exact ⟨h.importBe, fun hc hfit => room_of_hexBack_le hb hc hfit (h.backLe hc hfit)⟩
  · rintro ⟨himp, hroom⟩
    exact ⟨himp, fun hc hfit => hexBack_be hb hd hc hfit (hroom hc hfit),
      fun hc hfit => hexBack_le hb hd hc hfit (hroom hc hfit)⟩

/-- `"1f"` into one digit, and 5 through a buffer of four characters. -/
theorem hexExact_five :
    HexExact [0x31, 0x66] (oneDigit 1 5) 0 ⟨[0, 0, 0, 0], none⟩ (oneDigit 1 3) := by
  have h5 : (oneDigit 1 5).WF := oneDigit_wf (by decide) (by decide) (by decide)
  have h3 : (oneDigit 1 3).WF := oneDigit_wf (by decide) (by decide) (by decide)
  apply (hexExact_iff h5 h3 _).mpr
  constructor
  · intro _
    exact ⟨fun _ => Or.inl (by decide), fun h => absurd h (by decide)⟩
  · intro _ _
    exact Or.inr (by decide)

/-- `"123"` is imported as `"23"`. -/
theorem not_forall_hexExact :
    ¬ ∀ (s : List (BitVec 8)) (b : Bn) (flags : BitVec 32) (out : Exported) (d : Bn), b.WF →
      d.WF → HexExact s b flags out d := by
  intro h
  have hwf : (oneDigit 1 5).WF := oneDigit_wf (by decide) (by decide) (by decide)
  have hexact := (h [0x31, 0x32, 0x33] _ 0 ⟨[0, 0], none⟩ _ hwf hwf).importBe
  have hdigits := ((beHexExact_iff hwf _).mp hexact (by decide)).1 (by decide)
  revert hdigits
  decide

end Bn

end BigNum
