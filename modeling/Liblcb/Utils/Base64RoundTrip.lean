import Liblcb.Utils.Base64Spec

/-!
# Base64 round trip and buffer discipline

What is encoded decodes to itself, also after bytes outside the alphabet have been scattered over the
text.  The terminating zero byte the functions write is not part of the sizes they check and report.
-/

namespace Base64

open Buffer

/-! ## Round trip -/

/-- `y` is `text` with bytes outside the 64-symbol alphabet inserted anywhere. -/
inductive Scattered : List Byte → List Byte → Prop
  | nil : Scattered [] []
  | keep (b : Byte) {text y : List Byte} : Scattered text y → Scattered (b :: text) (b :: y)
  | insert {b : Byte} {text y : List Byte} :
      b ∉ base64TblCoding → Scattered text y → Scattered text (b :: y)

theorem coding_decoding : ∀ b : Byte,
    decoding b = 64 ∨ base64TblCoding[(decoding b).toNat]? = some b := by
  decide +kernel

theorem decoding_of_not_mem (b : Byte) (hb : b ∉ base64TblCoding) : decoding b = 64 :=
  (coding_decoding b).resolve_right fun hget => hb (List.mem_of_getElem? hget)

theorem Scattered.symbols_eq {text y : List Byte} (h : Scattered text y) :
    symbols y = symbols text := by
  induction h with
  | nil => rfl
  | keep b _ ih =>
    by_cases hb : decoding b = 64
    · rw [symbols_cons_of_not hb, symbols_cons_of_not hb, ih]
    · rw [symbols_cons_of_isSymbol hb, symbols_cons_of_isSymbol hb, ih]
  | insert hb _ ih => rw [symbols_cons_of_not (decoding_of_not_mem _ hb), ih]

theorem Scattered.length_le {text y : List Byte} (h : Scattered text y) :
    text.length ≤ y.length := by
  induction h with
  | nil => exact Nat.le_refl 0
  | keep b _ ih =>
    rw [List.length_cons, List.length_cons]
    omega
  | insert _ _ ih =>
    rw [List.length_cons]
    omega

theorem take_splice_append {buf bs cs : List Byte} :
    (splice buf 0 (bs ++ cs)).take bs.length = bs := by
  rw [splice, List.take_zero, List.nil_append, List.append_assoc, List.take_left]

theorem base64Encode_returns {x dst : List Byte} (h : x ≠ [] → encSize x.length < dst.length) :
    ∃ dst', base64Encode x dst = some (⟨.ok, some (encSize x.length)⟩, dst') ∧
      dst'.take (encSize x.length) = encodeList x := by
  by_cases hx : x = []
  · refine ⟨dst, ?_, ?_⟩
    · rw [hx]
      rfl
    · rw [hx]
      rfl
  · refine ⟨_, (base64Encode_eq hx (Nat.le_of_lt (h hx))).trans (if_pos (h hx)), ?_⟩
    rw [← length_encodeList]
    exact take_splice_append

theorem dcdSize_symbols_encodeList (x : List Byte) :
    dcdSize (symbols (encodeList x)).length = 3 * ((x.length + 2) / 3) := by
  rw [dcdSize_eq, length_symbols_encodeList]
  have hdiv := Nat.div_add_mod x.length 3
  have hmod := Nat.mod_lt x.length (show 0 < 3 by decide)
  generalize x.length / 3 = q at hdiv
  interval_cases x.length % 3 <;> omega

theorem base64Decode_encodeList {x dst : List Byte} {src : Src} (h : src.Holds dst 0 (encodeList x))
    (hroom : x ≠ [] → 3 * ((x.length + 2) / 3) ≤ dst.length ∧ x.length < dst.length) :
    ∃ dst', base64Decode src (encodeList x).length dst = some (⟨.ok, some x.length⟩, dst') ∧
      dst'.take x.length = x := by
  by_cases hx : x = []
  · subst hx
    exact ⟨dst, rfl, rfl⟩
  · have hpos : x.length ≠ 0 := fun h0 => hx (List.length_eq_zero_iff.mp h0)
    have hlen := length_symbols_encodeList x
    have hdcd := dcdSize_symbols_encodeList x
    have hdec := decodeList_symbols_encodeList x
    have hrun := base64Decode_eq h (unpadded_encodeList x) (by omega) (by
      rw [hdcd]
      exact (hroom hx).1)
    rw [hdec, if_pos (hroom hx).2] at hrun
    exact ⟨_, hrun, take_splice_append⟩

theorem base64DecodeFmt_scattered {x y dst : List Byte} {src : Src}
    (hy : Scattered (encodeList x) y) (h : src.Holds dst 0 y) (hroom : y.length ≤ dst.length) :
    ∃ dst', base64DecodeFmt src y.length dst = some (⟨.ok, some x.length⟩, dst') ∧
      dst'.take x.length = x := by
  have hsym := hy.symbols_eq
  by_cases hx : x = []
  · subst hx
    have h0 : symbols y = [] := hsym
    have hrun := base64DecodeFmt_short h hroom (by rw [h0]; decide)
    rw [if_pos h0] at hrun
    exact ⟨_, hrun, rfl⟩
  · have hpos : x.length ≠ 0 := fun h0 => hx (List.length_eq_zero_iff.mp h0)
    have hlen := length_symbols_encodeList x
    rw [← hsym] at hlen
    have hdcd := dcdSize_symbols_encodeList x
    rw [← hsym] at hdcd
    have hge := hy.length_le
    rw [length_encodeList, encSize_eq] at hge
    have hdec := decodeList_symbols_encodeList x
    rw [← hsym] at hdec
    have hrun := base64DecodeFmt_eq h hroom (by omega) (by omega)
    rw [hdec] at hrun
    exact ⟨_, hrun, take_splice_append⟩

/-- Encoding and decoding give the text back, with any destination that has room for the output and
its terminating zero; the formatted decoder also ignores what has been scattered over the text.  The
source of a decoder is an object of its own or the destination. -/
theorem base64_roundTrip (x dst : List Byte)
    (hdst : x ≠ [] → 4 * ((x.length + 2) / 3) < dst.length) :
    ∃ dst', base64Encode x dst = some (⟨.ok, some (4 * ((x.length + 2) / 3))⟩, dst') ∧
      (∀ (src : Src) (out : List Byte),
        src.Holds out 0 (dst'.take (4 * ((x.length + 2) / 3))) →
        (x ≠ [] → 3 * ((x.length + 2) / 3) ≤ out.length ∧ x.length < out.length) →
        ∃ out', base64Decode src (4 * ((x.length + 2) / 3)) out =
          some (⟨.ok, some x.length⟩, out') ∧ out'.take x.length = x) ∧
      (∀ (y : List Byte) (src : Src) (out : List Byte),
        Scattered (dst'.take (4 * ((x.length + 2) / 3))) y → src.Holds out 0 y →
        y.length ≤ out.length →
        ∃ out', base64DecodeFmt src y.length out = some (⟨.ok, some x.length⟩, out') ∧
          out'.take x.length = x) := by
  have hsize := encSize_eq x.length
  rw [← hsize] at hdst ⊢
  rcases base64Encode_returns hdst with ⟨dst', hrun, htext⟩
  refine ⟨dst', hrun, ?_, ?_⟩
  · intro src out h hroom
    rw [htext] at h
    rw [← length_encodeList]
    exact base64Decode_encodeList h hroom
  · intro y src out hy h hroom
    rw [htext] at hy
    exact base64DecodeFmt_scattered hy h hroom

/-- One byte, and a destination of five. -/
theorem base64_roundTrip_one : ∃ dst', base64Encode [77] [0, 0, 0, 0, 0] =
    some (⟨.ok, some 4⟩, dst') ∧ ∃ out', base64Decode (.own (dst'.take 4)) 4 [1, 1, 1] =
      some (⟨.ok, some 1⟩, out') ∧ out'.take 1 = [77] := by
  rcases base64_roundTrip [77] [0, 0, 0, 0, 0] (by decide) with ⟨dst', hrun, hdec, -⟩
  exact ⟨dst', hrun, hdec (.own (dst'.take 4)) [1, 1, 1] (holds_own _ _) (by decide)⟩

/-! ## Buffer discipline -/

/-- Calls of `f` with a destination of `n` bytes, when its output has `outSize` bytes: nothing
outside the destination is touched, a destination too small for the output is refused and left as
it is, and a size reported with a refusal is one the call succeeds with. -/
structure Disciplined (f : List Byte → Option (Ret × List Byte)) (outSize n : Nat) : Prop where
  inside : ∀ dst, dst.length = n → f dst ≠ none
  refused : n < outSize → ∀ dst, dst.length = n →
    ∃ r dst', f dst = some (r, dst') ∧ r.code = .enobufs
  report : ∀ dst r dst', dst.length = n → f dst = some (r, dst') → r.code = .enobufs →
    dst' = dst ∧ ∃ k, r.size = some k ∧
      ∀ again, again.length = k → ∃ r' again', f again = some (r', again') ∧ r'.code = .ok

private theorem disciplined_of_refused {f : List Byte → Option (Ret × List Byte)} {outSize n k : Nat}
    (h : ∀ dst, dst.length = n → f dst = some (⟨.enobufs, some k⟩, dst))
    (hagain : ∀ again, again.length = k → ∃ r again', f again = some (r, again') ∧ r.code = .ok) :
    Disciplined f outSize n := by
  refine ⟨?_, ?_, ?_⟩
  · intro dst hn
    rw [h dst hn]
    exact Option.some_ne_none _
  · intro _ dst hn
    exact ⟨_, _, h dst hn, rfl⟩
  · intro dst r dst' hn hrun _
    rw [h dst hn] at hrun
    cases hrun
    exact ⟨rfl, k, rfl, hagain⟩

private theorem disciplined_of_accepted {f : List Byte → Option (Ret × List Byte)} {outSize n : Nat}
    (hfit : outSize ≤ n)
    (h : ∀ dst, dst.length = n → ∃ r dst', f dst = some (r, dst') ∧ r.code ≠ .enobufs) :
    Disciplined f outSize n := by
  refine ⟨?_, fun hlt => absurd hlt (by omega), ?_⟩
  · intro dst hn
    rcases h dst hn with ⟨r, dst', hrun, -⟩
    rw [hrun]
    exact Option.some_ne_none _
  · intro dst r dst' hn hrun hcode
    rcases h dst hn with ⟨r', dst'', hrun', hne⟩
    rw [hrun] at hrun'
    cases hrun'
    exact absurd hcode hne

private theorem not_disciplined_of_report {f : List Byte → Option (Ret × List Byte)}
    {outSize n k : Nat} {dst dst' : List Byte} (hn : dst.length = n)
    (h : f dst = some (⟨.enobufs, some k⟩, dst')) {again : List Byte} (hk : again.length = k)
    (hagain : f again = none) : ¬Disciplined f outSize n := by
  intro hd
  rcases hd.report dst _ dst' hn h rfl with ⟨-, k', hk', hok⟩
  cases hk'
  rcases hok again hk with ⟨r, again', hrun, -⟩
  rw [hagain] at hrun
  cases hrun

theorem base64Encode_refused {src dst : List Byte} (hsrc : src ≠ [])
    (h : dst.length < encSize src.length) :
    base64Encode src dst = some (⟨.enobufs, some (encSize src.length)⟩, dst) := by
  have hne : src.length ≠ 0 := fun h0 => hsrc (List.length_eq_zero_iff.mp h0)
  rw [base64Encode, if_neg hne, if_pos h]

theorem base64Encode_disciplined_iff (src : List Byte) (n : Nat) :
    Disciplined (base64Encode src) (encodeList src).length n ↔
      src = [] ∨ encSize src.length < n := by
  have hlen := length_encodeList src
  by_cases hsrc : src = []
  · subst hsrc
    refine iff_of_true (disciplined_of_accepted (Nat.zero_le n) ?_) (.inl rfl)
    intro dst _
    exact ⟨_, _, rfl, by decide⟩
  -- a destination without room for the terminating zero
  have hexact : ∀ dst : List Byte, dst.length = encSize src.length →
      base64Encode src dst = none := by
    intro dst hn
    rw [base64Encode_eq hsrc (by omega), if_neg (by omega)]
  have hzeros : ∀ k, (List.replicate k (0 : Byte)).length = k := fun k => List.length_replicate
  constructor
  · intro hd
    refine .inr ?_
    by_contra hle
    rcases Nat.lt_or_ge n (encSize src.length) with hlt | hge
    · refine not_disciplined_of_report (hzeros n)
        (base64Encode_refused hsrc (by rw [hzeros]; exact hlt)) (hzeros _)
        (hexact _ (hzeros _)) hd
    · exact hd.inside _ (hzeros n) (hexact _ (by rw [hzeros]; omega))
  · rintro (h | h)
    · exact absurd h hsrc
    · refine disciplined_of_accepted (by omega) ?_
      intro dst hn
      rw [base64Encode_eq hsrc (by omega), if_pos (by omega)]
      exact ⟨_, _, rfl, nofun⟩

theorem base64Decode_refused {text dst : List Byte} (h2 : 2 ≤ (unpadded text).length)
    (h : dst.length < dcdSize (unpadded text).length) :
    base64Decode (.own text) text.length dst =
      some (⟨.enobufs, some (dcdSize (unpadded text).length)⟩, dst) := by
  have hle : (unpadded text).length ≤ text.length := (List.rdropWhile_prefix ..).length_le
  rw [base64Decode, if_neg (by omega), realSize_eq text (holds_own text dst)]
  simp only [Option.bind_eq_bind, Option.bind_some]
  rw [if_neg (by omega), if_neg (by omega), if_pos h]

theorem base64Decode_short {text dst : List Byte} (h2 : (unpadded text).length < 2) :
    ∃ r, base64Decode (.own text) text.length dst = some (r, dst) ∧ r.code ≠ .enobufs := by
  by_cases h0 : text.length = 0
  · exact ⟨_, if_pos h0, by decide⟩
  rw [base64Decode, if_neg h0, realSize_eq text (holds_own text dst)]
  simp only [Option.bind_eq_bind, Option.bind_some]
  rw [if_pos h2]
  split
  · exact ⟨_, rfl, by decide⟩
  · exact ⟨_, rfl, by decide⟩

theorem base64Decode_disciplined_iff (src : List Byte) (n : Nat) :
    Disciplined (base64Decode (.own src) src.length) (decodeList (unpadded src)).length n ↔
      unpadded src = [] ∨ (unpadded src).length % 4 ≠ 0 ∨ dcdSize (unpadded src).length < n := by
  have hlen := length_decodeList (unpadded src)
  have hd := dcdSize_eq (unpadded src).length
  have hzeros : ∀ k, (List.replicate k (0 : Byte)).length = k := fun k => List.length_replicate
  rcases Nat.lt_or_ge (unpadded src).length 2 with hshort | h2
  · refine iff_of_true (disciplined_of_accepted (by omega) ?_) ?_
    · intro dst _
      have hrun : ∃ r, base64Decode (.own src) src.length dst = some (r, dst) ∧ _ :=
        base64Decode_short hshort
      rcases hrun with ⟨r, hrun, hne⟩
      exact ⟨r, dst, hrun, hne⟩
    · by_cases h0 : unpadded src = []
      · exact .inl h0
      · refine .inr (.inl ?_)
        have : (unpadded src).length ≠ 0 := fun h => h0 (List.length_eq_zero_iff.mp h)
        omega
  have hne : unpadded src ≠ [] := by
    intro h0
    rw [h0] at h2
    exact absurd h2 (by decide)
  have hrun : ∀ dst : List Byte, dcdSize (unpadded src).length ≤ dst.length →
      base64Decode (.own src) src.length dst =
        if (decodeList (unpadded src)).length < dst.length then
          some (⟨.ok, some (decodeList (unpadded src)).length⟩,
            splice dst 0 (decodeList (unpadded src) ++ [0]))
        else none :=
    fun dst hroom => base64Decode_eq (holds_own src dst) rfl h2 hroom
  constructor
  · intro hdis
    by_contra hcond
    simp only [not_or, not_not] at hcond
    rcases hcond with ⟨-, hmod, hle⟩
    -- a full last group leaves no room for the terminating zero
    have hexact : ∀ dst : List Byte, dst.length = dcdSize (unpadded src).length →
        base64Decode (.own src) src.length dst = none := by
      intro dst hn
      rw [hrun dst (by omega), if_neg (by omega)]
    rcases Nat.lt_or_ge n (dcdSize (unpadded src).length) with hlt | hge
    · exact not_disciplined_of_report (hzeros n)
        (base64Decode_refused h2 (by rw [hzeros]; exact hlt)) (hzeros _) (hexact _ (hzeros _)) hdis
    · exact hdis.inside _ (hzeros n) (hexact _ (by rw [hzeros]; omega))
  · intro hcond
    have hcond := hcond.resolve_left hne
    have hok : ∀ dst : List Byte, dcdSize (unpadded src).length ≤ dst.length → n ≤ dst.length →
        ∃ r dst', base64Decode (.own src) src.length dst = some (r, dst') ∧ r.code = .ok := by
      intro dst hroom hn
      rw [hrun dst hroom, if_pos (by rcases hcond with h | h <;> omega)]
      exact ⟨_, _, rfl, rfl⟩
    rcases Nat.lt_or_ge n (dcdSize (unpadded src).length) with hlt | hge
    · refine disciplined_of_refused (fun dst hn => base64Decode_refused h2 (by omega)) ?_
      intro again hk
      exact hok again (by omega) (by omega)
    · refine disciplined_of_accepted (by omega) ?_
      intro dst hn
      rcases hok dst (by omega) (by omega) with ⟨r, dst', hr, hcode⟩
      exact ⟨r, dst', hr, by rw [hcode]; decide⟩

theorem base64DecodeFmt_refused {text dst : List Byte} (hroom : text.length ≤ dst.length)
    (h2 : 2 ≤ (symbols text).length) (h : dst.length < dcdSize (symbols text).length) :
    base64DecodeFmt (.own text) text.length dst =
      some (⟨.enobufs, some (dcdSize (symbols text).length)⟩, splice dst 0 (symbols text)) := by
  have hle : (symbols text).length ≤ text.length := List.length_filter_le ..
  have hbuf : (splice dst 0 (symbols text)).length = dst.length := length_splice (by omega)
  rw [base64DecodeFmt, if_neg (by omega), base64EnCopy_eq (holds_own text dst) hroom]
  simp only [Option.bind_eq_bind, Option.bind_some]
  rw [base64Decode, if_neg (by omega), realSize_eq _ (holds_splice dst _ (by omega)),
    unpadded_symbols]
  simp only [Option.bind_eq_bind, Option.bind_some]
  rw [if_neg (by omega), if_neg (by omega), if_pos (by omega)]

theorem base64DecodeFmt_disciplined_iff (src : List Byte) (n : Nat) :
    Disciplined (base64DecodeFmt (.own src) src.length) (decodeList (symbols src)).length n ↔
      src.length ≤ n ∧ ((symbols src).length < 2 ∨ dcdSize (symbols src).length ≤ n) := by
  have hle : (symbols src).length ≤ src.length := List.length_filter_le ..
  have hlen := length_decodeList (symbols src)
  have hfill : ∀ (b : Byte) (k : Nat), (List.replicate k b).length = k :=
    fun _ _ => List.length_replicate
  constructor
  · intro hd
    by_contra hcond
    rcases Nat.lt_or_ge n src.length with hlt | hge
    · -- refused before anything is known about the size
      rcases hd.report (List.replicate n 0) ⟨.enobufs, none⟩ _ (hfill 0 n)
        (if_pos (by rw [hfill]; exact hlt)) rfl with ⟨-, k, hk, -⟩
      cases hk
    · have h2 : 2 ≤ (symbols src).length := by
        by_contra h
        exact hcond ⟨hge, .inl (by omega)⟩
      have hsmall : n < dcdSize (symbols src).length := by
        by_contra h
        exact hcond ⟨hge, .inr (by omega)⟩
      -- the symbols have been copied over a destination of other bytes
      cases hs : symbols src with
      | nil =>
        rw [hs] at h2
        cases h2
      | cons b rest =>
        have hrun : base64DecodeFmt (.own src) src.length (List.replicate n (b + 1)) = _ :=
          base64DecodeFmt_refused (by rw [hfill]; exact hge) h2 (by rw [hfill]; exact hsmall)
        rcases hd.report _ _ _ (hfill (b + 1) n) hrun rfl with ⟨hsame, -⟩
        have hb := congrArg List.head? hsame
        have hn : n = n - 1 + 1 := by omega
        rw [hs, hn, splice, List.take_zero, List.replicate_succ] at hb
        simp only [List.nil_append, List.cons_append, List.head?_cons, Option.some.injEq] at hb
        have := congrArg BitVec.toNat hb
        rw [BitVec.toNat_add] at this
        have hlt := b.isLt
        rw [show (1 : Byte).toNat = 1 from rfl] at this
        omega
  · rintro ⟨hge, hcond⟩
    refine disciplined_of_accepted (by omega) ?_
    intro dst hn
    rcases Nat.lt_or_ge (symbols src).length 2 with hshort | h2
    · refine ⟨_, _, base64DecodeFmt_short (holds_own src dst) (by omega) hshort, ?_⟩
      split <;> decide
    · refine ⟨_, _, base64DecodeFmt_eq (holds_own src dst) (by omega) h2 (by
        rcases hcond with h | h <;> omega), fun h => by cases h⟩

/-- Exactly when the functions keep the buffer discipline: the encoder needs room for one byte more
than it checks and reports; the decoder too, when its last group is full; the formatted decoder must
not be refused at all. -/
theorem base64_disciplined_iff (src : List Byte) (n : Nat) :
    (Disciplined (base64Encode src) (encodeList src).length n ↔
      src = [] ∨ 4 * ((src.length + 2) / 3) < n) ∧
    (Disciplined (base64Decode (.own src) src.length) (decodeList (unpadded src)).length n ↔
      unpadded src = [] ∨ (unpadded src).length % 4 ≠ 0 ∨
        3 * (((unpadded src).length + 3) / 4) < n) ∧
    (Disciplined (base64DecodeFmt (.own src) src.length) (decodeList (symbols src)).length n ↔
      src.length ≤ n ∧ ((symbols src).length < 2 ∨ 3 * (((symbols src).length + 3) / 4) ≤ n)) := by
  rw [← encSize_eq, ← dcdSize_eq, ← dcdSize_eq]
  exact ⟨base64Encode_disciplined_iff src n, base64Decode_disciplined_iff src n,
    base64DecodeFmt_disciplined_iff src n⟩

/-- Three bytes encoded into the four the encoder asks for. -/
theorem base64Encode_not_disciplined :
    ¬∀ (src : List Byte) (n : Nat), Disciplined (base64Encode src) (encodeList src).length n := by
  intro h
  exact (h [77, 97, 110] 4).inside [0, 0, 0, 0] rfl (by decide +kernel)

end Base64
