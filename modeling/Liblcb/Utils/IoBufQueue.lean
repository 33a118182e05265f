import Liblcb.Utils.IoBuf

/-!
# I/O buffers as byte queues

The bytes that a buffer holds are the first `used` ones of its data.  The calls work on these, keep
the sizes within the buffer, and where they fail do nothing, with two exceptions: `io_buf_copy_buf`
takes over an offset that may not fit, and `io_buf_realloc` does not see all memory that it must not
reallocate.
-/

namespace IoBuf

open Mem Buffer

/-- The bytes that the buffer holds. -/
def content (b : IoBuf) : List Byte := b.mem.take b.used

def held (p : Option IoBuf) : List Byte := (p.map content).getD []

/-- The sizes are within the buffer, and the buffer within its memory. -/
structure Ok (b : IoBuf) : Prop where
  used_le : b.used ≤ b.size
  offset_le : b.offset ≤ b.size
  size_le : b.size ≤ b.mem.length
  size_lt : b.size < 2 ^ 64

/-- The buffers are as `io_buf_init` leaves them in memory that is there. -/
def Fresh (s : Store) : Prop :=
  ∀ i b, s i = some b → ∃ flags behind data size own, b = ioBufInit flags behind data size own ∧
    size < 2 ^ 64 ∧ (has flags fDataShared → size ≤ behind.length) ∧
    (has flags fDataShared = false → ∀ mem, data = some mem → size ≤ mem.length)

/-- The allocator refuses, or the size that is asked for has not wrapped around. -/
def Answered (flags : BitVec 32) (size : Nat) (malloc : Malloc) : Prop :=
  malloc (request flags size) = none ∨ wanted flags size < 2 ^ 64

/-- The memory may be handed to `realloc`. -/
def Managed (b : IoBuf) : Prop := b.own ∨ has b.flags fDataShared = false ∧ b.data = none

/-- An offset that is copied fits, memory that the guard lets through is `malloc`'s, and the size of
a block that is got does not wrap around. -/
def StepOk (s : Store) (i : Nat) : Op → Prop
  | .copyBuf src => ∀ d b, same s i src = false → s i = some d → s src = some b →
      b.used ≤ d.size → b.offset ≤ d.size
  | .realloc flags size malloc =>
    (s i = none → flags &&& flagsBadMask ≠ flagsBadMask →
      (has flags fDataShared ∨ has flags fDataAlloc) → Answered flags size.toNat malloc) ∧
    ∀ b, s i = some b → b.unmanaged = false → b.Managed ∧ Answered b.flags size.toNat malloc
  | .change _ _ => s i ≠ none
  | _ => True

/-- What `io_buf_prepend` leaves: so many of the bytes as still fit, moved to the right. -/
structure Shifted (b b' : IoBuf) (size : Nat) : Prop where
  size_eq : b'.size = b.size
  used_eq : b'.used = min (b.used + size) b.size
  content_eq : b'.content.drop size = b.content.take (b.size - size)

/-- What is at the pointer `i` where a call returns 0. -/
def Effect (s : Store) (i : Nat) (p : Option IoBuf) : Op → Prop
  | .copyin (.bytes data) => held p = held (s i) ++ data
  | .copyin (.null _) => p = s i
  | .copyinBuf src => if same s i src then p = s i else held p = held (s i) ++ held (s src)
  | .copyBuf src => held p = held (s src)
  | .cutHead size => size.toNat ≤ (held (s i)).length ∧ held p = (held (s i)).drop size.toNat
  | .prepend size _ => ∀ b b', s i = some b → p = some b' → Shifted b b' size.toNat
  | .realloc _ size _ => held p = (held (s i)).take size.toNat
  | .change _ _ => ∀ b b', s i = some b → p = some b' → b'.data = b.data ∧ b'.size = b.size

/-- What a call does: an error changes nothing, and no other buffer changes. -/
structure Does (s : Store) (i : Nat) (op : Op) (rc : Except Errno Unit) (s' : Store) : Prop where
  error : ∀ e, rc = .error e → s' = s
  frame : ∀ j, j ≠ i → s' j = s j
  effect : rc = .ok () → Effect s i (s' i) op

def Bounds (s : Store) : Prop := ∀ i b, s i = some b → b.used ≤ b.size ∧ b.offset ≤ b.size

/-- Every call of the run has an outcome and does what it should, and the sizes stay in bounds. -/
def Correct : Store → List (Nat × Op) → Prop
  | s, [] => Bounds s
  | s, (i, op) :: ops => Bounds s ∧
      ∃ rc s', step s i op = some (rc, s') ∧ Does s i op rc s' ∧ Correct s' ops

/-- Every step of the run meets its condition. -/
def RunOk : Store → List (Nat × Op) → Prop
  | _, [] => True
  | s, (i, op) :: ops => StepOk s i op ∧ ∀ rc s', step s i op = some (rc, s') → RunOk s' ops

/-! ## Sizes -/

variable {b b' : IoBuf} {pos n val max size : Nat} {bs : List Byte}

theorem valueInRangeInc_eq (hval : val ≤ max) (hmax : max < 2 ^ 64) :
    valueInRangeInc val max size = min (val + size) max := by
  rw [valueInRangeInc, sub64, add64]
  split_ifs with h
  · omega
  · omega

theorem valueInRangeDec_eq (hval : val < 2 ^ 64) : valueInRangeDec val size = val - size := by
  rw [valueInRangeDec, sub64]
  split_ifs with h
  · omega
  · omega

theorem Ok.freeSize_eq (h : b.Ok) : b.freeSize = b.size - b.used := by
  have hused := h.used_le
  have hlt := h.size_lt
  rw [freeSize, sub64]
  omega

/-! ## Data -/

theorem read_eq (h : b.Ok) (hfit : pos + n ≤ b.size) :
    b.read pos n = some ((b.mem.drop pos).take n) := by
  have hle := h.size_le
  rw [read, if_pos ⟨hfit, by omega⟩]

def setData (b : IoBuf) (data : Option (List Byte)) : IoBuf := { b with data := data }

theorem write_eq (h : b.Ok) (hfit : pos + bs.length ≤ b.size) :
    ∃ data, b.write pos bs = some (b.setData data) ∧ data.getD [] = splice b.mem pos bs := by
  have hle := h.size_le
  refine ⟨_, by rw [write, if_pos ⟨hfit, by omega⟩, setData], ?_⟩
  cases hdata : b.data with
  | none =>
    have hmem : b.mem = [] := by rw [mem, hdata]; rfl
    have hbs : bs = [] := by
      rw [hmem, List.length_nil] at hle
      exact List.length_eq_zero_iff.mp (by omega)
    rw [hbs, splice_nil, hmem]
    rfl
  | some mem =>
    have hmem : b.mem = mem := by rw [IoBuf.mem, hdata]; rfl
    rw [hmem]
    rfl

theorem memmove_eq (h : b.Ok) {dst src : Nat} (hsrc : src + n ≤ b.size) (hdst : dst + n ≤ b.size) :
    ∃ data, b.memmove dst src n = some (b.setData data) ∧
      data.getD [] = splice b.mem dst ((b.mem.drop src).take n) := by
  have hle := h.size_le
  have hlen : ((b.mem.drop src).take n).length = n := by
    rw [List.length_take, List.length_drop]
    omega
  obtain ⟨data, hwrite, hdata⟩ := @write_eq _ dst ((b.mem.drop src).take n) h (by omega)
  refine ⟨data, ?_, hdata⟩
  rw [memmove, read_eq h hsrc]
  exact hwrite

/-! ## The calls -/

/-- A call does its part at its pointer. -/
structure Outcome (p : Option IoBuf) (rc : Except Errno Unit) (p' : Option IoBuf) (E : Prop) :
    Prop where
  ok : ∀ b, p' = some b → b.Ok
  error : ∀ e, rc = .error e → p' = p
  effect : rc = .ok () → E

variable {p : Option IoBuf} {E : Prop}

theorem Outcome.of_error {e : Errno} (hp : ∀ b, p = some b → b.Ok) :
    Outcome p (.error e) p E := ⟨hp, fun _ _ => rfl, fun h => (by cases h)⟩

theorem Outcome.of_ok (hb : b'.Ok) (h : E) : Outcome p (.ok ()) (some b') E :=
  ⟨fun _ heq => Option.some.inj heq ▸ hb, fun e heq => (by cases heq), fun _ => h⟩

theorem Outcome.of_same (hp : ∀ b, p = some b → b.Ok) (h : E) : Outcome p (.ok ()) p E :=
  ⟨hp, fun _ _ => rfl, fun _ => h⟩

theorem Ok.of_data (h : b.Ok) (hsize : b'.size = b.size)
    (hmem : b'.mem.length = b.mem.length) (hused : b'.used ≤ b.size)
    (hoffset : b'.offset ≤ b.size) : b'.Ok :=
  ⟨hsize ▸ hused, hsize ▸ hoffset, by rw [hsize, hmem]; exact h.size_le, hsize ▸ h.size_lt⟩

theorem copyin_bytes (hp : ∀ b, p = some b → b.Ok) (data : List Byte) :
    ∃ rc p', ioBufCopyin p (.bytes data) = some (rc, p') ∧
      Outcome p rc p' (held p' = held p ++ data) := by
  by_cases hzero : data.length = 0
  · refine ⟨_, _, if_pos hzero, .of_same hp ?_⟩
    rw [List.length_eq_zero_iff.mp hzero, List.append_nil]
  cases p with
  | none => exact ⟨_, _, if_neg hzero, .of_error hp⟩
  | some b =>
    have h := hp b rfl
    by_cases hfree : b.freeSize < data.length
    · exact ⟨_, _, (if_neg hzero).trans (if_pos hfree), .of_error hp⟩
    · have hfit : b.used + data.length ≤ b.size := by
        have hused := h.used_le
        rw [h.freeSize_eq] at hfree
        omega
      have hle := h.size_le
      have hlt := h.size_lt
      have hadd : add64 b.used data.length = b.used + data.length := by
        rw [add64]
        omega
      obtain ⟨m, hwrite, hmem⟩ := write_eq h hfit
      refine ⟨.ok (), some { b.setData m with used := add64 b.used data.length }, ?_,
        .of_ok (h.of_data rfl ?_ (hadd ▸ hfit) h.offset_le) ?_⟩
      · refine (if_neg hzero).trans ((if_neg hfree).trans ?_)
        rw [hwrite]
        rfl
      · show (m.getD []).length = b.mem.length
        rw [hmem, length_splice (by omega)]
      · show (m.getD []).take (add64 b.used data.length) = b.mem.take b.used ++ data
        rw [hadd, hmem, take_splice (by omega)]

theorem copyin_null (hp : ∀ b, p = some b → b.Ok) (dataSize : Nat) :
    ∃ rc p', ioBufCopyin p (.null dataSize) = some (rc, p') ∧ Outcome p rc p' (p' = p) := by
  by_cases hzero : dataSize = 0
  · exact ⟨_, _, if_pos hzero, .of_same hp rfl⟩
  · cases p with
    | none => exact ⟨_, _, if_neg hzero, .of_error hp⟩
    | some b => exact ⟨_, _, if_neg hzero, .of_error hp⟩

theorem copyinBuf (hp : ∀ b, p = some b → b.Ok) {q : Option IoBuf} (hq : ∀ b, q = some b → b.Ok)
    (same : Bool) : ∃ rc p', ioBufCopyinBuf same p q = some (rc, p') ∧
      Outcome p rc p' (if same then p' = p else held p' = held p ++ held q) := by
  cases same with
  | true => exact ⟨_, _, rfl, .of_same hp rfl⟩
  | false =>
    cases q with
    | none => exact ⟨_, _, rfl, .of_error hp⟩
    | some src =>
      have h := hq src rfl
      have hle := h.size_le
      have hused := h.used_le
      cases hdata : src.data with
      | none =>
        -- without data nothing is used
        have hmem : src.mem = [] := by rw [mem, hdata]; rfl
        rw [hmem, List.length_nil] at hle
        have hzero : src.used = 0 := by omega
        have hsrc : src.usedData = some (.null 0) := by rw [usedData, hdata, hzero]
        refine ⟨.ok (), p, ?_, .of_same hp ?_⟩
        · show (src.usedData.bind fun data => ioBufCopyin p data) = _
          have hrun : ioBufCopyin p (.null 0) = some (.ok (), p) := if_pos rfl
          rw [hsrc]
          exact hrun
        · show held p = held p ++ src.mem.take src.used
          rw [hmem, List.take_nil, List.append_nil]
      | some mem =>
        have hsrc : src.usedData = some (.bytes (src.mem.take src.used)) := by
          rw [usedData, hdata, read_eq h (by omega), List.drop_zero]
          rfl
        -- the used bytes of the source are copied like any others
        obtain ⟨rc, p', hrun, hout⟩ := copyin_bytes hp (src.mem.take src.used)
        refine ⟨rc, p', ?_, hout⟩
        show (src.usedData.bind fun data => ioBufCopyin p data) = _
        rw [hsrc]
        exact hrun

theorem copyBuf (hp : ∀ b, p = some b → b.Ok) {q : Option IoBuf} (hq : ∀ b, q = some b → b.Ok)
    {same : Bool} (hsame : same → held p = held q)
    (hfit : ∀ d b, same = false → p = some d → q = some b → b.used ≤ d.size → b.offset ≤ d.size) :
    ∃ rc p', ioBufCopyBuf same p q = some (rc, p') ∧ Outcome p rc p' (held p' = held q) := by
  cases same with
  | true => exact ⟨_, _, rfl, .of_same hp (hsame rfl)⟩
  | false =>
    cases p with
    | none =>
      cases q with
      | none => exact ⟨_, _, rfl, .of_error hp⟩
      | some src => exact ⟨_, _, rfl, .of_error hp⟩
    | some d =>
      cases q with
      | none => exact ⟨_, _, rfl, .of_error hp⟩
      | some src =>
        have hd := hp d rfl
        have hs := hq src rfl
        by_cases hsmall : d.size < src.used
        · exact ⟨_, _, if_pos hsmall, .of_error hp⟩
        · have hused := hs.used_le
          have hsle := hs.size_le
          have hdle := hd.size_le
          have hlen : (src.mem.take src.used).length = src.used := by
            rw [List.length_take]
            omega
          obtain ⟨m, hwrite, hmem⟩ :=
            @write_eq _ 0 (src.mem.take src.used) hd (by omega)
          refine ⟨.ok (), some { d.setData m with
            used := src.used, offset := src.offset, transferSize := src.transferSize }, ?_,
            .of_ok (hd.of_data rfl ?_ (Nat.not_lt.mp hsmall)
              (hfit d src rfl rfl rfl (Nat.not_lt.mp hsmall))) ?_⟩
          · refine (if_neg hsmall).trans ?_
            rw [read_eq hs (by omega), List.drop_zero, Option.bind_eq_bind, Option.bind_some,
              hwrite]
            rfl
          · show (m.getD []).length = d.mem.length
            rw [hmem, length_splice (by omega)]
          · -- what is held now is what was written at the head
            show (m.getD []).take src.used = src.mem.take src.used
            have htake := @take_splice _ d.mem (src.mem.take src.used) _ (Nat.zero_le _)
            rw [hlen, Nat.zero_add, List.take_zero, List.nil_append] at htake
            rw [hmem, htake]

theorem cutHead (hp : ∀ b, p = some b → b.Ok) (size : Nat) :
    ∃ rc p', ioBufCutHead p size = some (rc, p') ∧
      Outcome p rc p' (size ≤ (held p).length ∧ held p' = (held p).drop size) := by
  by_cases hzero : size = 0
  · refine ⟨_, _, if_pos hzero, .of_same hp ?_⟩
    rw [hzero, List.drop_zero]
    exact ⟨Nat.zero_le _, rfl⟩
  cases p with
  | none => exact ⟨_, _, if_neg hzero, .of_error hp⟩
  | some b =>
    have h := hp b rfl
    by_cases hused : b.used < size
    · exact ⟨_, _, (if_neg hzero).trans (if_pos hused), .of_error hp⟩
    · have hle := h.size_le
      have hule := h.used_le
      have hole := h.offset_le
      have hlt := h.size_lt
      have hsub : sub64 b.used size = b.used - size := by
        rw [sub64]
        omega
      have hcut : ({ b with used := b.used - size } : IoBuf).Ok :=
        h.of_data rfl rfl (by show b.used - size ≤ b.size; omega) hole
      obtain ⟨m, hmove, hmem⟩ := @memmove_eq _ (b.used - size) hcut 0 size
        (by show size + (b.used - size) ≤ b.size; omega)
        (by show 0 + (b.used - size) ≤ b.size; omega)
      have hdec : valueInRangeDec b.offset size = b.offset - size := valueInRangeDec_eq (by omega)
      have hlen : ((b.mem.drop size).take (b.used - size)).length = b.used - size := by
        rw [List.length_take, List.length_drop]
        omega
      replace hmem : m.getD [] = splice b.mem 0 ((b.mem.drop size).take (b.used - size)) := hmem
      refine ⟨.ok (), some (({ b with used := b.used - size }.setData m).offsetDec size), ?_,
        .of_ok (hcut.of_data rfl ?_ (by show b.used - size ≤ b.size; omega) ?_) ⟨?_, ?_⟩⟩
      · refine (if_neg hzero).trans ((if_neg hused).trans ?_)
        show (({ b with used := sub64 b.used size } : IoBuf).memmove 0 size
          (sub64 b.used size)).bind _ = _
        rw [hsub, hmove]
        rfl
      · show (m.getD []).length = b.mem.length
        rw [hmem, length_splice (by omega)]
      · show valueInRangeDec b.offset size ≤ b.size
        omega
      · show size ≤ (b.mem.take b.used).length
        rw [List.length_take]
        omega
      · -- the bytes behind the cut have been moved to the head
        show (m.getD []).take (b.used - size) = (b.mem.take b.used).drop size
        have htake := @take_splice _ b.mem ((b.mem.drop size).take (b.used - size)) _
          (Nat.zero_le _)
        rw [hlen, Nat.zero_add, List.take_zero, List.nil_append] at htake
        rw [hmem, htake, List.drop_take]

theorem prepend_move (h : b.Ok) (hsize : size ≤ b.size) (hn : n = min b.used (b.size - size)) :
    ∃ data, b.memmove size 0 n = some (b.setData data) ∧
      ({ b.setData data with used := n + size }.offsetInc size).Ok ∧
      Shifted b ({ b.setData data with used := n + size }.offsetInc size) size := by
  have hle := h.size_le
  have hule := h.used_le
  have hlt := h.size_lt
  have hlen : ((b.mem.drop 0).take n).length = n := by
    rw [List.length_take, List.length_drop]
    omega
  obtain ⟨m, hmove, hmem⟩ := @memmove_eq _ n h size 0 (by omega) (by omega)
  have hinc : valueInRangeInc b.offset b.size size = min (b.offset + size) b.size :=
    valueInRangeInc_eq h.offset_le hlt
  refine ⟨m, hmove, h.of_data rfl ?_ (by show n + size ≤ b.size; omega) ?_, rfl, ?_, ?_⟩
  · show (m.getD []).length = b.mem.length
    rw [hmem, length_splice (by omega)]
  · show valueInRangeInc b.offset b.size size ≤ b.size
    omega
  · show n + size = min (b.used + size) b.size
    omega
  · show ((m.getD []).take (n + size)).drop size = (b.mem.take b.used).take (b.size - size)
    have htake := @take_drop_splice _ b.mem ((b.mem.drop 0).take n) size (by omega)
    rw [hlen] at htake
    rw [List.drop_take, Nat.add_sub_cancel, hmem, htake, List.drop_zero, List.take_take, hn,
      Nat.min_comm]

theorem prepend (hp : ∀ b, p = some b → b.Ok) (size : Nat) (lost : Bool) :
    ∃ rc p', ioBufPrepend p size lost = some (rc, p') ∧
      Outcome p rc p' (∀ b b', p = some b → p' = some b' → Shifted b b' size) := by
  by_cases hzero : size = 0
  · refine ⟨_, _, if_pos hzero, .of_same hp ?_⟩
    rintro b b' rfl hb'
    cases hb'
    have hule := (hp b rfl).used_le
    refine ⟨rfl, by omega, ?_⟩
    rw [hzero, List.drop_zero, Nat.sub_zero, content, List.take_take, Nat.min_eq_right hule]
  cases p with
  | none => exact ⟨_, _, if_neg hzero, .of_error hp⟩
  | some b =>
    have h := hp b rfl
    have hfree := h.freeSize_eq
    have hule := h.used_le
    have hlt := h.size_lt
    have heffect : ∀ {c : IoBuf}, Shifted b c size →
        ∀ b₁ b', some b = some b₁ → some c = some b' → Shifted b₁ b' size := by
      rintro c hc b₁ b' heq heq'
      cases heq
      cases heq'
      exact hc
    by_cases hmore : b.freeSize < size
    · -- not enough room: the tail is lost if the caller allows it
      by_cases hrefuse : lost = false ∨ b.size < size
      · exact ⟨_, _, (if_neg hzero).trans ((if_pos hmore).trans (if_pos hrefuse)), .of_error hp⟩
      · rw [not_or, Nat.not_lt] at hrefuse
        have hmove : sub64 b.used (sub64 size b.freeSize) = b.size - size := by
          rw [sub64, sub64]
          omega
        obtain ⟨m, hrun, hok, hshift⟩ := prepend_move (n := b.size - size) h hrefuse.2 (by omega)
        rw [Nat.sub_add_cancel hrefuse.2] at hok hshift
        refine ⟨.ok (), _, ?_, .of_ok hok (heffect hshift)⟩
        refine (if_neg hzero).trans ((if_pos hmore).trans ((if_neg ?_).trans ?_))
        · rw [not_or, Nat.not_lt]
          exact hrefuse
        · rw [hmove, hrun]
          rfl
    · -- all that is used moves up
      obtain ⟨m, hrun, hok, hshift⟩ := @prepend_move _ b.used size h (by omega) (by omega)
      have hadd : add64 b.used size = b.used + size := by
        rw [add64]
        omega
      refine ⟨.ok (), _, ?_, .of_ok hok (heffect hshift)⟩
      refine (if_neg hzero).trans ((if_neg hmore).trans ?_)
      rw [hrun, ← hadd]
      rfl

/-! ## Allocation -/

variable {flags : BitVec 32} {malloc : Malloc} {bytes : Nat → Byte} {old : List Byte}

theorem length_block : (block old n bytes).length = n := by
  rw [block, List.length_append, List.length_take, List.length_map, List.length_range]
  omega

theorem take_block (hn : pos ≤ n) (hold : pos ≤ old.length) :
    (block old n bytes).take pos = old.take pos := by
  rw [block, List.take_append_of_le_length (by rw [List.length_take]; omega), List.take_take,
    Nat.min_eq_left hn]

theorem dataBytes_request (h : wanted flags size < 2 ^ 64) :
    dataBytes flags (request flags size) = size + 4 := by
  rw [dataBytes, request, Nat.mod_eq_of_lt h, wanted, sizeofIoBuf]
  split_ifs
  · omega
  · omega

theorem signSet_eq (h : b.size < b.mem.length) : ∃ data, b.signSet = some (b.setData data) ∧
    (data.getD []).length = b.mem.length ∧ (data.getD []).take b.size = b.mem.take b.size := by
  rw [signSet]
  by_cases hskip : b.data = none ∨ has b.flags (fDataShared ||| fDataAlloc) = false
  · exact ⟨b.data, if_pos hskip, rfl, rfl⟩
  · refine ⟨_, (if_neg hskip).trans (if_pos h), ?_, ?_⟩
    · cases hdata : b.data with
      | none => exact absurd (.inl hdata) hskip
      | some mem =>
        rw [IoBuf.mem, hdata, Option.map_some, Option.getD_some, Option.getD_some,
          List.length_set]
    · cases hdata : b.data with
      | none => exact absurd (.inl hdata) hskip
      | some mem =>
        rw [IoBuf.mem, hdata, Option.map_some, Option.getD_some, Option.getD_some,
          List.take_set_of_le (Nat.le_refl _)]

def New (p : Option IoBuf) : Prop := ∀ b, p = some b → b.Ok ∧ b.used = 0

theorem allocInit_new {data : Option (List Byte)} (hlt : size < 2 ^ 64)
    (hroom : ∀ mem, data = some mem → size < mem.length)
    (hdata : data = none → has flags fDataShared = false) :
    ∃ p, allocInit flags data size = some p ∧ New p := by
  cases data with
  -- a buffer without data has size 0
  | none =>
    have hshared := hdata rfl
    have hnone : (ioBufInit flags [] none size true).data = none := by
      rw [ioBufInit, hshared]
      rfl
    have hsize : (ioBufInit flags [] none size true).size = 0 := by
      rw [ioBufInit, hshared]
      rfl
    refine ⟨some { ioBufInit flags [] none size true with
      flags := (ioBufInit flags [] none size true).flags ||| fAllocBuf }, ?_, ?_⟩
    · rw [allocInit, Option.getD_none, signSet, if_pos (.inl hnone)]
      rfl
    · rintro b ⟨⟩
      refine ⟨⟨Nat.zero_le _, Nat.zero_le _, ?_, ?_⟩, rfl⟩
      · show (ioBufInit flags [] none size true).size ≤ _
        rw [hsize]
        exact Nat.zero_le _
      · show (ioBufInit flags [] none size true).size < _
        rw [hsize]
        decide
  | some mem =>
    have hmem : (ioBufInit flags mem (some mem) size true).data = some mem := by
      rw [ioBufInit]
      exact ite_self _
    have hsize : (ioBufInit flags mem (some mem) size true).size = size := by
      show (if (ioBufInit flags mem (some mem) size true).data = none then 0 else size) = size
      rw [hmem, if_neg (Option.some_ne_none _)]
    have hroom' := hroom mem rfl
    obtain ⟨m, hsign, hlen, -⟩ := signSet_eq (b := ioBufInit flags mem (some mem) size true) (by
      rw [hsize, IoBuf.mem, hmem]
      exact hroom')
    refine ⟨some { (ioBufInit flags mem (some mem) size true).setData m with
      flags := (ioBufInit flags mem (some mem) size true).flags ||| fAllocBuf }, ?_, ?_⟩
    · rw [allocInit, Option.getD_some, hsign]
      rfl
    · rintro b ⟨⟩
      refine ⟨⟨Nat.zero_le _, Nat.zero_le _, ?_, ?_⟩, rfl⟩
      · show (ioBufInit flags mem (some mem) size true).size ≤ (m.getD []).length
        rw [hsize, hlen, IoBuf.mem, hmem]
        exact Nat.le_of_lt hroom'
      · show (ioBufInit flags mem (some mem) size true).size < _
        rw [hsize]
        exact hlt

theorem ioBufAlloc_new (hlt : size < 2 ^ 64)
    (h : flags &&& flagsBadMask ≠ flagsBadMask → (has flags fDataShared ∨ has flags fDataAlloc) →
      Answered flags size malloc) :
    ∃ p, ioBufAlloc flags size malloc = some p ∧ New p := by
  have hnull : New none := fun b hb => by cases hb
  -- the block is there, and has room for the marker
  have hgot : ∀ {bytes}, Answered flags size malloc → malloc (request flags size) = some bytes →
      ∃ p, allocInit flags
        (some (block [] (dataBytes flags (request flags size)) bytes)) size = some p ∧ New p := by
    intro bytes hanswered hm
    have hwanted : wanted flags size < 2 ^ 64 := by
      rcases hanswered with hnone | hwanted
      · rw [hm] at hnone
        cases hnone
      · exact hwanted
    refine allocInit_new hlt ?_ (fun hnone => by cases hnone)
    rintro mem ⟨⟩
    rw [length_block, dataBytes_request hwanted]
    omega
  rw [ioBufAlloc]
  by_cases hbad : flags &&& flagsBadMask = flagsBadMask
  · exact ⟨none, if_pos hbad, hnull⟩
  rw [if_neg hbad]
  by_cases hshared : has flags fDataShared
  · rw [if_pos hshared]
    cases hm : malloc (request flags size) with
    | none => exact ⟨none, rfl, hnull⟩
    | some bytes => exact hgot (h hbad (.inl hshared)) hm
  · rw [if_neg hshared]
    cases malloc sizeofIoBuf with
    | none => exact ⟨none, rfl, hnull⟩
    | some _ =>
      dsimp only
      by_cases halloc : has flags fDataAlloc
      · rw [if_pos halloc]
        cases hm : malloc (request flags size) with
        | none => exact ⟨none, rfl, hnull⟩
        | some bytes => exact hgot (h hbad (.inr halloc)) hm
      · rw [if_neg halloc]
        exact allocInit_new hlt (fun mem hmem => by cases hmem)
          (fun _ => Bool.eq_false_iff.mpr hshared)

theorem New.held_eq (h : New p) : held p = [] := by
  cases p with
  | none => rfl
  | some b =>
    show b.mem.take b.used = []
    rw [(h b rfl).2, List.take_zero]

theorem realloc_null (hlt : size < 2 ^ 64)
    (h : flags &&& flagsBadMask ≠ flagsBadMask → (has flags fDataShared ∨ has flags fDataAlloc) →
      Answered flags size malloc) :
    ∃ rc p', ioBufRealloc none flags size malloc = some (rc, p') ∧
      Outcome none rc p' (held p' = (held none).take size) := by
  by_cases hbad : flags &&& flagsBadMask = flagsBadMask
  · exact ⟨_, _, if_pos hbad, .of_error fun b hb => by cases hb⟩
  obtain ⟨p, halloc, hnew⟩ := ioBufAlloc_new hlt h
  have hrun : ioBufRealloc none flags size malloc =
      some (if p.isSome then .ok () else .error .enomem, p) := by
    refine (if_neg hbad).trans ?_
    rw [halloc]
    rfl
  cases p with
  | none => exact ⟨_, _, hrun, .of_error fun b hb => by cases hb⟩
  | some b =>
    refine ⟨_, _, hrun, .of_ok (hnew b rfl).1 ?_⟩
    rw [hnew.held_eq]
    exact List.take_nil.symm

theorem min_eq_ite (m n : Nat) : (if n < m then n else m) = min m n := by
  split_ifs with h
  · omega
  · omega

theorem realloc_some (h : b.Ok) (hlt : size < 2 ^ 64)
    (hok : b.unmanaged = false → b.Managed ∧ Answered b.flags size malloc) :
    ∃ rc p', ioBufRealloc (some b) flags size malloc = some (rc, p') ∧
      Outcome (some b) rc p' (held p' = (held (some b)).take size) := by
  have hp : ∀ c, some b = some c → c.Ok := by
    rintro c ⟨⟩
    exact h
  cases hunmanaged : b.unmanaged with
  | true => exact ⟨_, _, if_pos hunmanaged, .of_error hp⟩
  | false =>
    obtain ⟨hmanaged, hanswered⟩ := hok hunmanaged
    have hown : ¬ (b.own = false ∧ (has b.flags fDataShared = true ∨ b.data ≠ none)) := by
      rintro ⟨hown, hor⟩
      rcases hmanaged with hmalloc | ⟨hshared, hnone⟩
      · rw [hown] at hmalloc
        cases hmalloc
      · rcases hor with hshared' | hsome
        · rw [hshared] at hshared'
          cases hshared'
        · exact hsome hnone
    have hnot : ¬ b.unmanaged = true := by
      rw [hunmanaged]
      decide
    cases hm : malloc (request b.flags size) with
    | none =>
      refine ⟨.error .enomem, some b, ?_, .of_error hp⟩
      refine (if_neg hnot).trans ((if_neg hown).trans ?_)
      rw [hm]
    | some bytes =>
      -- the block that was asked for is there, so its size has not wrapped
      have hwanted : wanted b.flags size < 2 ^ 64 := by
        rcases hanswered with hnone | hwanted
        · rw [hm] at hnone
          cases hnone
        · exact hwanted
      have hbytes := dataBytes_request hwanted
      have hlen := @length_block (size + 4) bytes b.mem
      obtain ⟨m, hsign, hmlen, hmtake⟩ := signSet_eq
        (b := { b with data := some (block b.mem (size + 4) bytes), size := size, own := true })
        (by show size < (block b.mem (size + 4) bytes).length; omega)
      replace hmlen : (m.getD []).length = size + 4 := hmlen.trans hlen
      replace hmtake : (m.getD []).take size = (block b.mem (size + 4) bytes).take size :=
        hmtake
      have hule := h.used_le
      have hle := h.size_le
      have hused := min_eq_ite b.used size
      have hoffset := min_eq_ite b.offset size
      refine ⟨.ok (), some
        { data := m, size := size, used := if size < b.used then size else b.used,
          offset := if size < b.offset then size else b.offset,
          transferSize := if (if size < b.used then size else b.used) < b.transferSize then
            if size < b.used then size else b.used else b.transferSize,
          flags := b.flags, own := true }, ?_, .of_ok ⟨?_, ?_, ?_, hlt⟩ ?_⟩
      · refine (if_neg hnot).trans ((if_neg hown).trans ?_)
        rw [hm]
        dsimp only
        rw [hbytes, hsign]
        rfl
      · show (if size < b.used then size else b.used) ≤ size
        omega
      · show (if size < b.offset then size else b.offset) ≤ size
        omega
      · show size ≤ (m.getD []).length
        omega
      · show (m.getD []).take (if size < b.used then size else b.used) =
          (b.mem.take b.used).take size
        -- the new block begins with the old one, as far as both go
        have hshort : (m.getD []).take (min b.used size) =
            ((m.getD []).take size).take (min b.used size) := by
          rw [List.take_take, Nat.min_eq_left (Nat.min_le_right _ _)]
        rw [hused, hshort, hmtake, List.take_take, Nat.min_eq_left (Nat.min_le_right _ _),
          take_block (by omega) (by omega), List.take_take, Nat.min_comm]

theorem change (h : b.Ok) (m : Macro) (size : Nat) :
    (m.apply b size).Ok ∧ (m.apply b size).data = b.data ∧ (m.apply b size).size = b.size := by
  have hule := h.used_le
  have hole := h.offset_le
  have hlt := h.size_lt
  cases m with
  | usedInc =>
    refine ⟨h.of_data rfl rfl ?_ hole, rfl, rfl⟩
    show valueInRangeInc b.used b.size size ≤ b.size
    rw [valueInRangeInc_eq hule hlt]
    exact Nat.min_le_right _ _
  | usedDec =>
    refine ⟨h.of_data rfl rfl ?_ hole, rfl, rfl⟩
    show valueInRangeDec b.used size ≤ b.size
    rw [valueInRangeDec_eq (by omega)]
    omega
  | offsetInc =>
    refine ⟨h.of_data rfl rfl hule ?_, rfl, rfl⟩
    show valueInRangeInc b.offset b.size size ≤ b.size
    rw [valueInRangeInc_eq hole hlt]
    exact Nat.min_le_right _ _
  | offsetDec =>
    refine ⟨h.of_data rfl rfl hule ?_, rfl, rfl⟩
    show valueInRangeDec b.offset size ≤ b.size
    rw [valueInRangeDec_eq (by omega)]
    omega
  | trSizeInc => exact ⟨h.of_data rfl rfl hule hole, rfl, rfl⟩
  | trSizeDec => exact ⟨h.of_data rfl rfl hule hole, rfl, rfl⟩

/-! ## Runs -/

variable {s : Store}

def AllOk (s : Store) : Prop := ∀ i b, s i = some b → b.Ok

theorem AllOk.bounds (h : AllOk s) : Bounds s :=
  fun i b hb => ⟨(h i b hb).used_le, (h i b hb).offset_le⟩

theorem call_outcome (h : AllOk s) (i : Nat) (op : Op) (hop : StepOk s i op) :
    ∃ rc p, call s i op = some (rc, p) ∧ Outcome (s i) rc p (Effect s i p op) := by
  cases op with
  | copyin src =>
    cases src with
    | null dataSize => exact copyin_null (h i) dataSize
    | bytes data => exact copyin_bytes (h i) data
  | copyinBuf src => exact copyinBuf (h i) (h src) (same s i src)
  | copyBuf src =>
    refine copyBuf (h i) (h src) (fun hsame => ?_) hop
    rw [same, decide_eq_true_eq] at hsame
    rcases hsame with rfl | ⟨hi, hsrc⟩
    · rfl
    · rw [Option.isNone_iff_eq_none.mp hi, Option.isNone_iff_eq_none.mp hsrc]
  | cutHead size => exact cutHead (h i) size.toNat
  | prepend size lost => exact prepend (h i) size.toNat lost
  | realloc flags size malloc =>
    show ∃ rc p, ioBufRealloc (s i) flags size.toNat malloc = some (rc, p) ∧
      Outcome (s i) rc p (held p = (held (s i)).take size.toNat)
    cases hi : s i with
    | none => exact realloc_null size.isLt (hop.1 hi)
    | some b => exact realloc_some (h i b hi) size.isLt (hop.2 b hi)
  | change m size =>
    show ∃ rc p, (s i).map _ = some (rc, p) ∧ Outcome (s i) rc p
      (∀ b b', s i = some b → p = some b' → b'.data = b.data ∧ b'.size = b.size)
    cases hi : s i with
    | none => exact absurd hi hop
    | some b =>
      obtain ⟨hok, hsame⟩ := change (h i b hi) m size.toNat
      refine ⟨_, _, rfl, .of_ok hok ?_⟩
      rintro c c' ⟨⟩ ⟨⟩
      exact hsame

theorem step_does (h : AllOk s) (i : Nat) (op : Op) (hop : StepOk s i op) :
    ∃ rc s', step s i op = some (rc, s') ∧ AllOk s' ∧ Does s i op rc s' := by
  obtain ⟨rc, p, hcall, hout⟩ := call_outcome h i op hop
  refine ⟨rc, Function.update s i p, by rw [step, hcall, Option.map_some], ?_, ?_, ?_, ?_⟩
  · intro j b hb
    by_cases hj : j = i
    · rw [hj, Function.update_self] at hb
      exact hout.ok b hb
    · rw [Function.update_of_ne hj] at hb
      exact h j b hb
  · intro e he
    rw [hout.error e he, Function.update_eq_self]
  · exact fun j hj => Function.update_of_ne hj _ _
  · rw [Function.update_self]
    exact hout.effect

theorem AllOk.correct : ∀ {ops : List (Nat × Op)} {s : Store}, AllOk s → RunOk s ops → Correct s ops
  | [], _, h, _ => h.bounds
  | (i, op) :: _, _, h, hrun => by
    obtain ⟨rc, s', hstep, hok, hdoes⟩ := step_does h i op hrun.1
    exact ⟨h.bounds, rc, s', hstep, hdoes, hok.correct (hrun.2 rc s' hstep)⟩

theorem Fresh.allOk (h : Fresh s) : AllOk s := by
  intro i b hb
  obtain ⟨flags, behind, data, size, own, rfl, hlt, hshared, hdata⟩ := h i b hb
  have hsize : (ioBufInit flags behind data size own).size ≤
      (ioBufInit flags behind data size own).mem.length ∧
      (ioBufInit flags behind data size own).size ≤ size := by
    rw [ioBufInit, mem]
    dsimp only
    by_cases hflag : has flags fDataShared
    · rw [if_pos hflag, if_neg (Option.some_ne_none _)]
      exact ⟨hshared hflag, Nat.le_refl _⟩
    · rw [if_neg hflag]
      cases data with
      | none =>
        rw [if_pos rfl]
        exact ⟨Nat.zero_le _, Nat.zero_le _⟩
      | some mem =>
        rw [if_neg (Option.some_ne_none _)]
        exact ⟨hdata (Bool.eq_false_iff.mpr hflag) mem rfl, Nat.le_refl _⟩
  exact ⟨Nat.zero_le _, Nat.zero_le _, hsize.1, Nat.lt_of_le_of_lt hsize.2 hlt⟩

/-- Every run on fresh buffers whose steps meet their condition is correct. -/
theorem fresh_run_correct (s : Store) (h : Fresh s) (ops : List (Nat × Op)) (hrun : RunOk s ops) :
      Correct s ops := h.allOk.correct hrun

/-- A buffer of four bytes and one of two, both over memory of the caller. -/
def fourAndTwo : Store
  | 0 => some (ioBufInit 0 [] (some [0, 0, 0, 0]) 4 false)
  | 1 => some (ioBufInit 0 [] (some [0, 0]) 2 false)
  | _ => none

theorem fourAndTwo_fresh : Fresh fourAndTwo := by
  intro i b hb
  have hnot : has 0 fDataShared ≠ true := by decide
  cases i with
  | zero =>
    cases hb
    refine ⟨0, [], some [0, 0, 0, 0], 4, false, rfl, by decide, fun h => absurd h hnot, ?_⟩
    rintro - mem ⟨⟩
    exact Nat.le_refl 4
  | succ i =>
    cases i with
    | zero =>
      cases hb
      refine ⟨0, [], some [0, 0], 2, false, rfl, by decide, fun h => absurd h hnot, ?_⟩
      rintro - mem ⟨⟩
      exact Nat.le_refl 2
    | succ i => cases hb

/-- The second buffer becomes a copy of the first, and a byte is put behind it. -/
theorem fresh_run_correct_copy :
    Correct fourAndTwo [(1, .copyBuf 0), (1, .copyin (.bytes [7]))] := by
  refine fresh_run_correct fourAndTwo fourAndTwo_fresh _
    ⟨fun d b _ _ hb _ => ?_, fun _ _ _ => ⟨trivial, fun _ _ _ => trivial⟩⟩
  cases hb
  exact Nat.zero_le _

def offsetAtEnd : Store :=
  Function.update fourAndTwo 0
    (some { ioBufInit 0 [] (some [0, 0, 0, 0]) 4 false with offset := 4 })

/-- The offset behind four bytes is copied to a buffer of two, and memory of the caller is handed to
`realloc`. -/
theorem fresh_run_not_correct : Fresh fourAndTwo ∧
    ¬ Correct fourAndTwo [(0, .change .offsetInc 4#64), (1, .copyBuf 0)] ∧
    ¬ Correct fourAndTwo [(0, .realloc 0 8#64 fun _ => some fun _ => 0)] := by
  refine ⟨fourAndTwo_fresh, ?_, ?_⟩
  · rintro ⟨-, rc, s, hs, -, -, rc', s', hs', -, hbounds⟩
    have hinc : valueInRangeInc 0 4 4 = 4 := valueInRangeInc_eq (by decide) (by decide)
    have hfirst : step fourAndTwo 0 (.change .offsetInc 4#64) = some (.ok (), offsetAtEnd) := by
      show some (_, Function.update fourAndTwo 0
        (some { ioBufInit 0 [] (some [0, 0, 0, 0]) 4 false with
          offset := valueInRangeInc 0 4 4 })) = _
      rw [hinc]
      rfl
    rw [hfirst] at hs
    cases hs
    have hsecond : step offsetAtEnd 1 (.copyBuf 0) = some (.ok (), Function.update offsetAtEnd 1
        (some { ioBufInit 0 [] (some [0, 0]) 2 false with offset := 4 })) := rfl
    rw [hsecond] at hs'
    cases hs'
    exact absurd (hbounds 1 _ (Function.update_self _ _ _)).2 (by decide)
  · rintro ⟨-, rc, s, hs, -⟩
    have hnone : step fourAndTwo 0 (.realloc 0 8#64 fun _ => some fun _ => 0) = none := rfl
    rw [hnone] at hs
    cases hs

end IoBuf
