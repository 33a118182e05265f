import Liblcb.Threadpool.TaskIo

/-!
# The accounts of an I/O task

Offset, size left, position and the saved size of a task are all functions of the bytes that have been
moved since the start, and a callback is told those that have been moved since the last one.
-/

namespace TaskIo

/-- The bytes that have been moved, in order. -/
def moved : List Act → List UInt8
  | [] => []
  | .call _ _ _ bytes :: log => moved log ++ bytes
  | .callback _ _ _ :: log => moved log

/-- The number of bytes that have been moved since the last callback. -/
def since : List Act → Nat
  | [] => 0
  | .call _ _ _ bytes :: log => since log + bytes.length
  | .callback _ _ _ :: _ => 0

/-- The sizes the callbacks have been told, the last first. -/
def reports : List Act → List Nat
  | [] => []
  | .call _ _ _ _ :: log => reports log
  | .callback _ _ size :: log => size :: reports log

/-- Every system call is inside the buffer and goes on where the moved bytes end. -/
def Calls (start : Task) : List Act → Prop
  | [] => True
  | .callback _ _ _ :: log => Calls start log
  | .call offset size position bytes :: log =>
    offset = start.buf.offset + (moved log).length ∧ offset + size ≤ start.buf.size ∧
    bytes.length ≤ size ∧
    position = start.type.position (start.offset + (moved log).length) ∧ Calls start log

/-- Every callback is told what has been moved since the one before. -/
def Reports : List Act → Prop
  | [] => True
  | .call _ _ _ _ :: log => Reports log
  | .callback _ _ size :: log => size = since log ∧ Reports log

/-- The bytes that have been received are in the buffer one after the other; those that have been sent
are the ones of the buffer. -/
def Stored (start : Task) (data bytes : List UInt8) : Prop :=
  match start.event with
  | .read => data = Buffer.splice start.buf.data start.buf.offset bytes
  | .write => data = start.buf.data ∧ bytes = (start.buf.data.drop start.buf.offset).take bytes.length

/-- The accounts of a task that was started as `start` and has moved `n` bytes in this attempt. -/
structure Accounts (start task : Task) (log : List Act) (n : Nat) : Prop where
  type : task.type = start.type
  event : task.event = start.event
  calls : Calls start log
  reports : Reports log
  stored : Stored start task.buf.data (moved log)
  offset : task.buf.offset = start.buf.offset + (moved log).length
  left : (moved log).length + task.buf.transferSize = start.buf.transferSize
  position : task.offset = start.offset + (moved log).length
  /-- what the next callback is told -/
  pending : task.totTransferedSize + n = since log
  /-- no byte is told twice or never -/
  total : (TaskIo.reports log).sum + since log = (moved log).length

/-- The bytes that have been moved in the attempt that is going on. -/
def Conf.transfered (c : Conf) : Nat :=
  match c.stage with
  | .idle => 0
  | .transfer io => io.transferedSize

variable {start : Task} {c : Conf} {io : Transfer} {n : Nat}

/-! ## The macros -/

theorem valueInRangeInc_eq {val max size : Nat} (h : val + size ≤ max) :
    valueInRangeInc val max size = val + size := by
  unfold valueInRangeInc
  split
  · rfl
  · omega

theorem valueInRangeDec_eq (val size : Nat) : valueInRangeDec val size = val - size := by
  unfold valueInRangeDec
  split
  · rfl
  · omega

/-- The accounts are right. -/
def Inv (start : Task) (c : Conf) : Prop := Accounts start c.task c.log c.transfered

/-! ## Exits of an attempt -/

theorem Accounts.callCb (h : Accounts start c.task c.log n) (hn : io.transferedSize = n) :
    Inv start (callCb c io) := by
  have hpending := h.pending
  have htotal := h.total
  refine ⟨h.type, h.event, h.calls, ⟨?_, h.reports⟩, h.stored, h.offset, h.left, h.position, rfl, ?_⟩
  · omega
  · have hsum : (io.transferedSize + c.task.totTransferedSize + (TaskIo.reports c.log).sum) + 0 =
        (moved c.log).length := by
      omega
    exact hsum

theorem Accounts.saveTransfered (h : Accounts start c.task c.log n) (hn : io.transferedSize = n) :
    Inv start (saveTransfered c io) := by
  subst hn
  exact { h with pending := h.pending }

theorem Accounts.transferLoop (h : Accounts start c.task c.log n) (hn : io.transferedSize = n) :
    Inv start (transferLoop c io) := by
  unfold TaskIo.transferLoop
  split
  · subst hn
    exact h
  · exact h.saveTransfered hn

/-! ## System calls -/

theorem Accounts.called_calls (h : Accounts start c.task c.log io.transferedSize)
    (hfits : start.buf.offset + start.buf.transferSize ≤ start.buf.size) {bytes : List UInt8}
    (hbytes : bytes.length ≤ c.task.buf.transferSize) : Calls start (c.called bytes).log := by
  have hoffset := h.offset
  have hleft := h.left
  refine ⟨hoffset, by omega, hbytes, ?_, h.calls⟩
  rw [h.type, h.position]

theorem Accounts.called_nil (h : Accounts start c.task c.log io.transferedSize)
    (hfits : start.buf.offset + start.buf.transferSize ≤ start.buf.size) :
    Accounts start (c.called []).task (c.called []).log io.transferedSize := by
  have hmoved : moved (c.called []).log = moved c.log := List.append_nil _
  have hcalls : Calls start (c.called []).log := h.called_calls hfits (Nat.zero_le _)
  exact ⟨h.type, h.event, hcalls, h.reports, hmoved ▸ h.stored, hmoved ▸ h.offset, hmoved ▸ h.left,
    hmoved ▸ h.position, h.pending, hmoved ▸ h.total⟩

/-- The task after `ios` bytes have been moved, with `data` in its buffer. -/
def Task.advance (task : Task) (data : List UInt8) (used ios : Nat) : Task :=
  { task with
    offset := task.offset + ios
    buf := { data, used, offset := task.buf.offset + ios, transferSize := task.buf.transferSize - ios } }

theorem Accounts.advance (h : Accounts start c.task c.log io.transferedSize)
    (hfits : start.buf.offset + start.buf.transferSize ≤ start.buf.size) {bytes data : List UInt8}
    (used : Nat) (hbytes : bytes.length ≤ c.task.buf.transferSize)
    (hstored : Stored start data (moved c.log ++ bytes)) :
    Accounts start (c.task.advance data used bytes.length) (c.called bytes).log
      (io.transferedSize + bytes.length) := by
  have hoffset := h.offset
  have hleft := h.left
  have hposition := h.position
  have hpending := h.pending
  have htotal := h.total
  have hlength : (moved (c.called bytes).log).length = (moved c.log).length + bytes.length :=
    List.length_append
  have hsince : since (c.called bytes).log = since c.log + bytes.length := rfl
  have hreports : TaskIo.reports (c.called bytes).log = TaskIo.reports c.log := rfl
  apply Accounts.mk
  case type => exact h.type
  case event => exact h.event
  case calls => exact h.called_calls hfits hbytes
  case reports => exact h.reports
  case stored => exact hstored
  case offset => simp only [Task.advance]; omega
  case left => simp only [Task.advance]; omega
  case position => simp only [Task.advance]; omega
  case pending => simp only [Task.advance]; omega
  case total => rw [hreports]; omega

theorem Accounts.stored_read (h : Accounts start c.task c.log io.transferedSize)
    (hfits : start.buf.offset + start.buf.transferSize ≤ start.buf.size)
    (hread : c.task.event = .read) (bytes : List UInt8) :
    Stored start (Buffer.splice c.task.buf.data c.task.buf.offset bytes) (moved c.log ++ bytes) := by
  have hleft := h.left
  have hstored := h.stored
  unfold Stored at hstored ⊢
  rw [← h.event, hread] at hstored ⊢
  dsimp only at hstored ⊢
  rw [hstored, h.offset]
  apply Buffer.splice_splice
  unfold IoBuf.size at hfits
  omega

theorem Accounts.stored_write (h : Accounts start c.task c.log io.transferedSize)
    (hwrite : c.task.event = .write) (ios : Nat) :
    Stored start c.task.buf.data
      (moved c.log ++ (c.task.buf.data.drop c.task.buf.offset).take ios) := by
  have hstored := h.stored
  unfold Stored at hstored ⊢
  rw [← h.event, hwrite] at hstored ⊢
  dsimp only at hstored ⊢
  obtain ⟨hdata, hbytes⟩ := hstored
  refine ⟨hdata, ?_⟩
  rw [hdata, h.offset, ← List.drop_drop]
  generalize start.buf.data.drop start.buf.offset = sent at hbytes
  generalize moved c.log = before at hbytes
  rw [List.length_append, List.take_add, ← hbytes, List.length_take]
  exact congrArg (before ++ ·) List.take_eq_take_min

theorem length_sent (h : Accounts start c.task c.log io.transferedSize)
    (hfits : start.buf.offset + start.buf.transferSize ≤ start.buf.size)
    (hwrite : c.task.event = .write) {ios : Nat} (hios : ios ≤ c.task.buf.transferSize) :
    ((c.task.buf.data.drop c.task.buf.offset).take ios).length = ios := by
  have hoffset := h.offset
  have hleft := h.left
  have hstored := h.stored
  unfold Stored at hstored
  rw [← h.event, hwrite] at hstored
  unfold IoBuf.size at hfits
  rw [List.length_take, List.length_drop, hstored.1]
  omega

/-! ## Steps -/

theorem Accounts.errOut (h : Accounts start c.task c.log io.transferedSize) (errno : Nat) :
    Inv start (errOut c io errno) := by
  unfold TaskIo.errOut
  dsimp only
  generalize sktErrFilter (if errno = 0 then EINVAL else errno) = error
  split
  · exact h.saveTransfered rfl
  · exact h.callCb rfl

theorem trSizeDec_offsetInc {buf : IoBuf} {ios : Nat} (hfits : buf.offset + ios ≤ buf.size) :
    (buf.offsetInc ios).trSizeDec ios = { buf with
      offset := buf.offset + ios
      transferSize := buf.transferSize - ios } := by
  unfold IoBuf.trSizeDec IoBuf.offsetInc
  rw [valueInRangeInc_eq hfits, valueInRangeDec_eq]

theorem Accounts.readPass (h : Accounts start c.task c.log io.transferedSize)
    (hfits : start.buf.offset + start.buf.transferSize ≤ start.buf.size)
    (hread : c.task.event = .read) {bytes : List UInt8}
    (hbytes : bytes.length ≤ c.task.buf.transferSize) :
    Inv start (readPass c io bytes) := by
  have hoffset := h.offset
  have hleft := h.left
  have hsize : c.task.buf.size = start.buf.size := by
    have hstored := h.stored
    unfold Stored at hstored
    rw [← h.event, hread] at hstored
    unfold IoBuf.size at hfits ⊢
    rw [hstored]
    apply Buffer.length_splice
    omega
  unfold TaskIo.readPass
  dsimp only
  by_cases hzero : bytes.length = 0
  · -- End of file: the call has moved nothing.
    have hnil := List.eq_nil_of_length_eq_zero hzero
    have hcalled := h.called_nil hfits
    rw [if_pos hzero, hnil]
    split
    · exact hcalled.callCb rfl
    · exact hcalled.callCb rfl
  · rw [if_neg hzero]
    have hspliced : (Buffer.splice c.task.buf.data c.task.buf.offset bytes).length =
        c.task.buf.size := by
      apply Buffer.length_splice
      unfold IoBuf.size at hsize hfits
      omega
    rw [trSizeDec_offsetInc (by
      simp only [IoBuf.usedInc, IoBuf.size]
      rw [hspliced]
      omega)]
    have hstored := h.stored_read hfits hread bytes
    split
    · exact (h.advance hfits _ hbytes hstored).callCb rfl
    · exact (h.advance hfits _ hbytes hstored).transferLoop rfl

theorem Accounts.writePass (h : Accounts start c.task c.log io.transferedSize)
    (hfits : start.buf.offset + start.buf.transferSize ≤ start.buf.size)
    (hwrite : c.task.event = .write) {ios : Nat} (hios : ios ≤ c.task.buf.transferSize) :
    Inv start (writePass c io ios) := by
  have hoffset := h.offset
  have hleft := h.left
  have hlength := length_sent h hfits hwrite hios
  have hsize : c.task.buf.size = start.buf.size := by
    have hstored := h.stored
    unfold Stored at hstored
    rw [← h.event, hwrite] at hstored
    unfold IoBuf.size
    rw [hstored.1]
  unfold TaskIo.writePass
  dsimp only
  by_cases hzero : ios = 0
  · have hcalled := h.called_nil hfits
    rw [if_pos hzero, hzero, List.take_zero]
    exact hcalled.callCb rfl
  · rw [if_neg hzero, trSizeDec_offsetInc (by omega)]
    have hadvance := h.advance hfits c.task.buf.used (hlength.symm ▸ hios) (h.stored_write hwrite ios)
    rw [hlength] at hadvance
    split
    · exact hadvance.callCb rfl
    · exact hadvance.transferLoop rfl

theorem Inv.tpTaskHandler (h : Inv start c) (hidle : c.stage = .idle) (ev : TpEvent) :
    Inv start (tpTaskHandler c ev) := by
  have haccounts : Accounts start c.task c.log 0 := by
    unfold Inv Conf.transfered at h
    rw [hidle] at h
    exact h
  unfold TaskIo.tpTaskHandler
  generalize tpTaskHandlerPreInt ev = pre
  obtain ⟨error, eof, data2transferSize⟩ := pre
  dsimp only
  split
  · exact haccounts.callCb rfl
  · exact haccounts.transferLoop rfl

theorem Inv.step (hfits : start.buf.offset + start.buf.transferSize ≤ start.buf.size)
    (h : Inv start c) {input : Input} {c' : Conf} (hstep : step input c = some c') : Inv start c' := by
  unfold TaskIo.step at hstep
  cases hstage : c.stage with
  | idle =>
    cases input with
    | ios ios => simp [hstage] at hstep
    | event ev =>
      simp only [hstage, Option.some.injEq] at hstep
      exact hstep ▸ h.tpTaskHandler hstage ev
  | transfer io =>
    have haccounts : Accounts start c.task c.log io.transferedSize := by
      unfold Inv Conf.transfered at h
      rw [hstage] at h
      exact h
    cases input with
    | event ev => simp [hstage] at hstep
    | ios ios =>
      cases ios with
      | error errno =>
        simp only [hstage, Option.some.injEq] at hstep
        have hcalled := haccounts.called_nil hfits
        exact hstep ▸ hcalled.errOut errno
      | read bytes =>
        simp only [hstage, Option.ite_none_right_eq_some, Option.some.injEq] at hstep
        obtain ⟨⟨hread, hbytes⟩, rfl⟩ := hstep
        exact haccounts.readPass hfits hread hbytes
      | write size =>
        simp only [hstage, Option.ite_none_right_eq_some, Option.some.injEq] at hstep
        obtain ⟨⟨hwrite, hsize⟩, rfl⟩ := hstep
        exact haccounts.writePass hfits hwrite hsize

theorem inv_start {sheduleFirstIo : Bool} (hstart : tpTaskStartEx sheduleFirstIo start = some c) :
    Inv start c := by
  have haccounts : Accounts start { start with totTransferedSize := 0 } [] 0 := by
    refine ⟨rfl, rfl, trivial, trivial, ?_, rfl, Nat.zero_add _, rfl, rfl, rfl⟩
    unfold Stored
    cases start.event with
    | read => exact (Buffer.splice_nil _ _).symm
    | write => exact ⟨rfl, rfl⟩
  unfold tpTaskStartEx at hstart
  dsimp only at hstart
  split at hstart
  · cases hstart
    exact haccounts
  · split at hstart
    · contradiction
    · cases hstart
      exact Accounts.transferLoop (c := { stage := .idle, task := _, log := [] }) haccounts rfl

/-! ## Attempts without a callback -/

/-- An attempt that has begun after `log` and has not ended yet has not called back. -/
def Silent (log : List Act) (c : Conf) : Prop := c.stage ≠ .idle → reports c.log = reports log

theorem transferLoop_silent {log : List Act} (h : reports c.log = reports log) :
    Silent log (transferLoop c io) := by
  unfold transferLoop
  split
  · exact fun _ => h
  · exact fun hne => absurd rfl hne

theorem callCb_silent {log : List Act} : Silent log (callCb c io) := fun hne => absurd rfl hne

theorem Silent.ios {log : List Act} {ios : Ios} {c' : Conf} (h : Silent log c)
    (hstep : step (.ios ios) c = some c') : Silent log c' := by
  unfold TaskIo.step at hstep
  cases hstage : c.stage with
  | idle => simp [hstage] at hstep
  | transfer io =>
    have hsame := h (by rw [hstage]; exact fun h => nomatch h)
    cases ios with
    | error errno =>
      simp only [hstage, Option.some.injEq] at hstep
      subst hstep
      unfold errOut
      dsimp only
      generalize sktErrFilter (if errno = 0 then EINVAL else errno) = error
      split
      · exact fun hne => absurd rfl hne
      · exact callCb_silent
    | read bytes =>
      simp only [hstage, Option.ite_none_right_eq_some, Option.some.injEq] at hstep
      obtain ⟨-, rfl⟩ := hstep
      unfold readPass
      dsimp only
      split
      · split
        · exact callCb_silent
        · exact callCb_silent
      · split
        · exact callCb_silent
        · exact transferLoop_silent hsame
    | write size =>
      simp only [hstage, Option.ite_none_right_eq_some, Option.some.injEq] at hstep
      obtain ⟨-, rfl⟩ := hstep
      unfold writePass
      dsimp only
      split
      · exact callCb_silent
      · split
        · exact callCb_silent
        · exact transferLoop_silent hsame

/-- Whatever the attempt in `c` has moved, when it ends with `EAGAIN` nothing has been told since
`log`. -/
def EndsSilently (log : List Act) (c : Conf) : Prop :=
  ∀ (results : List Ios) c₁ io errno, Transition.run step (results.map .ios) c = some c₁ →
    c₁.stage = .transfer io → errno ∈ [EAGAIN, EWOULDBLOCK, EBUSY, EINTR] →
    ∃ c₂, step (.ios (.error errno)) c₁ = some c₂ ∧ c₂.stage = .idle ∧ reports c₂.log = reports log

theorem Silent.ends {log : List Act} (h : Silent log c) : EndsSilently log c := by
  intro results c₁ io errno hrun hstage herrno
  have hsilent : Silent log c₁ := by
    induction results generalizing c with
    | nil => exact Option.some.inj hrun ▸ h
    | cons ios results ih =>
      obtain ⟨c', hstep, hrest⟩ := Transition.run_cons hrun
      exact ih (h.ios hstep) hrest
  have hfilter : sktErrFilter (if errno = 0 then EINVAL else errno) = 0 := by
    revert errno
    decide
  refine ⟨errOut (c₁.called []) io errno, by simp [step, hstage], ?_, ?_⟩
  · simp [errOut, hfilter, saveTransfered]
  · have hsame := hsilent (by rw [hstage]; exact fun h => nomatch h)
    simp [errOut, hfilter, saveTransfered, Conf.called, reports, hsame]

/-- Every run of a task keeps its accounts, and an attempt, also the direct one, that ends with
`EAGAIN` does not call back. -/
theorem transfer_accounts (hfits : start.buf.offset + start.buf.transferSize ≤ start.buf.size)
    {sheduleFirstIo : Bool} {c₀ : Conf} (hstart : tpTaskStartEx sheduleFirstIo start = some c₀)
    {inputs : List Input} (hrun : Transition.run step inputs c₀ = some c) :
    Accounts start c.task c.log c.transfered ∧ EndsSilently [] c₀ ∧
      ∀ ev c', step (.event ev) c = some c' → EndsSilently c.log c' := by
  refine ⟨?_, ?_, ?_⟩
  · exact Transition.run_invariant (fun _ _ _ h hstep => Inv.step hfits h hstep) (inv_start hstart) hrun
  · apply Silent.ends
    unfold tpTaskStartEx at hstart
    dsimp only at hstart
    split at hstart
    · cases hstart
      exact fun hne => absurd rfl hne
    · split at hstart
      · contradiction
      · cases hstart
        exact transferLoop_silent rfl
  · intro ev c' hstep
    apply Silent.ends
    unfold TaskIo.step at hstep
    cases hstage : c.stage with
    | transfer io => simp [hstage] at hstep
    | idle =>
      simp only [hstage, Option.some.injEq] at hstep
      subst hstep
      unfold tpTaskHandler
      dsimp only
      split
      · exact callCb_silent
      · exact transferLoop_silent rfl

/-- Two bytes are asked for, from the second byte of a buffer on. -/
def receiveTwo : Task where
  type := .sr
  event := .read
  afterEveryRead := false
  offset := 0
  buf := { data := [0, 0, 0, 0], used := 0, offset := 1, transferSize := 2 }
  totTransferedSize := 0

/-- One byte comes and then none: the timer tells that it has come. -/
def oneByteThenTimeout : List Input :=
  [.event { timer := false, eof := false, error := none, data := 100 }, .ios (.read [7]),
    .ios (.error EAGAIN), .event { timer := true, eof := false, error := none, data := 0 }]

theorem transfer_accounts_timeout : ∃ c₀ c, tpTaskStartEx true receiveTwo = some c₀ ∧
    Transition.run step oneByteThenTimeout c₀ = some c ∧ reports c.log = [1] ∧
    Accounts receiveTwo c.task c.log c.transfered :=
  ⟨_, _, rfl, rfl, rfl, (transfer_accounts (by decide) (rfl : tpTaskStartEx true receiveTwo = _)
    (rfl : Transition.run step oneByteThenTimeout _ = some _)).1⟩

end TaskIo
