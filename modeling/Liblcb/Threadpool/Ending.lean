import Liblcb.Threadpool.Msg

/-!
# The end of a broadcast

One process at most holds the right to end a broadcast: it has counted the last thread, and it or the
caller calls `done_cb` and frees the record.
-/

namespace Threadpool

open Transition

variable {α : Type} [DecidableEq α]

/-- Is the process one that is about to end the broadcast? -/
def Ending.holds : Ending → Nat
  | .over => 0
  | _ => 1

theorem Ending.holds_of_ne {e : Ending} (h : e ≠ .over) : e.holds = 1 := by
  cases e with
  | «over» => exact absurd rfl h
  | send => rfl
  | call => rfl
  | inDone => rfl

/-- Is it in `done_cb`? -/
def Ending.called : Ending → Nat
  | .inDone => 1
  | _ => 0

def Event.isDone : Event α → Bool
  | .done _ _ => true
  | _ => false

/-- The events of the work itself, which come before `done_cb`. -/
def Event.isWork : Event α → Bool
  | .sent _ | .failed _ | .call _ | .ret _ => true
  | _ => false

/-- No work is seen after `done_cb` was called. -/
def Ordered : List (Event α) → Prop
  | [] => True
  | e :: log => Ordered log ∧ (e.isWork → ∀ e' ∈ log, e'.isDone = false)

omit [DecidableEq α] in
theorem Ordered.not_work : ∀ {after before : List (Event α)} {e : Event α},
    Ordered (after ++ e :: before) → e.isDone → ∀ e' ∈ after, e'.isWork = false
  | [], _, _, _, _, e', he' => absurd he' List.not_mem_nil
  | x :: after, before, e, h, hdone, e', he' => by
    rcases List.mem_cons.mp he' with rfl | he'
    · refine Bool.eq_false_of_not_eq_true fun hwork => ?_
      have hnot := h.2 hwork e (List.mem_append_right _ List.mem_cons_self)
      rw [hdone] at hnot
      cases hnot
    · exact h.1.not_work hdone e' he'

/-- The processes that may end the broadcast: of these `l` are the threads. -/
def processes (l : List α) : List (Who α) := .sender :: .caller :: l.map .proxy

omit [DecidableEq α] in
theorem nodup_processes {l : List α} (h : l.Nodup) : (processes l).Nodup := by
  have hmap : (l.map Who.proxy).Nodup := h.map fun a b hab => Who.proxy.inj hab
  simp [processes, hmap]

namespace Core

def tokens (l : List α) (c : Core α) : Nat :=
  total (processes l) Ending.holds c.ending + c.doneQueue + c.freed.toNat

structure Inv (l : List α) (c : Core α) : Prop where
  tokens_le : c.tokens l ≤ 1
  others : ∀ who, who ∉ processes l → c.ending who = .over
  done : c.log.countP Event.isDone = total (processes l) Ending.called c.ending + c.freed.toNat
  free : c.log.count .free = c.freed.toNat
  fault : Event.fault ∉ c.log
  counts : ∀ a b, Event.done a b ∈ c.log → a = c.sendMsgCnt ∧ b = c.errorCnt
  ordered : Ordered c.log

/-- What the threads that do the work see of a step that ends the broadcast: nothing. -/
structure Frame (c c' : Core α) : Prop where
  activeThrCount : c'.activeThrCount = c.activeThrCount
  curThrIdx : c'.curThrIdx = c.curThrIdx
  sendMsgCnt : c'.sendMsgCnt = c.sendMsgCnt
  errorCnt : c'.errorCnt = c.errorCnt
  count : ∀ e : Event α, e.isWork → c'.log.count e = c.log.count e

omit [DecidableEq α] in
theorem touch_of_not_freed {c : Core α} (h : c.freed = false) : c.touch = c := by
  rw [touch, h]
  rfl

omit [DecidableEq α] in
theorem not_freed {l : List α} {c : Core α} (htokens : c.tokens l = 0) : c.freed = false := by
  cases hfreed : c.freed with
  | false => rfl
  | true =>
    rw [tokens, hfreed, Bool.toNat_true] at htokens
    omega

theorem endStep_ne_none {call : Call α} {c : Core α} {who : Who α} (written : Bool)
    (h : c.ending who ≠ .over) : c.endStep call who written ≠ none := by
  unfold endStep
  cases hend : c.ending who with
  | «over» => exact absurd hend h
  | send => cases tptMsgSend call.running doneFlags call.src (who.thread call) written <;> simp
  | call => simp
  | inDone => simp

theorem stuck {call : Call α} {c : Core α} (hend : ∀ who, c.endStep call who true = none)
    (hreceive : c.receive = none) : (∀ who, c.ending who = .over) ∧ c.doneQueue = 0 := by
  have hending : ∀ who, c.ending who = .over := by
    intro who
    by_contra hne
    exact endStep_ne_none true hne (hend who)
  refine ⟨hending, ?_⟩
  by_contra hne
  rw [receive, if_pos ⟨hending .caller, hne⟩] at hreceive
  cases hreceive

namespace Inv

variable {l : List α} {c : Core α}

theorem mem_processes (h : c.Inv l) {who : Who α} (hwho : c.ending who ≠ .over) : who ∈ processes l :=
  not_not.mp fun hnot => hwho (h.others who hnot)

theorem holds_of_ne (h : c.Inv l) {who : Who α} (hwho : c.ending who ≠ .over) :
    total (processes l) Ending.holds c.ending = 1 ∧ c.doneQueue = 0 ∧ c.freed = false := by
  have hle := le_total (h.mem_processes hwho) Ending.holds c.ending
  have hone := Ending.holds_of_ne hwho
  have htokens := h.tokens_le
  rw [tokens] at htokens
  refine ⟨by omega, by omega, ?_⟩
  cases hfreed : c.freed with
  | false => rfl
  | true =>
    rw [hfreed, Bool.toNat_true] at htokens
    omega

omit [DecidableEq α] in
theorem called_le_holds (l : List α) (f : Who α → Ending) :
    total (processes l) Ending.called f ≤ total (processes l) Ending.holds f := by
  refine List.sum_le_sum ?_
  intro who _
  cases f who <;> decide

theorem no_done (h : c.Inv l) (htokens : c.tokens l = 0) : ∀ e ∈ c.log, e.isDone = false := by
  have hcalled := called_le_holds l c.ending
  have hdone := h.done
  rw [tokens] at htokens
  have hzero : c.log.countP Event.isDone = 0 := by omega
  intro e he
  exact Bool.eq_false_of_not_eq_true (List.countP_eq_zero.mp hzero e he)

theorem emit (h : c.Inv l) (htokens : c.tokens l = 0) {e : Event α} (hwork : e.isWork) :
    (c.emit e).Inv l where
  tokens_le := h.tokens_le
  others := h.others
  done := by
    have hnot : e.isDone = false := by
      cases e <;> first | rfl | cases hwork
    rw [Core.emit, List.countP_cons_of_neg (by rw [hnot]; decide)]
    exact h.done
  free := by
    have hnot : e ≠ .free := by
      rintro rfl
      cases hwork
    rw [Core.emit, List.count_cons_of_ne hnot]
    exact h.free
  fault := by
    intro hmem
    rcases List.mem_cons.mp hmem with rfl | hmem
    · cases hwork
    · exact h.fault hmem
  counts := by
    intro a b hmem
    rcases List.mem_cons.mp hmem with rfl | hmem
    · cases hwork
    · exact h.counts a b hmem
  ordered := ⟨h.ordered, fun _ => h.no_done htokens⟩

theorem write (h : c.Inv l) (htokens : c.tokens l = 0) (active : BitVec 64) (cur send err : Nat) :
    { c with
      activeThrCount := active
      curThrIdx := cur
      sendMsgCnt := send
      errorCnt := err : Core α }.Inv l where
  tokens_le := h.tokens_le
  others := h.others
  done := h.done
  free := h.free
  fault := h.fault
  counts := by
    intro a b hmem
    have hnot : true = false := h.no_done htokens _ hmem
    cases hnot
  ordered := h.ordered

theorem setEnding_others (h : c.Inv l) {who : Who α} (hwho : who ∈ processes l) (e : Ending) :
    ∀ who', who' ∉ processes l → (c.setEnding who e).ending who' = .over := by
  intro who' hwho'
  have hne : who' ≠ who := by
    rintro rfl
    exact hwho' hwho
  exact (Function.update_of_ne hne _ _).trans (h.others who' hwho')

theorem start (hl : l.Nodup) (h : c.Inv l) (htokens : c.tokens l = 0) {who : Who α}
    (hwho : who ∈ processes l) :
    (c.setEnding who .send).Inv l ∧ (c.setEnding who .send).tokens l = 1 := by
  have hover : c.ending who = .over := by
    by_contra hne
    have hone := (h.holds_of_ne hne).1
    rw [tokens, hone] at htokens
    omega
  have hholds := total_update Ending.holds c.ending .send (nodup_processes hl) hwho
  have hcalled := total_update Ending.called c.ending .send (nodup_processes hl) hwho
  rw [hover] at hholds hcalled
  simp only [Ending.holds, Ending.called] at hholds hcalled
  have hone : (c.setEnding who .send).tokens l = 1 := by
    simp only [tokens, setEnding] at htokens ⊢
    omega
  refine ⟨⟨Nat.le_of_eq hone, h.setEnding_others hwho .send, ?_, h.free, h.fault, h.counts, h.ordered⟩,
    hone⟩
  have hdone := h.done
  simp only [setEnding]
  omega

theorem activeThrCountDec (hl : l.Nodup) (h : c.Inv l) (htokens : c.tokens l = 0) {who : Who α}
    (hwho : who ∈ processes l) {n k : Nat} (hactive : c.activeThrCount = BitVec.ofNat 64 (n + k))
    (hlt : n + k < 2 ^ 64) :
    ((c.activeThrCountDec who k).Inv l ∧
      (c.activeThrCountDec who k).tokens l = if n = 0 then 1 else 0) ∧
      (c.activeThrCountDec who k).activeThrCount = BitVec.ofNat 64 n ∧
      (c.activeThrCountDec who k).sendMsgCnt = c.sendMsgCnt ∧
      (c.activeThrCountDec who k).errorCnt = c.errorCnt ∧ (c.activeThrCountDec who k).log = c.log := by
  have hsub : c.activeThrCount - BitVec.ofNat 64 k = BitVec.ofNat 64 n := by
    apply BitVec.eq_of_toNat_eq
    rw [hactive, BitVec.toNat_sub, BitVec.toNat_ofNat, BitVec.toNat_ofNat, BitVec.toNat_ofNat,
      Nat.mod_eq_of_lt hlt, Nat.mod_eq_of_lt (show k < 2 ^ 64 by omega),
      Nat.mod_eq_of_lt (show n < 2 ^ 64 by omega)]
    omega
  have hzero : BitVec.ofNat 64 n = 0 ↔ n = 0 := by
    rw [← BitVec.toNat_inj, BitVec.toNat_ofNat, Nat.mod_eq_of_lt (show n < 2 ^ 64 by omega)]
    rfl
  have hwrite := h.write htokens (BitVec.ofNat 64 n) c.curThrIdx c.sendMsgCnt c.errorCnt
  unfold Core.activeThrCountDec
  simp only [hsub, touch_of_not_freed (not_freed htokens)]
  by_cases hn : n = 0
  · rw [if_pos (hzero.mpr hn), if_pos hn]
    exact ⟨start hl hwrite htokens hwho, rfl, rfl, rfl, rfl⟩
  · rw [if_neg (fun heq => hn (hzero.mp heq)), if_neg hn]
    exact ⟨⟨hwrite, htokens⟩, rfl, rfl, rfl, rfl⟩

theorem endStep_cases {call : Call α} (h : c.Inv l) {who : Who α} {written : Bool} {c' : Core α}
    (hstep : c.endStep call who written = some c') : c.ending who ≠ .over ∧
      ((c.ending who = .send ∧ c' = c.setEnding who .call) ∨
        (c.ending who = .send ∧ c' = { c with doneQueue := c.doneQueue + 1 }.setEnding who .over) ∨
        (c.ending who = .call ∧
          c' = (c.emit (.done c.sendMsgCnt c.errorCnt)).setEnding who .inDone) ∨
        (c.ending who = .inDone ∧ c' = { c.emit .free with freed := true }.setEnding who .over)) := by
  have htouch : c.ending who ≠ .over → c.touch = c := fun hne =>
    touch_of_not_freed (h.holds_of_ne hne).2.2
  unfold endStep at hstep
  cases hend : c.ending who with
  | «over» =>
    rw [hend] at hstep
    cases hstep
  | send =>
    rw [hend, htouch (by rw [hend]; decide)] at hstep
    refine ⟨by decide, ?_⟩
    have hsend := tptMsgSend_done call.src_running (who.thread call) written
    cases hmsg : tptMsgSend call.running doneFlags call.src (who.thread call) written with
    | failed => exact absurd hmsg hsend
    | direct =>
      simp only [hmsg] at hstep
      exact .inl ⟨rfl, (Option.some.inj hstep).symm⟩
    | queued =>
      simp only [hmsg] at hstep
      exact .inr (.inl ⟨rfl, (Option.some.inj hstep).symm⟩)
  | call =>
    rw [hend, htouch (by rw [hend]; decide)] at hstep
    exact ⟨by decide, .inr (.inr (.inl ⟨rfl, (Option.some.inj hstep).symm⟩))⟩
  | inDone =>
    rw [hend, htouch (by rw [hend]; decide)] at hstep
    exact ⟨by decide, .inr (.inr (.inr ⟨rfl, (Option.some.inj hstep).symm⟩))⟩

theorem endStep_log {call : Call α} (h : c.Inv l) {who : Who α} {written : Bool} {c' : Core α}
    (hstep : c.endStep call who written = some c') :
    c'.log = c.log ∨ ∃ e : Event α, e.isWork = false ∧ c'.log = e :: c.log := by
  rcases (h.endStep_cases hstep).2 with ⟨-, rfl⟩ | ⟨-, rfl⟩ | ⟨-, rfl⟩ | ⟨-, rfl⟩
  · exact .inl rfl
  · exact .inl rfl
  · exact .inr ⟨_, rfl, rfl⟩
  · exact .inr ⟨_, rfl, rfl⟩

theorem called_eq (hl : l.Nodup) (h : c.Inv l) {who : Who α} (hne : c.ending who ≠ .over) :
    total (processes l) Ending.called c.ending = (c.ending who).called := by
  have hwho := h.mem_processes hne
  have hholds := total_update Ending.holds c.ending .over (nodup_processes hl) hwho
  have hcalled := total_update Ending.called c.ending .over (nodup_processes hl) hwho
  have hle := called_le_holds l (Function.update c.ending who .over)
  have hone := Ending.holds_of_ne hne
  rw [(h.holds_of_ne hne).1, hone, show Ending.over.holds = 0 from rfl] at hholds
  rw [show Ending.over.called = 0 from rfl] at hcalled
  omega

theorem handOn (hl : l.Nodup) (h : c.Inv l) {who : Who α} (hne : c.ending who ≠ .over) {c' : Core α}
    (e : Ending) (hending : c'.ending = c.ending)
    (htoken : e.holds + c'.doneQueue + c'.freed.toNat = 1)
    (hdone : c'.log.countP Event.isDone = e.called + c'.freed.toNat)
    (hfree : c'.log.count .free = c'.freed.toNat) (hfault : Event.fault ∉ c'.log)
    (hcounts : ∀ a b, Event.done a b ∈ c'.log → a = c'.sendMsgCnt ∧ b = c'.errorCnt)
    (hordered : Ordered c'.log) :
    (c'.setEnding who e).Inv l ∧ (c'.setEnding who e).tokens l = 1 := by
  have hwho := h.mem_processes hne
  have hholds := total_update Ending.holds c.ending e (nodup_processes hl) hwho
  have hcalled := total_update Ending.called c.ending e (nodup_processes hl) hwho
  have hone := Ending.holds_of_ne hne
  rw [(h.holds_of_ne hne).1, hone] at hholds
  rw [h.called_eq hl hne] at hcalled
  have htokens : (c'.setEnding who e).tokens l = 1 := by
    simp only [tokens, setEnding, hending]
    omega
  refine ⟨⟨Nat.le_of_eq htokens, ?_, ?_, hfree, hfault, hcounts, hordered⟩, htokens⟩
  · intro who' hwho'
    have hne' : who' ≠ who := by
      rintro rfl
      exact hwho' hwho
    exact (Function.update_of_ne hne' _ _).trans (by rw [hending]; exact h.others who' hwho')
  · simp only [setEnding, hending]
    omega

/-- The right to end the broadcast is handed on, until the record is freed. -/
theorem endStep {call : Call α} (hl : l.Nodup) (h : c.Inv l) {who : Who α} {written : Bool}
    {c' : Core α} (hstep : c.endStep call who written = some c') :
    (c'.Inv l ∧ c'.tokens l = 1) ∧ Frame c c' := by
  rcases h.endStep_cases hstep with ⟨hne, hcases⟩
  rcases h.holds_of_ne hne with ⟨-, hqueue, hfreed⟩
  have hfree := h.free
  have hdone := h.done
  rw [h.called_eq hl hne, hfreed] at hdone
  rw [hfreed] at hfree
  rcases hcases with ⟨hend, rfl⟩ | ⟨hend, rfl⟩ | ⟨hend, rfl⟩ | ⟨hend, rfl⟩
  · rw [hend] at hdone
    refine ⟨h.handOn hl hne .call rfl ?_ ?_ h.free h.fault h.counts h.ordered, rfl, rfl, rfl, rfl,
      fun _ _ => rfl⟩
    · rw [hqueue, hfreed]
      rfl
    · rw [hfreed]
      exact hdone
  · rw [hend] at hdone
    refine ⟨h.handOn hl hne .over rfl ?_ ?_ h.free h.fault h.counts h.ordered, rfl, rfl, rfl, rfl,
      fun _ _ => rfl⟩
    · simp only [hqueue, hfreed]
      rfl
    · simp only [hfreed]
      exact hdone
  · -- `done_cb` is called
    rw [hend] at hdone
    have hnone : c.log.countP Event.isDone = 0 := hdone
    refine ⟨h.handOn hl hne .inDone rfl ?_ ?_ ?_ ?_ ?_ ?_, rfl, rfl, rfl, rfl, ?_⟩
    · simp only [Core.emit, hqueue, hfreed]
      rfl
    · simp only [Core.emit, hfreed]
      rw [List.countP_cons_of_pos rfl, hnone]
      rfl
    · simp only [Core.emit, hfreed]
      rw [List.count_cons_of_ne (by simp), hfree]
    · intro hmem
      rcases List.mem_cons.mp hmem with heq | hmem
      · cases heq
      · exact h.fault hmem
    · intro a b hmem
      rcases List.mem_cons.mp hmem with heq | hmem
      · cases heq
        exact ⟨rfl, rfl⟩
      · exact h.counts a b hmem
    · exact ⟨h.ordered, fun hwork => by cases hwork⟩
    · intro e hwork
      refine List.count_cons_of_ne ?_
      rintro rfl
      cases hwork
  · -- the record is freed
    rw [hend] at hdone
    refine ⟨h.handOn hl hne .over rfl ?_ ?_ ?_ ?_ ?_ ?_, rfl, rfl, rfl, rfl, ?_⟩
    · simp only [Core.emit, hqueue]
      rfl
    · simp only [Core.emit]
      rw [List.countP_cons_of_neg (fun hdone => by cases hdone), hdone]
      rfl
    · simp only [Core.emit]
      rw [List.count_cons_self, hfree]
      rfl
    · intro hmem
      rcases List.mem_cons.mp hmem with heq | hmem
      · cases heq
      · exact h.fault hmem
    · intro a b hmem
      rcases List.mem_cons.mp hmem with heq | hmem
      · cases heq
      · exact h.counts a b hmem
    · exact ⟨h.ordered, fun hwork => by cases hwork⟩
    · intro e hwork
      refine List.count_cons_of_ne ?_
      rintro rfl
      cases hwork

theorem receive (hl : l.Nodup) (h : c.Inv l) {c' : Core α} (hstep : c.receive = some c') :
    (c'.Inv l ∧ c'.tokens l = 1) ∧ Frame c c' := by
  unfold Core.receive at hstep
  split at hstep
  · rename_i hcond
    have hc' := (Option.some.inj hstep).symm
    subst hc'
    have hwho : Who.caller ∈ processes l := by simp [processes]
    have hholds := total_update Ending.holds c.ending .call (nodup_processes hl) hwho
    have hcalled := total_update Ending.called c.ending .call (nodup_processes hl) hwho
    rw [hcond.1] at hholds hcalled
    simp only [Ending.holds, Ending.called] at hholds hcalled
    have hle := h.tokens_le
    have hdone := h.done
    have htokens : ({ c with doneQueue := c.doneQueue - 1 }.setEnding .caller .call).tokens l = 1 := by
      simp only [tokens, setEnding] at hle ⊢
      omega
    refine ⟨⟨⟨Nat.le_of_eq htokens, h.setEnding_others hwho .call, ?_, h.free, h.fault, h.counts,
      h.ordered⟩, htokens⟩, rfl, rfl, rfl, rfl, fun _ _ => rfl⟩
    simp only [setEnding]
    omega
  · cases hstep

end Inv

end Core

/-! ## The steps that are left -/

/-- The steps that a process has left to end the broadcast. -/
def Ending.rank : Ending → Nat
  | .send => 4
  | .call => 2
  | .inDone => 1
  | .over => 0

namespace Core

def rank (l : List α) (c : Core α) : Nat := total (processes l) Ending.rank c.ending + 3 * c.doneQueue

omit [DecidableEq α] in
theorem rank_touch (l : List α) (c : Core α) : c.touch.rank l = c.rank l := by
  unfold touch
  split <;> rfl

theorem rank_setEnding {l : List α} (hl : l.Nodup) (c : Core α) {who : Who α} (hwho : who ∈ processes l)
    (e : Ending) : (c.setEnding who e).rank l + (c.ending who).rank = c.rank l + e.rank := by
  have hupd := total_update Ending.rank c.ending e (nodup_processes hl) hwho
  simp only [rank, setEnding]
  omega

theorem rank_activeThrCountDec_le {l : List α} (hl : l.Nodup) (c : Core α) {who : Who α}
    (hwho : who ∈ processes l) (k : Nat) : (c.activeThrCountDec who k).rank l ≤ c.rank l + 4 := by
  have htouch := rank_touch l c
  unfold activeThrCountDec
  simp only
  split
  · refine Nat.le_trans (Nat.le_add_right _ _)
      (Nat.le_trans (Nat.le_of_eq (rank_setEnding hl _ hwho .send)) ?_)
    show c.touch.rank l + 4 ≤ _
    omega
  · show c.touch.rank l ≤ _
    omega

theorem Inv.rank_endStep {call : Call α} {l : List α} (hl : l.Nodup) {c c' : Core α} (h : c.Inv l)
    {who : Who α} {written : Bool} (hstep : c.endStep call who written = some c') :
    c'.rank l < c.rank l := by
  rcases h.endStep_cases hstep with ⟨hne, hcases⟩
  have hset := fun e => rank_setEnding hl c (h.mem_processes hne) e
  rcases hcases with ⟨hend, rfl⟩ | ⟨hend, rfl⟩ | ⟨hend, rfl⟩ | ⟨hend, rfl⟩
  · have hcall := hset .call
    rw [hend] at hcall
    simp only [Ending.rank] at hcall
    omega
  · have hover := hset .over
    rw [hend] at hover
    have hqueue : ({ c with doneQueue := c.doneQueue + 1 }.setEnding who .over).rank l =
        (c.setEnding who .over).rank l + 3 := by
      simp only [rank, setEnding]
      omega
    simp only [Ending.rank] at hover
    omega
  · have hin := hset .inDone
    rw [hend] at hin
    have hsame : ((c.emit (.done c.sendMsgCnt c.errorCnt)).setEnding who .inDone).rank l =
        (c.setEnding who .inDone).rank l := rfl
    simp only [Ending.rank] at hin
    omega
  · have hover := hset .over
    rw [hend] at hover
    have hsame : ({ c.emit .free with freed := true }.setEnding who .over).rank l =
        (c.setEnding who .over).rank l := rfl
    simp only [Ending.rank] at hover
    omega

theorem rank_receive {l : List α} (hl : l.Nodup) {c c' : Core α} (hstep : c.receive = some c') :
    c'.rank l < c.rank l := by
  unfold receive at hstep
  split at hstep
  · rename_i hcond
    have hwho : Who.caller ∈ processes l := by simp [processes]
    have hset := rank_setEnding hl c hwho .call
    rw [hcond.1] at hset
    rw [← Option.some.inj hstep]
    have hqueue := Nat.pos_of_ne_zero hcond.2
    simp only [rank, setEnding, Ending.rank] at hset ⊢
    omega
  · cases hstep

end Core

end Threadpool
