import Liblcb.Threadpool.BsendInv

/-!
# What a synchronous broadcast has done when it returns

`msg_cb` ran to its end on each thread that was counted and on no other, and nobody uses the record
any more, unless the caller returns between the unlock of the last receiver and its read of `done_cb`.
-/

namespace Threadpool

namespace Bsend

open Transition

variable {α : Type} [DecidableEq α]

/-! ## The first state -/

theorem length_targets {call : Call α}
    (hsrc : has call.flags selfSkip → ∀ t, call.src = some t → t ∈ call.threads) :
    (targets call).length + (if call.src ≠ none ∧ has call.flags selfSkip then 1 else 0) =
      call.threads.length := by
  by_cases hskip : call.src ≠ none ∧ has call.flags selfSkip = true
  · obtain ⟨t, ht⟩ := Option.ne_none_iff_exists'.mp hskip.1
    have hmem := hsrc hskip.2 t ht
    have heq : targets call = call.threads.erase t := by
      rw [call.nodup.erase_eq_filter]
      apply List.filter_congr
      intro x _
      rw [isTarget, ht, hskip.2, bne, beq_eq_decide]
      simp [eq_comm]
    have hpos := List.length_pos_of_mem hmem
    rw [if_pos hskip, heq, List.length_erase_of_mem hmem]
    omega
  · have heq : targets call = call.threads := by
      apply List.filter_eq_self.mpr
      intro x _
      have hnot : ¬ (call.src = some x ∧ has call.flags selfSkip = true) := by
        rintro ⟨hsome, hflag⟩
        have hne : call.src ≠ none := by
          rw [hsome]
          exact Option.some_ne_none x
        exact hskip ⟨hne, hflag⟩
      exact decide_eq_true hnot
    rw [if_neg hskip, heq, Nat.add_zero]

theorem inv_init {call : Call α} (hone : ¬ (call.threads.length = 1 ∧ call.src ≠ none))
    (hsrc : has call.flags selfSkip → ∀ t, call.src = some t → t ∈ call.threads) :
    Inv call (init call) := by
  have hlength := length_targets hsrc
  have hsender : (init call).sender = .loop call.threads 0 := if_neg hone
  have hidle : ∀ w : Proxy → Nat, w .idle = 0 → total (targets call) w (init call).proxy = 0 :=
    fun w hw => total_eq_zero fun _ _ => hw
  have hcount : call.threads.countP (isTarget call) = (targets call).length :=
    List.countP_eq_length_filter
  constructor
  case active =>
    -- nobody has been sent to yet, so every target is owed
    have howed : owed call (init call) = (targets call).length := by
      rw [owed, hidle Proxy.owes rfl, hsender]
      exact hcount
    rw [howed]
    simp only [init]
    rw [← hlength]
    split
    · rw [BitVec.ofNat_add]
      exact BitVec.add_sub_cancel _ _
    · rw [Nat.add_zero]
      exact BitVec.sub_zero _
  case holder =>
    intro who hin
    cases who with
    | sender =>
      simp only [St.inside, hsender] at hin
      cases hin
    | proxy t => cases hin
    | caller => cases hin
  case stored => exact fun _ _ h => by cases h
  case todo_nodup =>
    rw [hsender]
    exact call.nodup
  case todo_idle =>
    rw [hsender]
    exact fun t ht => ⟨ht, rfl⟩
  case knows =>
    rw [hsender]
    trivial
  case others => exact fun _ _ => rfl
  case sendMsgCnt =>
    rw [hidle Proxy.wasSent rfl, hsender]
    rfl
  case errorCnt =>
    rw [hidle Proxy.wasSent rfl, hsender]
    show 0 + 0 + call.threads.countP (isTarget call) = _
    omega
  case owes_le =>
    rw [hsender]
    exact Nat.le_refl 0
  case seen_eq => exact fun _ => rfl
  case rest =>
    rw [hsender]
    exact fun hr => hr.elim
  case gone => exact fun _ _ => .inl rfl
  case fault => exact List.not_mem_nil

/-! ## What is seen -/

/-- What was seen of a broadcast when it returned: `msg_cb` was called once on each thread that a
message went to and on no other, and returned there; `*send_msg_cnt` is their number, and the call
returns 0 exactly when there is one, unless no thread was to be sent to. -/
structure Delivered (call : Call α) (log : List (Event α)) (error : Option Errno)
    (sendMsgCnt : Nat) : Prop where
  sent : ∀ t, Event.sent t ∈ log → t ∈ targets call
  called : ∀ t, log.count (.call t) = log.count (.sent t) ∧
    log.count (.ret t) = log.count (.sent t) ∧ log.count (.sent t) ≤ 1
  counted : sendMsgCnt = call.threads.countP fun t => Event.sent t ∈ log
  error : targets call ≠ [] → (error = none ↔ 1 ≤ sendMsgCnt)

/-- What holds while a synchronous broadcast runs and after it. -/
structure Safe (call : Call α) (s : St α) : Prop where
  fault : Event.fault ∉ s.log
  delivered : ∀ error sendMsgCnt errorCnt, s.sender = .returned error sendMsgCnt errorCnt →
    Delivered call s.log error sendMsgCnt

namespace Inv

variable {call : Call α} {s : St α}

theorem mem_sent_iff (h : Inv call s) (t : α) : Event.sent t ∈ s.log ↔ s.proxy t ≠ .idle := by
  have hseen := congrArg Prod.fst (h.seen_eq t)
  rw [← List.count_pos_iff]
  cases hp : s.proxy t with
  | idle =>
    rw [hp] at hseen
    simp only [Broadcast.seen, Proxy.seen] at hseen
    simp [hseen]
  | _ =>
    rw [hp] at hseen
    simp only [Broadcast.seen, Proxy.seen] at hseen
    simp [hseen]

theorem total_wasSent (h : Inv call s) :
    total (targets call) Proxy.wasSent s.proxy =
      call.threads.countP fun t => Event.sent t ∈ s.log := by
  unfold targets
  induction call.threads with
  | nil => rfl
  | cons t l ih =>
    have hiff := h.mem_sent_iff t
    rw [List.filter_cons, List.countP_cons]
    by_cases htarget : isTarget call t = true
    · rw [if_pos htarget, total_cons, ih, Nat.add_comm]
      cases hp : s.proxy t with
      | idle => simp [hiff, hp, Proxy.wasSent]
      | _ => simp [hiff, hp, Proxy.wasSent]
    · -- a thread that is skipped is never sent to
      have hnot : t ∉ targets call := fun hmem => htarget (List.mem_filter.mp hmem).2
      rw [if_neg htarget, ih]
      simp [hiff, h.others t hnot]

theorem safe (h : Inv call s) : Safe call s := by
  constructor
  case fault => exact h.fault
  case delivered =>
    intro error sendMsgCnt errorCnt hsender
    have hgone := h.gone (by rw [St.hasReturned, hsender])
    have hknows := h.knows
    have hcnt := h.sendMsgCnt
    rw [hsender] at hknows hcnt
    obtain ⟨herror, hsend, -⟩ := hknows
    constructor
    case sent => exact fun t ht => h.mem_of_ne_idle ((h.mem_sent_iff t).mp ht)
    case called =>
      intro t
      have hseen := h.seen_eq t
      simp only [Broadcast.seen] at hseen
      rcases hgone t with hp | ⟨tm, hp⟩
      · rw [hp] at hseen
        simp only [Proxy.seen, Prod.mk.injEq] at hseen
        omega
      · rw [hp] at hseen
        simp only [Proxy.seen, Prod.mk.injEq] at hseen
        omega
    case counted =>
      rw [hsend, hcnt, h.total_wasSent]
      rfl
    case error =>
      intro _
      rw [herror]
      split
      · rename_i hzero
        simp [hzero]
      · rename_i hne
        simp only [true_iff]
        exact Nat.pos_of_ne_zero hne

end Inv

theorem stepLate_returned {call : Call α} {s : St α} {error : Option Errno} {n m : Nat}
    (hsender : s.sender = .returned error n m) (hidle : ∀ t, s.proxy t = .idle) (a : Action α) :
    stepLate call a s = none := by
  unfold stepLate
  split
  · rfl
  · cases a with
    | sender written => simp [step, senderStep, hsender]
    | proxy t => simp [step, proxyStep, hidle t]

/-- A synchronous broadcast from outside the pool or to more than one thread, or with nothing to do,
whose `src`, where it is to be skipped, is a thread of the pool: whatever the order of the steps and
the results of the writes, as long as the caller does not return early, what is seen is safe. -/
theorem bsend_sync (call : Call α)
    (hone : call.threads.length = 1 → call.src ≠ none → has call.flags selfSkip)
    (hsrc : has call.flags selfSkip → ∀ t, call.src = some t → t ∈ call.threads)
    (acts : List (Action α)) (s : St α) (hrun : run (stepLate call) acts (init call) = some s) :
    Safe call s := by
  by_cases hsingle : call.threads.length = 1 ∧ call.src ≠ none
  · have hskip := hone hsingle.1 hsingle.2
    have hsender : (init call).sender = .returned none 0 0 := by
      simp only [init]
      rw [if_pos hsingle, if_pos hskip]
    have hs : init call = s := by
      cases acts with
      | nil => exact Option.some.inj hrun
      | cons a acts =>
        obtain ⟨u, hu, -⟩ := run_cons hrun
        rw [stepLate_returned hsender (fun _ => rfl) a] at hu
        cases hu
    have hlength := length_targets hsrc
    rw [if_pos ⟨hsingle.2, hskip⟩, hsingle.1] at hlength
    rw [← hs]
    constructor
    case fault => exact List.not_mem_nil
    case delivered =>
      intro error sendMsgCnt errorCnt hreturned
      rw [hsender] at hreturned
      cases hreturned
      constructor
      case sent => exact fun _ h => absurd h List.not_mem_nil
      case called => exact fun _ => ⟨rfl, rfl, Nat.zero_le _⟩
      case counted => simp [init]
      case error => exact fun hne => absurd (List.eq_nil_of_length_eq_zero (by omega)) hne
  · have hinv : Inv call s :=
      run_invariant (fun _ _ _ h hstep => h.step hstep) (inv_init hsingle hsrc) hrun
    exact hinv.safe

/-- A pool of the threads below `n`, which all run. -/
def lowThreads (n : Nat) (hn : n < 2 ^ 64) (src current : Option Nat) (flags : BitVec 32)
    (hsync : has flags sync) : Call Nat where
  threads := List.range n
  arg := src
  current := current
  flags := flags
  running := fun _ => true
  nodup := List.nodup_range
  length_lt := by rwa [List.length_range]
  is_sync := hsync

/-- A thread from taking its message to `tpt_msg_active_thr_count_dec` being over. -/
def receiver (t : Nat) (steps : Nat) : List (Action Nat) := List.replicate steps (.proxy t)

/-- Two threads, and a caller that is none of them, to the return. -/
theorem bsend_sync_two :
    (∃ s, run (stepLate (lowThreads 2 (by decide) none none sync (by decide)))
      (List.replicate 11 (.sender true) ++ receiver 0 9 ++ receiver 1 10 ++
        List.replicate 4 (.sender true))
      (init (lowThreads 2 (by decide) none none sync (by decide))) = some s) ∧
    ∀ acts s, run (stepLate (lowThreads 2 (by decide) none none sync (by decide))) acts
      (init (lowThreads 2 (by decide) none none sync (by decide))) = some s →
        Safe (lowThreads 2 (by decide) none none sync (by decide)) s := by
  refine ⟨Option.isSome_iff_exists.mp (by decide), fun acts s hrun => ?_⟩
  exact bsend_sync (lowThreads 2 (by decide) none none sync (by decide)) (fun h => by cases h)
    (fun h => absurd h (by decide)) acts s hrun

/-- Every run is safe, whatever the order of the steps. -/
def AlwaysSafe (call : Call Nat) : Prop :=
  ∀ acts s, run (step call) acts (init call) = some s → Safe call s

/-- Three calls that are not safe: the only thread of a pool sends to itself, and is not counted; the
caller to be skipped is of another pool, and the call returns before the last thread took its message;
and the caller returns between the unlock of the last receiver and its read of `done_cb`. -/
theorem not_alwaysSafe :
    ¬ AlwaysSafe (lowThreads 1 (by decide) none (some 0) sync (by decide)) ∧
    ¬ AlwaysSafe (lowThreads 2 (by decide) (some 2) none (sync ||| selfSkip) (by decide)) ∧
    ¬ AlwaysSafe (lowThreads 2 (by decide) none none sync (by decide)) := by
  refine ⟨fun h => ?_, fun h => ?_, fun h => ?_⟩
  · have hrun : ((run (step (lowThreads 1 (by decide) none (some 0) sync (by decide)))
        (List.replicate 2 (.sender true))
        (init (lowThreads 1 (by decide) none (some 0) sync (by decide)))).map
        fun s => (s.sender, s.log)) = some (.returned none 0 0, [.ret 0, .call 0]) := by decide
    obtain ⟨s, hs, hview⟩ := Option.map_eq_some_iff.mp hrun
    obtain ⟨hsender, hlog⟩ := Prod.mk.inj hview
    have hcalled := (((h _ s hs).delivered none 0 0 hsender).called 0).1
    rw [hlog] at hcalled
    exact absurd hcalled (by decide)
  · have hrun : ((run (step (lowThreads 2 (by decide) (some 2) none (sync ||| selfSkip) (by decide)))
        (List.replicate 11 (.sender true) ++ receiver 0 10 ++ List.replicate 4 (.sender true) ++
          receiver 1 2)
        (init (lowThreads 2 (by decide) (some 2) none (sync ||| selfSkip) (by decide)))).map
        (·.log)) = some [.fault, .ret 0, .call 0, .sent 1, .sent 0] := by decide
    obtain ⟨s, hs, hlog⟩ := Option.map_eq_some_iff.mp hrun
    apply (h _ s hs).fault
    rw [hlog]
    decide
  · have hrun : ((run (step (lowThreads 2 (by decide) none none sync (by decide)))
        (List.replicate 11 (.sender true) ++ receiver 0 9 ++ receiver 1 9 ++
          List.replicate 4 (.sender true) ++ receiver 1 1)
        (init (lowThreads 2 (by decide) none none sync (by decide)))).map (·.log)) =
        some [.fault, .ret 1, .call 1, .ret 0, .call 0, .sent 1, .sent 0] := by decide
    obtain ⟨s, hs, hlog⟩ := Option.map_eq_some_iff.mp hrun
    apply (h _ s hs).fault
    rw [hlog]
    decide

end Bsend

end Threadpool
