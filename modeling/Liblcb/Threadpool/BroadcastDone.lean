import Liblcb.Threadpool.BroadcastInv

/-!
# Completion of a broadcast

Every schedule of a broadcast ends, and then `msg_cb` ran once on each thread that was reached and
`done_cb` once after all of them.
-/

namespace Threadpool

open Transition

variable {α : Type} [DecidableEq α]

namespace Broadcast

/-! ## Every schedule ends -/

def Proxy.rank : Proxy → Nat
  | .pending => 7
  | .inCb => 6
  | .dec => 5
  | .idle | .left => 0

def Sender.rank : Sender α → Nat
  | .loop todo _ => 12 * todo.length + 8
  | .send _ todo _ => 12 * todo.length + 19
  | .failed _ todo _ => 12 * todo.length + 18
  | .wait _ todo _ => 12 * todo.length + 9
  | .joined _ => 7
  | .dec _ _ => 6
  | .counted _ => 1
  | .returned _ => 0

/-- The steps that are left at most. -/
def rank (call : Call α) (s : St α) : Nat :=
  s.sender.rank + total (targets call) Proxy.rank s.proxy + s.core.rank (targets call)

namespace Inv

variable {call : Call α} {s s' : St α}

theorem rank_senderStep (h : Inv call s) {written : Bool} (hstep : Broadcast.senderStep call written s = some s') :
    rank call s' < rank call s := by
  have htouch := Core.rank_touch (targets call) s.core
  unfold Broadcast.senderStep at hstep
  cases hsender : s.sender with
  | loop todo err =>
    cases todo with
    | nil =>
      simp only [hsender, Option.some.injEq] at hstep
      subst hstep
      simp only [rank, hsender, Sender.rank, List.length_nil]
      omega
    | cons t todo =>
      simp only [hsender] at hstep
      split at hstep
      · rw [← Option.some.inj hstep]
        have hsame : ({ s.core.touch with sendMsgCnt := s.core.sendMsgCnt + 1 } : Core α).rank
            (targets call) = s.core.touch.rank (targets call) := rfl
        simp only [rank, hsender, Sender.rank, List.length_cons, hsame]
        omega
      · rw [← Option.some.inj hstep]
        simp only [rank, hsender, Sender.rank, List.length_cons]
        omega
  | send t todo err =>
    simp only [hsender, Option.some.injEq] at hstep
    subst hstep
    have hmem : t ∈ s.sender.todo := by
      rw [hsender]
      exact List.mem_cons_self
    have hknow := h.knows
    rw [hsender] at hknow
    rcases h.todo_idle t hmem with ⟨hthread, hidle⟩
    -- the thread of the message goes on to `pending`, and its share of the rank with it
    have hupd := total_update Proxy.rank s.proxy .pending (nodup_targets call) (mem_targets hthread hknow)
    rw [hidle] at hupd
    have hsame : ∀ e, (s.core.emit e).rank (targets call) = s.core.rank (targets call) := fun _ => rfl
    simp only [Proxy.rank] at hupd
    unfold sendStep
    cases tptMsgSend call.running call.flags t call.src written with
    | direct =>
      simp only [rank, hsender, Sender.rank, hsame]
      omega
    | queued =>
      simp only [rank, hsender, Sender.rank, hsame]
      omega
    | failed =>
      simp only [rank, hsender, Sender.rank, hsame]
      omega
  | wait t todo err =>
    simp only [hsender] at hstep
    split at hstep
    · rw [← Option.some.inj hstep]
      simp only [rank, hsender, Sender.rank]
      omega
    · cases hstep
  | failed t todo err =>
    simp only [hsender, Option.some.injEq] at hstep
    subst hstep
    have hsame : ({ s.core.touch with
        sendMsgCnt := s.core.sendMsgCnt - 1, errorCnt := s.core.errorCnt + 1 } : Core α).rank
          (targets call) = s.core.touch.rank (targets call) := rfl
    simp only [rank, hsender, Sender.rank, hsame]
    omega
  | joined err =>
    simp only [hsender] at hstep
    split at hstep
    · rw [← Option.some.inj hstep]
      simp only [rank, hsender, Sender.rank]
      omega
    · rw [← Option.some.inj hstep]
      simp only [rank, hsender, Sender.rank]
      omega
  | dec err cnt =>
    simp only [hsender, Option.some.injEq] at hstep
    subst hstep
    have hwho : Who.sender ∈ processes (targets call) := by simp [processes]
    -- the last of the processes that count down ends the call
    have hle := Core.rank_activeThrCountDec_le (nodup_targets call) s.core hwho err
    simp only [rank, hsender, Sender.rank]
    omega
  | counted cnt =>
    simp only [hsender] at hstep
    split at hstep
    · rw [← Option.some.inj hstep]
      simp only [rank, hsender, Sender.rank]
      omega
    · cases hstep
  | returned error =>
    simp only [hsender] at hstep
    cases hstep

theorem rank_proxyStep (h : Inv call s) {t : α} (hstep : Broadcast.proxyStep t s = some s') :
    rank call s' < rank call s := by
  have htouch := Core.rank_touch (targets call) s.core
  have hmem : s.proxy t ≠ .idle → t ∈ targets call := fun hne =>
    not_not.mp fun hnot => hne (h.others t hnot)
  have hsame : ∀ (c : Core α) (e : Event α), (c.emit e).rank (targets call) = c.rank (targets call) :=
    fun _ _ => rfl
  unfold Broadcast.proxyStep at hstep
  cases hp : s.proxy t with
  | idle =>
    rw [hp] at hstep
    cases hstep
  | left =>
    rw [hp] at hstep
    cases hstep
  | pending =>
    rw [hp] at hstep hmem
    rw [← Option.some.inj hstep]
    have hupd := total_update Proxy.rank s.proxy .inCb (nodup_targets call) (hmem (by decide))
    rw [hp] at hupd
    simp only [Proxy.rank] at hupd
    simp only [rank, hsame]
    omega
  | inCb =>
    rw [hp] at hstep hmem
    rw [← Option.some.inj hstep]
    have hupd := total_update Proxy.rank s.proxy .dec (nodup_targets call) (hmem (by decide))
    rw [hp] at hupd
    simp only [Proxy.rank] at hupd
    simp only [rank, hsame]
    omega
  | dec =>
    rw [hp] at hstep hmem
    rw [← Option.some.inj hstep]
    have ht := hmem (by decide)
    have hwho : Who.proxy t ∈ processes (targets call) := by simp [processes, ht]
    -- the same for a thread, which leaves for good
    have hle := Core.rank_activeThrCountDec_le (nodup_targets call) s.core hwho 1
    have hupd := total_update Proxy.rank s.proxy .left (nodup_targets call) ht
    rw [hp] at hupd
    simp only [Proxy.rank] at hupd
    simp only [rank]
    omega

theorem rank_step (h : Inv call s) {a : Action α} (hstep : Broadcast.step call a s = some s') :
    rank call s' < rank call s := by
  cases a with
  | sender written => exact h.rank_senderStep hstep
  | proxy t => exact h.rank_proxyStep hstep
  | ending who written =>
    rcases Option.map_eq_some_iff.mp hstep with ⟨core, hcore, rfl⟩
    exact Nat.add_lt_add_left (h.core.rank_endStep (nodup_targets call) hcore) _
  | receive =>
    rcases Option.map_eq_some_iff.mp hstep with ⟨core, hcore, rfl⟩
    exact Nat.add_lt_add_left (Core.rank_receive (nodup_targets call) hcore) _

/-- Where no process can move, the work is done and the record is freed. -/
theorem final (h : Inv call s) (hfinal : Final (Broadcast.step call) s) :
    (∀ t, s.proxy t = .idle ∨ s.proxy t = .left) ∧ s.core.freed = true := by
  obtain ⟨hending, hqueue⟩ := Core.stuck
    (fun who => Option.map_eq_none_iff.mp (hfinal (.ending who true)))
    (Option.map_eq_none_iff.mp (hfinal .receive))
  have hproxy : ∀ t, s.proxy t = .idle ∨ s.proxy t = .left := by
    intro t
    have hstuck : Broadcast.proxyStep t s = none := hfinal (.proxy t)
    unfold Broadcast.proxyStep at hstuck
    cases hp : s.proxy t with
    | idle => exact .inl rfl
    | left => exact .inr rfl
    | _ =>
      rw [hp] at hstuck
      cases hstuck
  have hsender : s.sender.todo = [] ∧ s.sender.owes = 0 := by
    have hstuck : Broadcast.senderStep call true s = none := hfinal (.sender true)
    have hknows := h.knows
    unfold Broadcast.senderStep at hstuck
    cases hsend : s.sender with
    | returned error => exact ⟨rfl, rfl⟩
    | loop todo err =>
      cases todo with
      | nil => simp [hsend] at hstuck
      | cons t todo =>
        simp only [hsend] at hstuck
        split at hstuck <;> cases hstuck
    | wait t todo err =>
      -- the thread that was called directly is over
      rw [hsend] at hknows
      simp only [hsend] at hstuck
      rw [if_pos ⟨(hproxy t).resolve_left hknows.2, hending (.proxy t)⟩] at hstuck
      cases hstuck
    | joined err =>
      simp only [hsend] at hstuck
      split at hstuck <;> cases hstuck
    | counted cnt =>
      simp only [hsend] at hstuck
      rw [if_pos (hending .sender)] at hstuck
      cases hstuck
    | send t todo err => simp [hsend] at hstuck
    | failed t todo err => simp [hsend] at hstuck
    | dec err cnt => simp [hsend] at hstuck
  refine ⟨hproxy, ?_⟩
  have howed : owed call s = 0 := by
    have hzero : total (targets call) Proxy.owes s.proxy = 0 := by
      refine total_eq_zero ?_
      intro t _
      rcases hproxy t with hp | hp
      · rw [hp]
        rfl
      · rw [hp]
        rfl
    rw [owed, hsender.1, hsender.2, hzero]
    rfl
  have htokens := h.tokens
  have hover : total (processes (targets call)) Ending.holds s.core.ending = 0 := by
    refine total_eq_zero ?_
    intro who _
    rw [hending who]
    rfl
  rw [if_pos howed, Core.tokens, hover, hqueue] at htokens
  cases hfreed : s.core.freed with
  | true => rfl
  | false =>
    rw [hfreed] at htokens
    cases htokens

end Inv

/-! ## What is seen -/

/-- What is seen while a broadcast runs: the record is not used after it is freed, `msg_cb` is called
once at most on a thread and only where a message went to it, `done_cb` is called once at most, and
only after `msg_cb` returned from every thread that was reached, with their number and the number of
the others. -/
structure Safe (call : Call α) (log : List (Event α)) : Prop where
  fault : Event.fault ∉ log
  sent : ∀ t, Event.sent t ∈ log → t ∈ targets call
  called : ∀ t, log.count (.call t) ≤ log.count (.sent t) ∧ log.count (.sent t) ≤ 1
  done : log.countP Event.isDone ≤ 1
  free : log.count .free ≤ 1
  done_last : ∀ after before a b, log = after ++ .done a b :: before →
    (∀ t, Event.sent t ∈ log → Event.ret t ∈ before) ∧
      a = (targets call).countP (fun t => Event.sent t ∈ log) ∧ a + b = (targets call).length

/-- What was seen of a broadcast that is over. -/
structure Complete (call : Call α) (log : List (Event α)) : Prop where
  called : ∀ t, log.count (.call t) = log.count (.sent t) ∧ log.count (.ret t) = log.count (.sent t)
  done : log.countP Event.isDone = 1
  free : log.count .free = 1

namespace Inv

variable {call : Call α} {s s' : St α}

theorem mem_sent_iff (h : Inv call s) (t : α) : Event.sent t ∈ s.core.log ↔ s.proxy t ≠ .idle := by
  have hseen := congrArg Prod.fst (h.seen_eq t)
  rw [← List.count_pos_iff]
  cases hp : s.proxy t with
  | idle =>
    rw [hp] at hseen
    simp only [seen, Proxy.seen] at hseen
    simp [hseen]
  | _ =>
    rw [hp] at hseen
    simp only [seen, Proxy.seen] at hseen
    simp [hseen]

theorem total_wasSent (h : Inv call s) (l : List α) :
    total l Proxy.wasSent s.proxy = l.countP fun t => Event.sent t ∈ s.core.log := by
  induction l with
  | nil => rfl
  | cons t l ih =>
    rw [total_cons, List.countP_cons, ih, Nat.add_comm]
    have hiff := h.mem_sent_iff t
    cases hp : s.proxy t with
    | idle => simp [hiff, hp, Proxy.wasSent]
    | _ => simp [hiff, hp, Proxy.wasSent]

theorem safe (h : Inv call s) : Safe call s.core.log := by
  have htokens := h.core.tokens_le
  have hcalled := Core.Inv.called_le_holds (targets call) s.core.ending
  rw [Core.tokens] at htokens
  constructor
  case fault => exact h.core.fault
  case sent => exact fun t ht => not_not.mp fun hnot => (h.mem_sent_iff t).mp ht (h.others t hnot)
  case called =>
    intro t
    have hseen := h.seen_eq t
    simp only [seen] at hseen
    cases hp : s.proxy t <;>
      (rw [hp] at hseen; simp only [Proxy.seen, Prod.mk.injEq] at hseen; omega)
  case done =>
    have hdone := h.core.done
    omega
  case free =>
    have hfree := h.core.free
    omega
  case done_last =>
    intro after before a b hlog
    have hmem : Event.done a b ∈ s.core.log := by
      rw [hlog]
      exact List.mem_append_right _ List.mem_cons_self
    -- `done_cb` was called, so nobody owes anything any more
    have howed : owed call s = 0 := by
      by_contra hne
      have hnot : true = false := h.core.no_done (h.tokens_zero (Nat.pos_of_ne_zero hne)) _ hmem
      cases hnot
    unfold owed at howed
    -- and so every thread that was sent a message is through with it
    have hover : ∀ t, Event.sent t ∈ s.core.log → s.proxy t = .left := by
      intro t ht
      have hidle := (h.mem_sent_iff t).mp ht
      have htarget : t ∈ targets call := not_not.mp fun hnot => hidle (h.others t hnot)
      have hle := le_total htarget Proxy.owes s.proxy
      cases hp : s.proxy t with
      | idle => exact absurd hp hidle
      | left => rfl
      | _ =>
        rw [hp] at hle
        simp only [Proxy.owes] at hle
        omega
    have hahead : s.sender.ahead = 0 := by
      have hknows := h.knows
      cases hsender : s.sender with
      | send t todo err =>
        rw [hsender] at hknows howed
        simp only [Sender.todo, List.countP_cons_of_pos hknows] at howed
        omega
      | failed t todo err =>
        rw [hsender] at hknows howed
        simp only [Sender.todo, List.countP_cons_of_pos hknows] at howed
        omega
      | _ => rfl
    rcases h.core.counts a b hmem with ⟨hsend, herr⟩
    have hcnt := h.sendMsgCnt
    have htotal := h.errorCnt
    refine ⟨?_, ?_, by omega⟩
    · intro t ht
      have hseen := h.seen_eq t
      rw [hover t ht] at hseen
      simp only [seen, Proxy.seen, Prod.mk.injEq] at hseen
      have hret : Event.ret t ∈ s.core.log := List.count_pos_iff.mp (by omega)
      rw [hlog] at hret
      -- no call of `msg_cb` returns behind that of `done_cb`
      rcases List.mem_append.mp hret with hafter | hbefore
      · have hordered := h.core.ordered
        rw [hlog] at hordered
        have hnot : true = false := hordered.not_work rfl _ hafter
        cases hnot
      · rcases List.mem_cons.mp hbefore with heq | hbefore
        · cases heq
        · exact hbefore
    · rw [← h.total_wasSent]
      omega

theorem complete (h : Inv call s) (hfinal : Final (Broadcast.step call) s) :
    Complete call s.core.log := by
  rcases h.final hfinal with ⟨hproxy, hfreed⟩
  have hdone := h.core.done
  have hfree := h.core.free
  have hle := h.safe.done
  rw [hfreed, Bool.toNat_true] at hdone hfree
  constructor
  case called =>
    intro t
    have hseen := h.seen_eq t
    simp only [seen] at hseen
    rcases hproxy t with hp | hp <;>
      (rw [hp] at hseen; simp only [Proxy.seen, Prod.mk.injEq] at hseen; omega)
  case done => omega
  case free => exact hfree

end Inv

/-- A broadcast whose caller, where it is to be skipped, is a thread of the pool: whatever the order of
the steps and the results of the writes, what is seen is safe, no schedule goes on for ever, and where
it ends the broadcast is complete. -/
theorem cbsend_broadcast (call : Call α) (htwo : 2 ≤ call.threads.length)
    (hsrc : has call.flags selfSkip → call.src ∈ call.threads) {allocated : Bool} {first : St α}
    (hstart : start call allocated = some first) (acts : List (Action α)) (s : St α)
    (hrun : run (step call) acts first = some s) :
    Safe call s.core.log ∧ acts.length ≤ 12 * call.threads.length + 8 ∧
      (Final (step call) s → Complete call s.core.log) := by
  have hinit := inv_init htwo hsrc
  have hfirst : init call = first := by
    unfold start at hstart
    split at hstart
    · exact Option.some.inj hstart
    · cases hstart
  rw [← hfirst] at hrun
  have hinv : Inv call s := run_invariant (fun _ _ _ h hstep => h.step hstep) hinit hrun
  have hlength := run_length_le (fun _ _ _ h hstep => Inv.step h hstep)
    (fun _ _ _ h hstep => Inv.rank_step h hstep) hinit hrun
  have hrank : rank call (init call) = 12 * call.threads.length + 8 := by
    have hidle : total (targets call) Proxy.rank (init call).proxy = 0 := total_eq_zero fun _ _ => rfl
    have hover : total (processes (targets call)) Ending.rank (init call).core.ending = 0 :=
      total_eq_zero fun _ _ => rfl
    rw [rank, hidle, Core.rank, hover]
    rfl
  exact ⟨hinv.safe, by omega, hinv.complete⟩

/-- Two threads and a caller; all of them run. -/
def twoThreads (src : Nat) (flags : BitVec 32) : Call Nat where
  threads := [0, 1]
  src := src
  flags := flags
  running := fun _ => true
  nodup := by decide
  length_lt := by decide
  src_running := rfl

theorem cbsend_broadcast_inside :
    (∃ s, run (step (twoThreads 0 selfSkip))
      (List.replicate 5 (.sender true) ++ [.proxy 1, .proxy 1, .proxy 1, .ending (.proxy 1) true, .receive,
        .ending .caller true, .ending .caller true]) (init (twoThreads 0 selfSkip)) = some s) ∧
      ∀ acts s, run (step (twoThreads 0 selfSkip)) acts (init (twoThreads 0 selfSkip)) = some s →
        Safe (twoThreads 0 selfSkip) s.core.log ∧ acts.length ≤ 12 * 2 + 8 ∧
          (Final (step (twoThreads 0 selfSkip)) s → Complete (twoThreads 0 selfSkip) s.core.log) := by
  refine ⟨Option.isSome_iff_exists.mp (by decide), fun acts s hrun => ?_⟩
  have hstart : start (twoThreads 0 selfSkip) true = some (init (twoThreads 0 selfSkip)) := if_pos (by decide)
  exact cbsend_broadcast (twoThreads 0 selfSkip) (by decide) (fun _ => by decide) hstart acts s hrun

/-- A caller of another pool is not skipped, but it is subtracted: `done_cb` is called while the
message of the second thread is in its queue, and the record is used after it is freed. -/
theorem cbsend_broadcast_outside :
    ∃ acts s, start (twoThreads 2 selfSkip) true = some (init (twoThreads 2 selfSkip)) ∧
      run (step (twoThreads 2 selfSkip)) acts (init (twoThreads 2 selfSkip)) = some s ∧
      s.core.log = [.call 1, .fault, .free, .done 2 0, .ret 0, .call 0, .sent 1, .sent 0] ∧
      ¬ Safe (twoThreads 2 selfSkip) s.core.log := by
  have hrun : ((run (step (twoThreads 2 selfSkip))
      (List.replicate 6 (.sender true) ++ [.proxy 0, .proxy 0, .proxy 0, .ending (.proxy 0) true, .receive,
        .ending .caller true, .ending .caller true, .proxy 1]) (init (twoThreads 2 selfSkip))).map
      (·.core.log)) = some [.call 1, .fault, .free, .done 2 0, .ret 0, .call 0, .sent 1, .sent 0] := by
    decide
  rcases Option.map_eq_some_iff.mp hrun with ⟨s, hs, hlog⟩
  refine ⟨_, s, if_pos (by decide), hs, hlog, fun hsafe => hsafe.fault ?_⟩
  rw [hlog]
  decide

end Broadcast

end Threadpool
