import Liblcb.Threadpool.OneByOneStep

/-!
# Completion of a one by one broadcast

Every schedule in which the walk of `tpt_msg_cbsend` finds a thread ends, and then `msg_cb` ran on one
thread after the other and `done_cb` once after the last of them.
-/

namespace Threadpool

namespace OneByOne

open Transition

variable {α : Type} [DecidableEq α]

/-- The step is not the one where the walk of `tpt_msg_cbsend` comes to the end of the pool. -/
def Reaches (w : Walk α) (s : St α) : Action α → Prop
  | .proc .sender _ => s.pc .sender = .walk → s.core.curThrIdx < w.threads.length
  | _ => True

instance (w : Walk α) (s : St α) (a : Action α) : Decidable (Reaches w s a) :=
  match a with
  | .proc .sender _ =>
    inferInstanceAs (Decidable (s.pc .sender = .walk → s.core.curThrIdx < w.threads.length))
  | .proc (.proxy _) _ | .proc .caller _ | .ending _ _ | .receive => .isTrue trivial

/-- The steps of a broadcast whose first message reaches a thread. -/
def reachStep (w : Walk α) (a : Action α) (s : St α) : Option (St α) :=
  if Reaches w s a then step w a s else none

namespace Inv

variable {w : Walk α} {s s' : St α}

theorem quiet_or_held (h : Inv w s) (who : Who α) : (s.pc who).Quiet w who ∨ Held w s who := by
  rcases h.phase with ⟨who', hheld⟩ | hended
  · by_cases hne : who = who'
    · exact .inr (hne ▸ hheld)
    · exact .inl (hheld.quiet who hne)
  · exact .inl (hended.quiet who)

theorem held (h : Inv w s) {who : Who α} (hnot : ¬ (s.pc who).Quiet w who) : Held w s who :=
  (h.quiet_or_held who).resolve_left hnot

theorem quiet_of_wait (h : Inv w s) {who : Who α} {u : α} (hpc : s.pc who = .wait u) :
    (s.pc who).Quiet w who := by
  refine (h.quiet_or_held who).resolve_right fun hheld => ?_
  have hplace := hheld.place
  rw [hpc] at hplace
  exact hplace

theorem mem_of_wait (h : Inv w s) {who : Who α} {u : α} (hpc : s.pc who = .wait u) :
    who ∈ processes (participants w) := by
  have hquiet := h.quiet_of_wait hpc
  rw [hpc] at hquiet
  exact hquiet

theorem procStep (hpool : PoolEnds w) (h : Inv w s) {who : Who α} {written : Bool}
    (hgood : Reaches w s (.proc who written)) (hstep : procStep w who written s = some s') :
    Inv w s' := by
  unfold OneByOne.procStep at hstep
  have hheld : ¬ (s.pc who).Quiet w who → Held w s who := h.held
  cases hpc : s.pc who with
  | idle => simp [hpc] at hstep
  | left => simp [hpc] at hstep
  | espipe => simp [hpc] at hstep
  | wait u =>
    simp only [hpc] at hstep
    split at hstep
    · rw [← Option.some.inj hstep]
      exact h.of_left (h.quiet_of_wait hpc) (h.mem_of_wait hpc)
    · cases hstep
  | pending =>
    simp only [hpc] at hstep
    rw [hpc] at hheld
    rw [← Option.some.inj hstep]
    exact h.of_pending (hheld id) hpc
  | inCb =>
    simp only [hpc] at hstep
    rw [hpc] at hheld
    rw [← Option.some.inj hstep]
    exact h.of_inCb (hheld id) hpc
  | next =>
    simp only [hpc] at hstep
    rw [hpc] at hheld
    have hnext := h.of_next (hheld id) hpc
    rw [(hheld id).touch_eq] at hstep hnext
    rw [← Option.some.inj hstep]
    exact hnext
  | walk =>
    simp only [hpc] at hstep
    rw [hpc] at hheld
    rw [← Option.some.inj hstep]
    apply h.of_walk hpool (hheld id) hpc
    rintro rfl
    exact hgood hpc
  | send u =>
    simp only [hpc] at hstep
    rw [hpc] at hheld
    rw [← Option.some.inj hstep]
    exact h.of_send (hheld id) hpc
  | failed =>
    simp only [hpc] at hstep
    rw [hpc] at hheld
    have hfailed := h.of_failed (hheld id) hpc
    unfold St.countError at hstep hfailed
    rw [(hheld id).touch_eq] at hstep hfailed
    rw [← Option.some.inj hstep]
    exact hfailed
  | tail =>
    simp only [hpc] at hstep
    rw [hpc] at hheld
    rw [← Option.some.inj hstep]
    exact h.of_tail (hheld id) hpc
  | tailSend =>
    simp only [hpc] at hstep
    rw [hpc] at hheld
    rw [← Option.some.inj hstep]
    exact h.of_tailSend (hheld id) hpc
  | tailFailed =>
    simp only [hpc] at hstep
    rw [hpc] at hheld
    rw [← Option.some.inj hstep]
    exact h.of_tailFailed (hheld id) hpc
  | self =>
    simp only [hpc] at hstep
    rw [hpc] at hheld
    rw [← Option.some.inj hstep]
    exact h.of_self (hheld id) hpc
  | inSelf =>
    simp only [hpc] at hstep
    rw [hpc] at hheld
    rw [← Option.some.inj hstep]
    exact h.of_inSelf (hheld id) hpc
  | exhausted =>
    rw [hpc] at hheld
    have hplace := (hheld id).place
    rw [hpc] at hplace
    exact hplace.elim

theorem of_core (h : Inv w s) {core : Core α}
    (hcore : core.Inv (participants w) ∧ core.tokens (participants w) = 1) (hframe : s.core.Frame core)
    (htrace : Trace w core.log) (htokens : s.core.tokens (participants w) = 1)
    (hcount : core.log.countP Event.isCall = s.core.log.countP Event.isCall ∧
      core.log.countP Event.isRet = s.core.log.countP Event.isRet ∧
      core.log.countP Event.isFailed = s.core.log.countP Event.isFailed) :
    Inv w { s with core := core } := by
  refine ⟨hcore.1, htrace, .inr ?_⟩
  rcases h.phase with ⟨who, hheld⟩ | hended
  · rw [hheld.tokens] at htokens
    cases htokens
  · constructor
    case quiet => exact hended.quiet
    case tokens => exact hcore.2
    case sends =>
      simp only [hframe.sendMsgCnt, hcount.1]
      exact hended.sends
    case errors =>
      simp only [hframe.errorCnt, hcount.2.2]
      exact hended.errors
    case calls =>
      simp only [hcount.1, hcount.2.1]
      exact hended.calls

theorem step (hpool : PoolEnds w) (h : Inv w s) {a : Action α} (hstep : reachStep w a s = some s') :
    Inv w s' := by
  unfold reachStep at hstep
  split at hstep
  · rename_i hgood
    cases a with
    | proc who written => exact h.procStep hpool hgood hstep
    | ending who written =>
      obtain ⟨core, hcore, rfl⟩ := Option.map_eq_some_iff.mp hstep
      obtain ⟨hinv, hframe⟩ := h.core.endStep (nodup_participants w) hcore
      have htokens : s.core.tokens (participants w) = 1 := by
        obtain ⟨hholds, hqueue, hfreed⟩ := h.core.holds_of_ne (h.core.endStep_cases hcore).1
        rw [Core.tokens, hholds, hqueue, hfreed]
        rfl
      rcases h.core.endStep_log hcore with hlog | ⟨e, hwork, hlog⟩
      · exact h.of_core hinv hframe (hlog ▸ h.trace) htokens ⟨by rw [hlog], by rw [hlog], by rw [hlog]⟩
      · -- what is seen is no work
        have hnot : e.isCall = false ∧ e.isRet = false ∧ e.isFailed = false := by
          cases e <;> first | exact ⟨rfl, rfl, rfl⟩ | cases hwork
        refine h.of_core hinv hframe (hlog ▸ h.trace.cons hnot.1) htokens ⟨?_, ?_, ?_⟩
        · rw [hlog, List.countP_cons_of_neg (by rw [hnot.1]; decide)]
        · rw [hlog, List.countP_cons_of_neg (by rw [hnot.2.1]; decide)]
        · rw [hlog, List.countP_cons_of_neg (by rw [hnot.2.2]; decide)]
    | receive =>
      obtain ⟨core, hcore, rfl⟩ := Option.map_eq_some_iff.mp hstep
      obtain ⟨hinv, hframe⟩ := h.core.receive (nodup_participants w) hcore
      unfold Core.receive at hcore
      split at hcore
      · rename_i hcond
        have htokens : s.core.tokens (participants w) = 1 := by
          have hle := h.core.tokens_le
          have hqueue := Nat.pos_of_ne_zero hcond.2
          unfold Core.tokens at hle ⊢
          omega
        have hlog : core.log = s.core.log := by
          rw [← Option.some.inj hcore]
          rfl
        exact h.of_core hinv hframe (hlog ▸ h.trace) htokens ⟨by rw [hlog], by rw [hlog], by rw [hlog]⟩
      · cases hcore
  · cases hstep

end Inv

theorem inv_init (w : Walk α) : Inv w (init w) := by
  have hover : ∀ weight : Ending → Nat, weight .over = 0 →
      total (processes (participants w)) weight (fun _ => .over) = 0 :=
    fun weight hweight => total_eq_zero fun _ _ => hweight
  have htokens : (init w).core.tokens (participants w) = 0 := by
    simp only [Core.tokens, init, hover Ending.holds rfl]
    rfl
  have hpc : (init w).pc .sender = if selfFirst w.flags then .self else .walk := by
    simp only [init, Function.update_self]
  have hnone : ∀ e : Event α, e ∉ (init w).core.log := fun _ => List.not_mem_nil
  constructor
  case core =>
    constructor
    case tokens_le => omega
    case others => exact fun _ _ => rfl
    case done =>
      simp only [init, hover Ending.called rfl]
      rfl
    case free => rfl
    case fault => exact hnone _
    case counts => exact fun _ _ hmem => absurd hmem (hnone _)
    case ordered => trivial
  case trace => exact ⟨fun _ => Nat.zero_le 1, fun _ hmem => absurd hmem (hnone _), trivial, fun _ => hnone _⟩
  case phase =>
    -- the sender holds the broadcast
    refine .inl ⟨.sender, ?_⟩
    constructor
    case mem => simp [processes]
    case quiet =>
      intro who hne
      simp only [init]
      rw [Function.update_of_ne hne]
      trivial
    case place =>
      rw [hpc]
      by_cases hfirst : selfFirst w.flags = true
      · rw [if_pos hfirst]
        exact ⟨rfl, hfirst, Nat.zero_le _, fun _ => hnone _⟩
      · rw [if_neg hfirst]
        exact .inl ⟨trivial, Nat.zero_le _, fun _ _ _ _ _ => hnone _, fun h => absurd h hfirst,
          fun _ => hnone _⟩
    case tokens => exact htokens
    case sends =>
      rw [hpc]
      split <;> rfl
    case errors =>
      rw [hpc]
      split <;> rfl
    case calls =>
      rw [hpc]
      split <;> rfl

/-! ## Every schedule ends -/

def Pc.rank : Pc α → Nat
  | .self => 12
  | .inSelf => 11
  | .walk => 10
  | .tail => 9
  | .send _ | .tailSend => 8
  | .failed | .tailFailed => 7
  | .pending => 5
  | .inCb => 4
  | .next => 3
  | .wait _ | .exhausted => 1
  | .idle | .left | .espipe => 0

/-- The place behind both pools. -/
def bound (w : Walk α) : Nat := max w.threads.length (w.pool w.src).length + 1

/-- The steps that are left at most. -/
def rank (w : Walk α) (s : St α) : Nat :=
  total (processes (participants w)) Pc.rank s.pc + 20 * (bound w - s.core.curThrIdx) +
    s.core.rank (participants w)

theorem rank_goto {w : Walk α} {who : Who α} (hwho : who ∈ processes (participants w)) (s : St α)
    (core : Core α) (pc : Pc α) :
    rank w ({ s with core := core }.goto who pc) + (s.pc who).rank =
      total (processes (participants w)) Pc.rank s.pc + pc.rank + 20 * (bound w - core.curThrIdx) +
        core.rank (participants w) := by
  have hupd := total_update Pc.rank s.pc pc (nodup_processes (nodup_participants w)) hwho
  simp only [rank, St.goto]
  omega

theorem Held.rank_deliver {w : Walk α} {s : St α} {who : Who α} (h : Held w s who) {u : α}
    (hne : who ≠ .proxy u) (hu : u ∈ participants w) (written : Bool) {onError : Pc α}
    (hpc : (s.pc who).rank = 8) (herror : onError.rank = 7) :
    rank w (s.deliver w who u written onError) < rank w s := by
  have hnodup := nodup_processes (nodup_participants w)
  have hproxy : Who.proxy u ∈ processes (participants w) := by simp [processes, hu]
  have hother : (Function.update s.pc (.proxy u) .pending) who = s.pc who := Function.update_of_ne hne _ _
  have hupd := total_update Pc.rank s.pc .pending hnodup hproxy
  rw [show (Pc.pending : Pc α).rank = 5 from rfl] at hupd
  unfold St.deliver
  cases tptMsgSend w.running w.flags u (who.thread w.toCall) written with
  | direct =>
    have hwho := total_update Pc.rank (Function.update s.pc (.proxy u) .pending) (.wait u) hnodup h.mem
    rw [hother, hpc, show (Pc.wait u).rank = 1 from rfl] at hwho
    simp only [rank, St.goto, Core.emit, Core.rank]
    omega
  | queued =>
    have hwho := total_update Pc.rank (Function.update s.pc (.proxy u) .pending) .left hnodup h.mem
    rw [hother, hpc, show (Pc.left : Pc α).rank = 0 from rfl] at hwho
    simp only [rank, St.goto, Core.emit, Core.rank]
    omega
  | failed =>
    have hgoto := rank_goto h.mem s (s.core.emit (.failed u)) onError
    have hsame : (s.core.emit (.failed u)).rank (participants w) = s.core.rank (participants w) := rfl
    have hcur : (s.core.emit (.failed u)).curThrIdx = s.core.curThrIdx := rfl
    rw [hsame, hcur] at hgoto
    simp only [rank] at hgoto ⊢
    omega

namespace Inv

variable {w : Walk α} {s s' : St α}

theorem rank_procStep (h : Inv w s) {who : Who α} {written : Bool}
    (hgood : Reaches w s (.proc who written)) (hstep : OneByOne.procStep w who written s = some s') :
    rank w s' < rank w s := by
  unfold OneByOne.procStep at hstep
  have hheld : ¬ (s.pc who).Quiet w who → Held w s who := h.held
  -- the process with the record goes on to `pc`, at the same thread or behind it
  have hstay : Held w s who → ∀ (core : Core α) (pc : Pc α),
      core.rank (participants w) = s.core.rank (participants w) → core.curThrIdx = s.core.curThrIdx →
      pc.rank < (s.pc who).rank → rank w ({ s with core := core }.goto who pc) < rank w s := by
    intro hh core pc hcore hcur hlt
    have hgoto := rank_goto hh.mem s core pc
    rw [hcore, hcur] at hgoto
    simp only [rank] at hgoto ⊢
    omega
  have hnext : Held w s who → ∀ (core : Core α) (pc : Pc α),
      core.rank (participants w) = s.core.rank (participants w) →
      core.curThrIdx = s.core.curThrIdx + 1 → s.core.curThrIdx < bound w →
      pc.rank < (s.pc who).rank + 20 → rank w ({ s with core := core }.goto who pc) < rank w s := by
    intro hh core pc hcore hcur hbound hlt
    have hgoto := rank_goto hh.mem s core pc
    rw [hcore, hcur] at hgoto
    simp only [rank] at hgoto ⊢
    omega
  have hfinish : Held w s who → ∀ core : Core α, core.rank (participants w) = s.core.rank (participants w) →
      core.curThrIdx = s.core.curThrIdx → 4 < (s.pc who).rank →
      rank w ({ s with core := core }.finish who) < rank w s := by
    intro hh core hcore hcur hlt
    have hgoto := rank_goto hh.mem s (core.setEnding who .send) .left
    have hset := Core.rank_setEnding (nodup_participants w) core hh.mem .send
    have hsame : (core.setEnding who .send).curThrIdx = s.core.curThrIdx := hcur
    rw [show Ending.send.rank = 4 from rfl] at hset
    rw [show (Pc.left : Pc α).rank = 0 from rfl, hsame] at hgoto
    have hshape : ({ s with core := core } : St α).finish who =
        ({ s with core := core.setEnding who .send } : St α).goto who .left := rfl
    rw [hshape]
    simp only [rank] at hgoto ⊢
    omega
  cases hpc : s.pc who with
  | idle => simp [hpc] at hstep
  | left => simp [hpc] at hstep
  | espipe => simp [hpc] at hstep
  | wait u =>
    simp only [hpc] at hstep
    split at hstep
    · rw [← Option.some.inj hstep]
      have hgoto : rank w (s.goto who .left) + (s.pc who).rank =
          total (processes (participants w)) Pc.rank s.pc + 0 + 20 * (bound w - s.core.curThrIdx) +
            s.core.rank (participants w) := rank_goto (h.mem_of_wait hpc) s s.core .left
      rw [hpc, show (Pc.wait u).rank = 1 from rfl] at hgoto
      show rank w (s.goto who .left) <
        total (processes (participants w)) Pc.rank s.pc + 20 * (bound w - s.core.curThrIdx) +
          s.core.rank (participants w)
      omega
    · cases hstep
  | pending =>
    simp only [hpc] at hstep
    rw [hpc] at hheld hstay
    rw [← Option.some.inj hstep, (hheld id).touch_eq]
    exact hstay (hheld id) _ .inCb rfl rfl (show 4 < 5 by decide)
  | inCb =>
    simp only [hpc] at hstep
    rw [hpc] at hheld hstay
    rw [← Option.some.inj hstep]
    exact hstay (hheld id) _ .next rfl rfl (show 3 < 4 by decide)
  | next =>
    simp only [hpc] at hstep
    rw [hpc] at hheld hnext
    have hplace := (hheld id).place
    rw [hpc] at hplace
    have hcur : s.core.curThrIdx < bound w := by
      rcases hplace with ⟨-, -, hbefore⟩ | ⟨-, -, hcur⟩
      · have hle := hbefore.le
        unfold bound
        omega
      · unfold bound
        omega
    rw [(hheld id).touch_eq] at hstep
    rw [← Option.some.inj hstep]
    exact hnext (hheld id) _ .walk rfl rfl hcur (show 10 < 23 by decide)
  | walk =>
    simp only [hpc] at hstep
    rw [hpc] at hheld hstay
    rw [← Option.some.inj hstep]
    have hplace := (hheld id).place
    rw [hpc] at hplace
    unfold walkStep
    rw [(hheld id).touch_eq]
    cases hget : (poolOf w who)[s.core.curThrIdx]? with
    | none =>
      refine hstay (hheld id) s.core _ rfl rfl ?_
      split
      · exact show 1 < 10 by decide
      · exact show 9 < 10 by decide
    | some u =>
      by_cases hu : u = w.src
      · -- the place behind the thread is in the pool, or at its end
        have hlt := (List.getElem?_eq_some_iff.mp hget).1
        have hcur : s.core.curThrIdx < bound w := by
          rcases hplace with ⟨hwalk, -⟩ | ⟨rfl, -⟩
          · rw [poolOf_walking hwalk] at hlt
            unfold bound
            omega
          · have hsrc : s.core.curThrIdx < (w.pool w.src).length := hlt
            unfold bound
            omega
        simp only [if_pos hu, rank, Core.rank]
        omega
      · simp only [if_neg hu]
        exact hstay (hheld id) _ (.send u) rfl rfl (show 8 < 10 by decide)
  | send u =>
    simp only [hpc] at hstep
    rw [hpc] at hheld
    rw [← Option.some.inj hstep]
    have hplace := (hheld id).place
    rw [hpc] at hplace
    obtain ⟨hwalk, hbefore, hget, hu⟩ := hplace
    refine (hheld id).rank_deliver ?_ (mem_participants (.inl (List.mem_of_getElem? hget))) written
      (by rw [hpc]; rfl) rfl
    rintro rfl
    exact hbefore.fresh _ u (Nat.le_refl _) hget hu hwalk.2.2
  | failed =>
    simp only [hpc] at hstep
    rw [hpc] at hheld hnext
    have hplace := (hheld id).place
    rw [hpc] at hplace
    have hcur : s.core.curThrIdx < bound w := by
      have hle := hplace.2.le
      unfold bound
      omega
    unfold St.countError at hstep
    rw [(hheld id).touch_eq] at hstep
    rw [← Option.some.inj hstep]
    exact hnext (hheld id) _ .walk rfl rfl hcur (show 10 < 27 by decide)
  | tail =>
    simp only [hpc] at hstep
    rw [← Option.some.inj hstep]
    have hheld' := hheld (by rw [hpc]; exact id)
    have hplace := hheld'.place
    rw [hpc] at hplace
    unfold tailStep
    rw [hheld'.touch_eq]
    by_cases hlast : selfLast w.flags = true ∧ w.src ≠ who.thread w.toCall
    · simp only [if_pos hlast]
      rcases hplace with ⟨hwalk, -, hbefore⟩ | rfl
      · -- the index is at the end of the pool already
        have hle := hbefore.le
        rw [poolOf_walking hwalk]
        have hgoto := rank_goto hheld'.mem s { s.core with
          curThrIdx := w.threads.length
          sendMsgCnt := s.core.sendMsgCnt + 1 } .tailSend
        rw [hpc, show (Pc.tail : Pc α).rank = 9 from rfl, show (Pc.tailSend : Pc α).rank = 8 from rfl]
          at hgoto
        simp only [rank, Core.rank] at hgoto ⊢
        omega
      · exact absurd rfl hlast.2
    · simp only [if_neg hlast]
      refine hfinish hheld' s.core rfl rfl ?_
      rw [hpc]
      exact show 4 < 9 by decide
  | tailSend =>
    simp only [hpc] at hstep
    rw [hpc] at hheld
    rw [← Option.some.inj hstep]
    have hplace := (hheld id).place
    rw [hpc] at hplace
    refine (hheld id).rank_deliver ?_ (mem_participants (.inr rfl)) written (by rw [hpc]; rfl) rfl
    rintro rfl
    exact hplace.1.2.1 rfl
  | tailFailed =>
    simp only [hpc] at hstep
    rw [hpc] at hheld hfinish
    unfold St.countError at hstep
    rw [(hheld id).touch_eq] at hstep
    rw [← Option.some.inj hstep]
    exact hfinish (hheld id) _ rfl rfl (show 4 < 7 by decide)
  | self =>
    simp only [hpc] at hstep
    rw [hpc] at hheld hstay
    rw [(hheld id).touch_eq] at hstep
    rw [← Option.some.inj hstep]
    exact hstay (hheld id) _ .inSelf rfl rfl (show 11 < 12 by decide)
  | inSelf =>
    simp only [hpc] at hstep
    rw [hpc] at hheld hstay
    rw [← Option.some.inj hstep]
    exact hstay (hheld id) _ .walk rfl rfl (show 10 < 11 by decide)
  | exhausted =>
    rw [hpc] at hheld
    have hplace := (hheld id).place
    rw [hpc] at hplace
    exact hplace.elim

theorem rank_step (h : Inv w s) {a : Action α} (hstep : reachStep w a s = some s') :
    rank w s' < rank w s := by
  unfold reachStep at hstep
  split at hstep
  · rename_i hgood
    cases a with
    | proc who written => exact h.rank_procStep hgood hstep
    | ending who written =>
      obtain ⟨core, hcore, rfl⟩ := Option.map_eq_some_iff.mp hstep
      have hlt := h.core.rank_endStep (nodup_participants w) hcore
      have hcur := (h.core.endStep (nodup_participants w) hcore).2.curThrIdx
      simp only [rank, hcur]
      omega
    | receive =>
      obtain ⟨core, hcore, rfl⟩ := Option.map_eq_some_iff.mp hstep
      have hlt := Core.rank_receive (nodup_participants w) hcore
      have hcur := (h.core.receive (nodup_participants w) hcore).2.curThrIdx
      simp only [rank, hcur]
      omega
  · cases hstep

theorem final (h : Inv w s) (hfinal : Final (OneByOne.step w) s) : Ended w s ∧ s.core.freed = true := by
  obtain ⟨hending, hqueue⟩ := Core.stuck
    (fun who => Option.map_eq_none_iff.mp (hfinal (.ending who true)))
    (Option.map_eq_none_iff.mp (hfinal .receive))
  -- the process that has the record can always move
  have hended : Ended w s := by
    rcases h.phase with ⟨who, hheld⟩ | hended
    · have hstuck : OneByOne.procStep w who true s = none := hfinal (.proc who true)
      have hplace := hheld.place
      unfold OneByOne.procStep at hstuck
      cases hpc : s.pc who with
      | idle | left | espipe | wait u =>
        rw [hpc] at hplace
        exact hplace.elim
      | exhausted =>
        rw [hpc] at hplace
        exact hplace.elim
      | _ => simp [hpc] at hstuck
    · exact hended
  refine ⟨hended, ?_⟩
  have htokens := hended.tokens
  have hover : total (processes (participants w)) Ending.holds s.core.ending = 0 := by
    apply total_eq_zero
    intro who _
    rw [hending who]
    rfl
  rw [Core.tokens, hover, hqueue] at htokens
  cases hfreed : s.core.freed with
  | true => rfl
  | false =>
    rw [hfreed] at htokens
    cases htokens

end Inv

/-! ## What is seen -/

/-- What is seen while a broadcast runs: the record is not used after it is freed; `msg_cb` is called
once at most on a thread, on one thread after the other, the caller last or first or not at all;
`done_cb` is called once at most, when the calls of `msg_cb` that it is given the number of returned,
and no work is seen after it. -/
structure Safe (w : Walk α) (log : List (Event α)) : Prop where
  fault : Event.fault ∉ log
  once : ∀ t, log.count (.call t) ≤ 1
  only : ∀ t, Event.call t ∈ log → t ∈ w.threads ∨ t = w.src
  turn : ∀ after t before, log = after ++ .call t :: before → Turn w before t
  skip : has w.flags selfSkip → Event.call w.src ∉ log
  done : log.countP Event.isDone ≤ 1
  free : log.count .free ≤ 1
  done_last : ∀ after before a b, log = after ++ .done a b :: before →
    before.countP Event.isCall = a ∧ before.countP Event.isRet = a ∧
      before.countP Event.isFailed = b ∧ ∀ e ∈ after, e.isWork = false

/-- What was seen of a broadcast that is over, with `records` records. -/
structure Complete (log : List (Event α)) (records : Nat) : Prop where
  calls : log.countP Event.isCall = log.countP Event.isRet
  done : log.countP Event.isDone = 1
  free : log.count .free = records

omit [DecidableEq α] in
theorem Turns.turn {w : Walk α} : ∀ {after before : List (Event α)} {t : α},
    Turns w (after ++ .call t :: before) → Turn w before t
  | [], _, t, h => h.2 t rfl
  | _ :: _, _, _, h => Turns.turn h.1

omit [DecidableEq α] in
theorem countP_append_of_not_work {p : Event α → Bool} (hp : ∀ e, p e → e.isWork)
    {after log : List (Event α)} (h : ∀ e ∈ after, e.isWork = false) :
    (after ++ log).countP p = log.countP p := by
  have hzero : after.countP p = 0 := by
    apply List.countP_eq_zero.mpr
    intro e he hpe
    have hwork := hp e hpe
    rw [h e he] at hwork
    cases hwork
  rw [List.countP_append, hzero, Nat.zero_add]

namespace Inv

variable {w : Walk α} {s : St α}

theorem safe (h : Inv w s) : Safe w s.core.log := by
  have htokens := h.core.tokens_le
  have hcalled := Core.Inv.called_le_holds (participants w) s.core.ending
  rw [Core.tokens] at htokens
  constructor
  case fault => exact h.core.fault
  case once => exact h.trace.once
  case only => exact h.trace.only
  case turn =>
    intro after t before hlog
    have hturns : Turns w (after ++ .call t :: before) := by
      rw [← hlog]
      exact h.trace.turns
    exact hturns.turn
  case skip => exact h.trace.skip
  case done =>
    have hdone := h.core.done
    omega
  case free =>
    have hfree := h.core.free
    omega
  case done_last =>
    intro after before a b hlog
    have hmem : Event.done a b ∈ s.core.log := by
      rw [hlog]
      exact List.mem_append_right _ List.mem_cons_self
    have hordered := h.core.ordered
    rw [hlog] at hordered
    have hafter := hordered.not_work rfl
    -- `done_cb` is not called while a process has the record
    have hended : Ended w s := by
      rcases h.phase with ⟨who, hheld⟩ | hended
      · have hnot : true = false := h.core.no_done hheld.tokens _ hmem
        cases hnot
      · exact hended
    have hcount : ∀ p : Event α → Bool, (∀ e, p e → e.isWork) →
        before.countP p = s.core.log.countP p := by
      intro p hp
      rw [hlog, countP_append_of_not_work hp hafter, List.countP_cons_of_neg]
      intro hdone
      cases hp _ hdone
    have hcalls := hcount Event.isCall (fun e he => by cases e <;> first | rfl | cases he)
    have hrets := hcount Event.isRet (fun e he => by cases e <;> first | rfl | cases he)
    have hfails := hcount Event.isFailed (fun e he => by cases e <;> first | rfl | cases he)
    obtain ⟨hsends, herrs⟩ := h.core.counts a b hmem
    refine ⟨?_, ?_, ?_, hafter⟩
    · rw [hcalls, hsends, hended.sends]
    · rw [hrets, hsends, hended.sends, hended.calls]
    · rw [hfails, herrs, hended.errors]

theorem complete (h : Inv w s) (hfinal : Final (OneByOne.step w) s) : Complete s.core.log 1 := by
  obtain ⟨hended, hfreed⟩ := h.final hfinal
  have hdone := h.core.done
  have hfree := h.core.free
  have hle := h.safe.done
  rw [hfreed, Bool.toNat_true] at hdone hfree
  exact ⟨hended.calls, by omega, hfree⟩

end Inv

theorem safe_of_done {w : Walk α} {log : List (Event α)} {a b : Nat} (htrace : Trace w log)
    (hfault : Event.fault ∉ log) (hfree : Event.free ∉ log) (hdone : log.countP Event.isDone = 0)
    (hcalls : log.countP Event.isCall = a) (hrets : log.countP Event.isRet = a)
    (hfails : log.countP Event.isFailed = b) :
    Safe w (.done a b :: log) ∧ Complete (.done a b :: log) 0 := by
  have htrace' : Trace w (.done a b :: log) := htrace.cons rfl
  have hone : (Event.done a b :: log).countP Event.isDone = 1 := by
    rw [List.countP_cons_of_pos rfl, hdone]
  have hnone : (Event.done a b :: log).count .free = 0 := by
    rw [List.count_cons_of_ne (by simp), List.count_eq_zero_of_not_mem hfree]
  refine ⟨⟨?_, htrace'.once, htrace'.only, ?_, htrace'.skip, by omega, by omega, ?_⟩, ?_, hone, hnone⟩
  · intro hmem
    exact hfault ((List.mem_cons.mp hmem).resolve_left (by simp))
  · intro after t before hlog
    have hturns : Turns w (after ++ .call t :: before) := by
      rw [← hlog]
      exact htrace'.turns
    exact hturns.turn
  · intro after before a' b' hlog
    cases after with
    | nil =>
      cases hlog
      exact ⟨hcalls, hrets, hfails, fun _ he => absurd he List.not_mem_nil⟩
    | cons e after =>
      -- there is one call of `done_cb` only
      have hmem : Event.done a' b' ∈ log := by
        rw [(List.cons.inj hlog).2]
        exact List.mem_append_right _ List.mem_cons_self
      exact absurd rfl (List.countP_eq_zero.mp hdone _ hmem)
  · have hc : (Event.done a b :: log).countP Event.isCall = a := by
      rw [List.countP_cons_of_neg (fun hcall => by cases hcall), hcalls]
    have hr : (Event.done a b :: log).countP Event.isRet = a := by
      rw [List.countP_cons_of_neg (fun hret => by cases hret), hrets]
    omega

theorem safe_single (w : Walk α) : Safe w (single w.toCall) ∧ Complete (single w.toCall) 0 := by
  have hnil : Trace w [] :=
    ⟨fun _ => Nat.zero_le 1, fun _ hmem => absurd hmem List.not_mem_nil, trivial,
      fun _ => List.not_mem_nil⟩
  unfold single
  by_cases hskip : has w.flags selfSkip = true
  · rw [if_pos hskip]
    exact safe_of_done hnil List.not_mem_nil List.not_mem_nil rfl rfl rfl rfl
  · rw [if_neg hskip]
    have hturn : Turn w [] w.src := ⟨rfl, fun _ => List.not_mem_nil, fun _ => .inl rfl⟩
    have hcall := hnil.call (t := w.src) List.not_mem_nil (.inr rfl) hturn (fun h => absurd h hskip)
    exact safe_of_done (hcall.cons rfl) (by simp) (by simp) rfl rfl rfl rfl

/-- A one by one broadcast whose first message reaches a thread, and whose caller's pool does not go on
behind the place of the caller: whatever the order of the steps and the results of the writes, what is
seen is safe, no error is returned, no schedule goes on for ever, and where it ends the broadcast is
complete.  A pool of one thread is complete at once. -/
theorem cbsend_oneByOne (w : Walk α) (hpool : PoolEnds w) (allocated : Bool) :
    (entry w.toCall allocated = .single → Safe w (single w.toCall) ∧ Complete (single w.toCall) 0) ∧
      ∀ first, start w allocated = some first → ∀ acts s, run (reachStep w) acts first = some s →
        Safe w s.core.log ∧ s.pc .sender ≠ .espipe ∧ acts.length ≤ 20 * bound w + 12 ∧
          (Final (step w) s → Complete s.core.log 1) := by
  refine ⟨fun _ => safe_single w, fun first hstart acts s hrun => ?_⟩
  have hfirst : init w = first := by
    unfold start at hstart
    split at hstart
    · exact Option.some.inj hstart
    · cases hstart
  rw [← hfirst] at hrun
  have hinv : Inv w s := run_invariant (fun _ _ _ h hstep => h.step hpool hstep) (inv_init w) hrun
  have hlength := run_length_le (fun _ _ _ h hstep => Inv.step hpool h hstep)
    (fun _ _ _ h hstep => Inv.rank_step h hstep) (inv_init w) hrun
  refine ⟨hinv.safe, ?_, ?_, hinv.complete⟩
  · intro hpc
    rcases hinv.quiet_or_held .sender with hquiet | hheld
    · rw [hpc] at hquiet
      exact hquiet
    · have hplace := hheld.place
      rw [hpc] at hplace
      exact hplace
  · have hover : total (processes (participants w)) Ending.rank (init w).core.ending = 0 :=
      total_eq_zero fun _ _ => rfl
    have hsender : Who.sender ∈ processes (participants w) := by simp [processes]
    have hidle : total (processes (participants w)) Pc.rank (fun _ => (.idle : Pc α)) = 0 :=
      total_eq_zero fun _ _ => rfl
    have hupd := total_update Pc.rank (fun _ => (.idle : Pc α))
      (if selfFirst w.flags then .self else .walk) (nodup_processes (nodup_participants w)) hsender
    have hle : (if selfFirst w.flags then (.self : Pc α) else .walk).rank ≤ 12 := by
      split
      · exact Nat.le_refl 12
      · exact show 10 ≤ 12 by decide
    have hrank : rank w (init w) ≤ 20 * bound w + 12 := by
      simp only [rank, init, Core.rank] at hover hupd ⊢
      rw [hover]
      rw [hidle, show (Pc.idle : Pc α).rank = 0 from rfl] at hupd
      omega
    omega

theorem nodup_two : [0, 1].Nodup := by decide

theorem length_two_lt : [0, 1].length < 2 ^ 64 := by decide

theorem twoThreads_pool {src : Nat} {srcPool : List Nat} (hpool : src ∈ [0, 1] → srcPool = [0, 1]) :
    ∀ t ∈ [0, 1], (if t = src then srcPool else [0, 1]) = [0, 1] := by
  intro t ht
  split
  · rename_i heq
    exact hpool (heq ▸ ht)
  · rfl

/-- Two threads and a caller, and the threads of the pool of the caller. -/
def twoThreads (src : Nat) (running : Nat → Bool) (srcPool : List Nat) (hrunning : running src = true)
    (hpool : src ∈ [0, 1] → srcPool = [0, 1]) : Walk Nat where
  threads := [0, 1]
  src := src
  flags := oneByOne
  running := running
  pool := fun t => if t = src then srcPool else [0, 1]
  nodup := nodup_two
  length_lt := length_two_lt
  src_running := hrunning
  pool_threads := twoThreads_pool hpool

/-- The caller is a thread of the pool. -/
def inside : Walk Nat := twoThreads 0 (fun _ => true) [0, 1] rfl (fun _ => rfl)

/-- `n` steps of a process; every write succeeds. -/
def steps (n : Nat) (who : Who Nat) : List (Action Nat) := List.replicate n (.proc who true)

/-- The sender, the other thread, the caller, and the end. -/
def insideRun : List (Action Nat) :=
  [steps 3 .sender, steps 6 (.proxy 1), steps 5 (.proxy 0),
    List.replicate 3 (.ending (.proxy 0) true)].flatten

theorem cbsend_oneByOne_inside :
    (∃ s, run (reachStep inside) insideRun (init inside) = some s ∧
        s.core.log = [.free, .done 2 0, .ret 0, .call 0, .sent 0, .ret 1, .call 1, .sent 1]) ∧
      (entry inside.toCall true = .single → Safe inside (single inside.toCall) ∧
        Complete (single inside.toCall) 0) ∧
      ∀ first, start inside true = some first → ∀ acts s, run (reachStep inside) acts first = some s →
        Safe inside s.core.log ∧ s.pc .sender ≠ .espipe ∧ acts.length ≤ 20 * bound inside + 12 ∧
          (Final (step inside) s → Complete s.core.log 1) := by
  refine ⟨?_, cbsend_oneByOne inside (fun _ u hu => ?_) true⟩
  · have hrun : (run (reachStep inside) insideRun (init inside)).map (·.core.log) =
        some [.free, .done 2 0, .ret 0, .call 0, .sent 0, .ret 1, .call 1, .sent 1] := by decide +kernel
    exact Option.map_eq_some_iff.mp hrun
  · exact absurd hu (by decide +revert)

/-- The other thread does not run. -/
def stopped : Walk Nat := twoThreads 0 (fun t => t = 0) [0, 1] rfl (fun _ => rfl)

/-- The caller is a thread of a larger pool. -/
def outside : Walk Nat := twoThreads 2 (fun _ => true) [2, 3, 4, 5] rfl (fun h => absurd h (by decide))

def outsideRun : List (Action Nat) :=
  [steps 2 .sender, steps 5 (.proxy 0), steps 6 (.proxy 1), steps 5 (.proxy 2), steps 1 (.proxy 5)].flatten

theorem start_eq {w : Walk α} {allocated : Bool} (h : entry w.toCall allocated = .oneByOne) :
    start w allocated = some (init w) := if_pos h

/-- With no other thread to reach, the caller is not tried, though it runs, and the record stays.  With
a caller from a larger pool, the walk goes on over that pool. -/
theorem cbsend_oneByOne_outside :
    (start stopped true = some (init stopped) ∧
      ∃ acts s, run (step stopped) acts (init stopped) = some s ∧ s.pc .sender = .espipe ∧
        stopped.running stopped.src = true ∧ has stopped.flags selfSkip = false ∧
        s.core.log = [.failed 1] ∧ s.core.freed = false) ∧
      start outside true = some (init outside) ∧
      ∃ acts s, run (step outside) acts (init outside) = some s ∧
        Event.call 5 ∈ s.core.log ∧ ¬ Safe outside s.core.log := by
  refine ⟨⟨start_eq (by decide), steps 6 .sender, ?_⟩, start_eq (by decide), outsideRun, ?_⟩
  · have hrun : ((run (step stopped) (steps 6 .sender) (init stopped)).map fun s =>
        (s.pc .sender, s.core.log, s.core.freed)) = some (.espipe, [.failed 1], false) := by decide +kernel
    obtain ⟨s, hs, heq⟩ := Option.map_eq_some_iff.mp hrun
    simp only [Prod.mk.injEq] at heq
    exact ⟨s, hs, heq.1, by decide, by decide, heq.2.1, heq.2.2⟩
  · have hrun : (run (step outside) outsideRun (init outside)).map (·.core.log) =
        some [.call 5, .sent 5, .ret 2, .call 2, .sent 2, .ret 1, .call 1, .sent 1, .ret 0, .call 0,
          .sent 0] := by decide +kernel
    obtain ⟨s, hs, hlog⟩ := Option.map_eq_some_iff.mp hrun
    have hmem : Event.call 5 ∈ s.core.log := by
      rw [hlog]
      exact List.mem_cons_self
    refine ⟨s, hs, hmem, fun hsafe => ?_⟩
    exact absurd (hsafe.only 5 hmem) (by decide)

end OneByOne

end Threadpool
