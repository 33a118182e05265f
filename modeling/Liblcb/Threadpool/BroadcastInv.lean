import Liblcb.Threadpool.Broadcast
import Liblcb.Threadpool.Ending

/-!
# The count of a broadcast

`active_thr_count` is the number of threads that are still owed to the broadcast: those the loop has
not come to, those that failed and are not subtracted yet, and those whose `msg_cb` is not over.
-/

namespace Threadpool

namespace Broadcast

open Transition

variable {α : Type} [DecidableEq α]

def Proxy.owes : Proxy → Nat
  | .pending | .inCb | .dec => 1
  | .idle | .left => 0

def Proxy.wasSent : Proxy → Nat
  | .idle => 0
  | _ => 1

/-- How often a message went to the thread, `msg_cb` was called on it, and returned. -/
def Proxy.seen : Proxy → Nat × Nat × Nat
  | .idle => (0, 0, 0)
  | .pending => (1, 0, 0)
  | .inCb => (1, 1, 0)
  | .dec | .left => (1, 1, 1)

def seen (log : List (Event α)) (t : α) : Nat × Nat × Nat :=
  (log.count (.sent t), log.count (.call t), log.count (.ret t))

theorem seen_cons_of_ne {e : Event α} {log : List (Event α)} {t x : α} (hx : x ≠ t)
    (he : e = .sent t ∨ e = .call t ∨ e = .ret t) : seen (e :: log) x = seen log x := by
  have hne := Ne.symm hx
  rcases he with rfl | rfl | rfl <;> simp [seen, hne]

theorem seen_update {e : Event α} {log : List (Event α)} {proxy : α → Proxy} {t : α} {p : Proxy}
    (h : ∀ x, seen log x = (proxy x).seen) (he : e = .sent t ∨ e = .call t ∨ e = .ret t)
    (hp : seen (e :: log) t = p.seen) (x : α) :
    seen (e :: log) x = (Function.update proxy t p x).seen := by
  by_cases hx : x = t
  · rw [hx, Function.update_self]
    exact hp
  · rw [Function.update_of_ne hx, seen_cons_of_ne hx he]
    exact h x

namespace Sender

/-- The threads without a result of `tpt_msg_send`. -/
def todo : Sender α → List α
  | .loop todo _ | .wait _ todo _ => todo
  | .send t todo _ | .failed t todo _ => t :: todo
  | _ => []

def owes : Sender α → Nat
  | .loop _ err | .send _ _ err | .wait _ _ err | .failed _ _ err | .joined err | .dec err _ => err
  | _ => 0

/-- Is `send_msg_cnt` a thread ahead? -/
def ahead : Sender α → Nat
  | .send _ _ _ | .failed _ _ _ => 1
  | _ => 0

def Knows (call : Call α) (proxy : α → Proxy) : Sender α → Prop
  | .send t _ _ | .failed t _ _ => isTarget call t
  | .wait t _ _ => t ∈ targets call ∧ proxy t ≠ .idle
  | .dec err _ => 0 < err
  | _ => True

end Sender

def owed (call : Call α) (s : St α) : Nat :=
  s.sender.todo.countP (isTarget call) + s.sender.owes + total (targets call) Proxy.owes s.proxy

structure Inv (call : Call α) (s : St α) : Prop where
  core : s.core.Inv (targets call)
  tokens : s.core.tokens (targets call) = if owed call s = 0 then 1 else 0
  active : s.core.activeThrCount = BitVec.ofNat 64 (owed call s)
  todo_nodup : s.sender.todo.Nodup
  todo_idle : ∀ t ∈ s.sender.todo, t ∈ call.threads ∧ s.proxy t = .idle
  knows : s.sender.Knows call s.proxy
  others : ∀ t, t ∉ targets call → s.proxy t = .idle
  sendMsgCnt : s.core.sendMsgCnt = total (targets call) Proxy.wasSent s.proxy + s.sender.ahead
  errorCnt : total (targets call) Proxy.wasSent s.proxy + s.core.errorCnt +
    s.sender.todo.countP (isTarget call) = (targets call).length
  owes_le : s.sender.owes ≤ s.core.errorCnt
  seen_eq : ∀ t, seen s.core.log t = (s.proxy t).seen

omit [DecidableEq α] in
theorem owes_le_wasSent (l : List α) (f : α → Proxy) :
    total l Proxy.owes f ≤ total l Proxy.wasSent f := by
  refine List.sum_le_sum ?_
  intro t _
  cases f t <;> decide

theorem nodup_targets (call : Call α) : (targets call).Nodup := call.nodup.filter _

theorem mem_targets {call : Call α} {t : α} (ht : t ∈ call.threads) (htarget : isTarget call t) :
    t ∈ targets call := List.mem_filter.mpr ⟨ht, htarget⟩

namespace Inv

variable {call : Call α} {s : St α}

theorem owed_lt (h : Inv call s) : owed call s < 2 ^ 64 := by
  have hle := owes_le_wasSent (targets call) s.proxy
  have herr := h.errorCnt
  have howes := h.owes_le
  have hlen : (targets call).length ≤ call.threads.length := List.length_filter_le _ _
  have hlt := call.length_lt
  unfold owed
  omega

theorem tokens_zero (h : Inv call s) (howed : 0 < owed call s) : s.core.tokens (targets call) = 0 := by
  rw [h.tokens, if_neg (by omega)]

theorem touch_eq (h : Inv call s) (howed : 0 < owed call s) : s.core.touch = s.core :=
  Core.touch_of_not_freed (Core.not_freed (h.tokens_zero howed))

theorem of_sender (h : Inv call s) (sender : Sender α) (htodo : sender.todo.Sublist s.sender.todo)
    (hcount : sender.todo.countP (isTarget call) = s.sender.todo.countP (isTarget call))
    (howes : sender.owes = s.sender.owes) (hahead : sender.ahead = s.sender.ahead)
    (hknows : sender.Knows call s.proxy) : Inv call { s with sender := sender } := by
  have howed : owed call { s with sender := sender } = owed call s := by
    simp only [owed, hcount, howes]
  constructor
  case core => exact h.core
  case tokens =>
    rw [howed]
    exact h.tokens
  case active =>
    rw [howed]
    exact h.active
  case todo_nodup => exact h.todo_nodup.sublist htodo
  case todo_idle => exact fun t ht => h.todo_idle t (htodo.subset ht)
  case knows => exact hknows
  case others => exact h.others
  case sendMsgCnt =>
    simp only [hahead]
    exact h.sendMsgCnt
  case errorCnt =>
    simp only [hcount]
    exact h.errorCnt
  case owes_le =>
    simp only [howes]
    exact h.owes_le
  case seen_eq => exact h.seen_eq

theorem of_core (h : Inv call s) {core : Core α}
    (hcore : core.Inv (targets call) ∧ core.tokens (targets call) = 1) (hframe : s.core.Frame core)
    (htokens : s.core.tokens (targets call) = 1) : Inv call { s with core := core } := by
  have howed : owed call s = 0 := by
    by_contra hne
    rw [h.tokens_zero (Nat.pos_of_ne_zero hne)] at htokens
    cases htokens
  constructor
  case core => exact hcore.1
  case tokens =>
    show core.tokens (targets call) = if owed call s = 0 then 1 else 0
    rw [hcore.2, if_pos howed]
  case active => exact hframe.activeThrCount.trans h.active
  case todo_nodup => exact h.todo_nodup
  case todo_idle => exact h.todo_idle
  case knows => exact h.knows
  case others => exact h.others
  case sendMsgCnt => exact hframe.sendMsgCnt.trans h.sendMsgCnt
  case errorCnt =>
    simp only [hframe.errorCnt]
    exact h.errorCnt
  case owes_le =>
    simp only [hframe.errorCnt]
    exact h.owes_le
  case seen_eq =>
    intro t
    rw [← h.seen_eq t]
    simp only [seen, hframe.count (.sent t) rfl, hframe.count (.call t) rfl,
      hframe.count (.ret t) rfl]

theorem of_write (h : Inv call s) (howed : 0 < owed call s) (send err : Nat) (sender : Sender α)
    (htodo : sender.todo.Sublist s.sender.todo)
    (hsame : sender.todo.countP (isTarget call) + sender.owes =
      s.sender.todo.countP (isTarget call) + s.sender.owes)
    (hsend : send = total (targets call) Proxy.wasSent s.proxy + sender.ahead)
    (herr : err + sender.todo.countP (isTarget call) =
      s.core.errorCnt + s.sender.todo.countP (isTarget call))
    (howes : sender.owes ≤ err) (hknows : sender.Knows call s.proxy) :
    Inv call { s with
      core := { s.core.touch with sendMsgCnt := send, errorCnt := err }
      sender := sender } := by
  have htokens := h.tokens_zero howed
  have hsame' : owed call { s with
      core := { s.core.touch with sendMsgCnt := send, errorCnt := err }
      sender := sender } = owed call s := by
    simp only [owed, hsame]
  rw [h.touch_eq howed] at hsame' ⊢
  constructor
  case core => exact h.core.write htokens s.core.activeThrCount s.core.curThrIdx send err
  case tokens =>
    rw [hsame']
    exact h.tokens
  case active =>
    rw [hsame']
    exact h.active
  case todo_nodup => exact h.todo_nodup.sublist htodo
  case todo_idle => exact fun t ht => h.todo_idle t (htodo.subset ht)
  case knows => exact hknows
  case others => exact h.others
  case sendMsgCnt => exact hsend
  case errorCnt =>
    have htotal := h.errorCnt
    simp only
    omega
  case owes_le => exact howes
  case seen_eq => exact h.seen_eq

/-- A message reached `t`. -/
theorem of_sent (h : Inv call s) {t : α} {todo : List α} {err : Nat}
    (hsender : s.sender = .send t todo err) (sender : Sender α) (htodo : sender.todo = todo)
    (howes : sender.owes = err) (hahead : sender.ahead = 0)
    (hknows : sender.Knows call (Function.update s.proxy t .pending)) :
    Inv call ⟨s.core.emit (.sent t), sender, Function.update s.proxy t .pending⟩ := by
  have hmem : t ∈ s.sender.todo := by
    rw [hsender]
    exact List.mem_cons_self
  rcases h.todo_idle t hmem with ⟨hthread, hidle⟩
  have hknow := h.knows
  rw [hsender] at hknow
  have ht : t ∈ targets call := mem_targets hthread hknow
  have hnodup := h.todo_nodup
  rw [hsender] at hnodup
  rcases List.nodup_cons.mp hnodup with ⟨hnot, hnodup⟩
  have hcount : s.sender.todo.countP (isTarget call) = todo.countP (isTarget call) + 1 := by
    rw [hsender]
    exact List.countP_cons_of_pos hknow
  have hupd := fun w => total_update w s.proxy .pending (nodup_targets call) ht
  have howe := hupd Proxy.owes
  have hsent := hupd Proxy.wasSent
  rw [hidle] at howe hsent
  simp only [Proxy.owes, Proxy.wasSent] at howe hsent
  have hown : s.sender.owes = err := by rw [hsender]; rfl
  have hah : s.sender.ahead = 1 := by rw [hsender]; rfl
  -- what the sender owed for `t` is now owed by the thread that has the message
  have hpos : 0 < owed call s := by
    unfold owed
    omega
  have hsame : owed call ⟨s.core.emit (.sent t), sender, Function.update s.proxy t .pending⟩ =
      owed call s := by
    simp only [owed, htodo, howes]
    omega
  constructor
  case core => exact h.core.emit (h.tokens_zero hpos) rfl
  case tokens =>
    rw [hsame]
    exact h.tokens
  case active =>
    rw [hsame]
    exact h.active
  case todo_nodup =>
    simp only [htodo]
    exact hnodup
  case todo_idle =>
    simp only [htodo]
    intro x hx
    have hne : x ≠ t := by
      rintro rfl
      exact hnot hx
    rw [Function.update_of_ne hne]
    refine h.todo_idle x ?_
    rw [hsender]
    exact List.mem_cons_of_mem t hx
  case knows => exact hknows
  case others =>
    intro x hx
    have hne : x ≠ t := by
      rintro rfl
      exact hx ht
    exact (Function.update_of_ne hne _ _).trans (h.others x hx)
  case sendMsgCnt =>
    have hcnt := h.sendMsgCnt
    simp only [Core.emit, hahead]
    omega
  case errorCnt =>
    have htotal := h.errorCnt
    simp only [Core.emit, htodo]
    omega
  case owes_le =>
    have hle := h.owes_le
    simp only [Core.emit, howes]
    omega
  case seen_eq =>
    refine seen_update h.seen_eq (.inl rfl) ?_
    have hbefore := h.seen_eq t
    rw [hidle] at hbefore
    simp only [seen, Proxy.seen, Prod.mk.injEq] at hbefore ⊢
    simp [hbefore]

theorem of_failed (h : Inv call s) {t : α} {todo : List α} {err : Nat}
    (hsender : s.sender = .send t todo err) :
    Inv call ⟨s.core.emit (.failed t), .failed t todo err, s.proxy⟩ := by
  have hknow := h.knows
  rw [hsender] at hknow
  have hpos : 0 < owed call s := by
    have hcount : 0 < s.sender.todo.countP (isTarget call) := by
      rw [hsender]
      exact List.countP_pos_iff.mpr ⟨t, List.mem_cons_self, hknow⟩
    unfold owed
    omega
  have h' := h.of_sender (.failed t todo err) (by rw [hsender]; exact List.Sublist.refl _)
    (by rw [hsender]; rfl) (by rw [hsender]; rfl) (by rw [hsender]; rfl) hknow
  constructor
  case core => exact h.core.emit (h.tokens_zero hpos) rfl
  case tokens => exact h'.tokens
  case active => exact h'.active
  case todo_nodup => exact h'.todo_nodup
  case todo_idle => exact h'.todo_idle
  case knows => exact h'.knows
  case others => exact h'.others
  case sendMsgCnt => exact h'.sendMsgCnt
  case errorCnt => exact h'.errorCnt
  case owes_le => exact h'.owes_le
  case seen_eq =>
    intro x
    rw [← h.seen_eq x]
    simp [seen, Core.emit]

theorem control_update (h : Inv call s) {t : α} {p : Proxy} (hidle : s.proxy t ≠ .idle)
    (hp : p ≠ .idle) :
    (∀ x ∈ s.sender.todo, x ∈ call.threads ∧ Function.update s.proxy t p x = .idle) ∧
      s.sender.Knows call (Function.update s.proxy t p) ∧
      ∀ x, x ∉ targets call → Function.update s.proxy t p x = .idle := by
  have hkeep : ∀ x, s.proxy x = .idle → Function.update s.proxy t p x = .idle := by
    intro x hx
    have hne : x ≠ t := by
      rintro rfl
      exact hidle hx
    rw [Function.update_of_ne hne]
    exact hx
  refine ⟨?_, ?_, fun x hx => hkeep x (h.others x hx)⟩
  · intro x hx
    exact ⟨(h.todo_idle x hx).1, hkeep x (h.todo_idle x hx).2⟩
  · have hknows := h.knows
    cases hsender : s.sender with
    | wait x todo err =>
      rw [hsender] at hknows
      refine ⟨hknows.1, ?_⟩
      by_cases hx : x = t
      · rw [hx, Function.update_self]
        exact hp
      · rw [Function.update_of_ne hx]
        exact hknows.2
    | _ =>
      rw [hsender] at hknows
      exact hknows

/-- `msg_cb` is called on `t`, or returns from it. -/
theorem of_callback (h : Inv call s) {t : α} {p : Proxy} {e : Event α} (hidle : s.proxy t ≠ .idle)
    (howes : (s.proxy t).owes = 1) (howes' : p.owes = 1) (hsent : p.wasSent = 1)
    (he : e = .call t ∨ e = .ret t) (hseen : seen (e :: s.core.log) t = p.seen) :
    Inv call ⟨s.core.touch.emit e, s.sender, Function.update s.proxy t p⟩ := by
  have ht : t ∈ targets call := not_not.mp fun hnot => hidle (h.others t hnot)
  have hupd := fun w => total_update w s.proxy p (nodup_targets call) ht
  have howe := hupd Proxy.owes
  have hwas := hupd Proxy.wasSent
  rw [howes, howes'] at howe
  have hbefore : (s.proxy t).wasSent = 1 := by
    cases hp : s.proxy t with
    | idle => exact absurd hp hidle
    | pending => rfl
    | inCb => rfl
    | dec => rfl
    | left => rfl
  rw [hbefore, hsent] at hwas
  have hpos : 0 < owed call s := by
    have := le_total ht Proxy.owes s.proxy
    unfold owed
    omega
  -- the thread owes its count before and after
  have hsame : owed call ⟨s.core.touch.emit e, s.sender, Function.update s.proxy t p⟩ = owed call s := by
    simp only [owed]
    omega
  rw [h.touch_eq hpos] at hsame ⊢
  have hwork : e.isWork := by
    rcases he with rfl | rfl
    · rfl
    · rfl
  have hne : p ≠ .idle := by
    rintro rfl
    cases hsent
  constructor
  case core => exact h.core.emit (h.tokens_zero hpos) hwork
  case tokens =>
    rw [hsame]
    exact h.tokens
  case active =>
    rw [hsame]
    exact h.active
  case todo_nodup => exact h.todo_nodup
  case todo_idle => exact (h.control_update hidle hne).1
  case knows => exact (h.control_update hidle hne).2.1
  case others => exact (h.control_update hidle hne).2.2
  case sendMsgCnt =>
    have hcnt := h.sendMsgCnt
    simp only [Core.emit]
    omega
  case errorCnt =>
    have htotal := h.errorCnt
    simp only [Core.emit]
    omega
  case owes_le => exact h.owes_le
  case seen_eq => exact seen_update h.seen_eq (.inr he) hseen

theorem of_dec (h : Inv call s) {who : Who α} (hwho : who ∈ processes (targets call)) {k : Nat}
    (hk : 0 < k) (sender : Sender α) (proxy : α → Proxy)
    (howed : owed call ⟨s.core.activeThrCountDec who k, sender, proxy⟩ + k = owed call s)
    (htodo : sender.todo = s.sender.todo) (hahead : sender.ahead = s.sender.ahead)
    (hsent : total (targets call) Proxy.wasSent proxy = total (targets call) Proxy.wasSent s.proxy)
    (howes : sender.owes ≤ s.sender.owes)
    (htodo_idle : ∀ x ∈ s.sender.todo, x ∈ call.threads ∧ proxy x = .idle)
    (hknows : sender.Knows call proxy) (hothers : ∀ x, x ∉ targets call → proxy x = .idle)
    (hseen : ∀ x, (proxy x).seen = (s.proxy x).seen) :
    Inv call ⟨s.core.activeThrCountDec who k, sender, proxy⟩ := by
  have hlt := h.owed_lt
  have hpos : 0 < owed call s := by omega
  have hactive := h.active
  rw [← howed] at hactive
  -- what the count does; the rest of the invariant says nothing of it
  rcases h.core.activeThrCountDec (nodup_targets call) (h.tokens_zero hpos) hwho hactive (by omega) with
    ⟨⟨hcore, htokens⟩, hcount, hsend, herr, hlog⟩
  constructor
  case core => exact hcore
  case tokens => exact htokens
  case active => exact hcount
  case todo_nodup =>
    simp only [htodo]
    exact h.todo_nodup
  case todo_idle =>
    simp only [htodo]
    exact htodo_idle
  case knows => exact hknows
  case others => exact hothers
  case sendMsgCnt =>
    simp only [hsend, hsent, hahead]
    exact h.sendMsgCnt
  case errorCnt =>
    simp only [herr, hsent, htodo]
    exact h.errorCnt
  case owes_le =>
    simp only [herr]
    exact Nat.le_trans howes h.owes_le
  case seen_eq =>
    intro x
    simp only [hlog]
    rw [h.seen_eq x, hseen x]

/-- The loop of the sender. -/
theorem senderStep (h : Inv call s) {written : Bool} {s' : St α}
    (hstep : senderStep call written s = some s') : Inv call s' := by
  unfold Broadcast.senderStep at hstep
  cases hsender : s.sender with
  | loop todo err =>
    cases todo with
    | nil =>
      simp only [hsender, Option.some.injEq] at hstep
      subst hstep
      exact h.of_sender _ (by rw [hsender]; exact List.Sublist.refl _) (by rw [hsender]; rfl)
        (by rw [hsender]; rfl) (by rw [hsender]; rfl) trivial
    | cons t todo =>
      simp only [hsender] at hstep
      -- the message is counted before it is sent
      by_cases htarget : isTarget call t = true
      · rw [if_pos htarget] at hstep
        have hs' := (Option.some.inj hstep).symm
        subst hs'
        have hpos : 0 < owed call s := by
          have hcount : 0 < s.sender.todo.countP (isTarget call) := by
            rw [hsender]
            exact List.countP_pos_iff.mpr ⟨t, List.mem_cons_self, htarget⟩
          unfold owed
          omega
        have hcnt := h.sendMsgCnt
        have hle := h.owes_le
        rw [hsender] at hcnt hle
        have hwrite := h.of_write hpos (s.core.sendMsgCnt + 1) s.core.errorCnt
          (.send t todo err) (by rw [hsender]; exact List.Sublist.refl _) (by rw [hsender]; rfl)
          (by rw [hcnt]; rfl) (by rw [hsender]; rfl) hle htarget
        rw [h.touch_eq hpos] at hwrite ⊢
        exact hwrite
      · rw [if_neg htarget] at hstep
        have hs' := (Option.some.inj hstep).symm
        subst hs'
        exact h.of_sender _ (by rw [hsender]; exact List.sublist_cons_self t todo)
          (by rw [hsender]; exact (List.countP_cons_of_neg htarget).symm) (by rw [hsender]; rfl)
          (by rw [hsender]; rfl) trivial
  | send t todo err =>
    simp only [hsender, Option.some.injEq] at hstep
    subst hstep
    unfold sendStep
    -- a direct call is waited for; a queued message is not, and a failed one is counted back
    have hknows : t ∈ targets call := by
      have hknow := h.knows
      rw [hsender] at hknow
      have hmem : t ∈ s.sender.todo := by
        rw [hsender]
        exact List.mem_cons_self
      exact mem_targets (h.todo_idle t hmem).1 hknow
    cases tptMsgSend call.running call.flags t call.src written with
    | direct =>
      refine h.of_sent hsender _ rfl rfl rfl ⟨hknows, ?_⟩
      rw [Function.update_self]
      decide
    | queued => exact h.of_sent hsender _ rfl rfl rfl trivial
    | failed => exact h.of_failed hsender
  | wait t todo err =>
    simp only [hsender] at hstep
    split at hstep
    · have hs' := (Option.some.inj hstep).symm
      subst hs'
      exact h.of_sender _ (by rw [hsender]; exact List.Sublist.refl _) (by rw [hsender]; rfl)
        (by rw [hsender]; rfl) (by rw [hsender]; rfl) trivial
    · cases hstep
  | failed t todo err =>
    simp only [hsender, Option.some.injEq] at hstep
    subst hstep
    have hknow := h.knows
    rw [hsender] at hknow
    have hcount : s.sender.todo.countP (isTarget call) = todo.countP (isTarget call) + 1 := by
      rw [hsender]
      exact List.countP_cons_of_pos hknow
    have hpos : 0 < owed call s := by
      unfold owed
      omega
    have hcnt := h.sendMsgCnt
    have hle := h.owes_le
    rw [hsender] at hcnt hle
    have hown : s.sender.owes = err := by rw [hsender]; rfl
    -- the thread leaves the list, and the error is one more that the sender owes
    refine h.of_write hpos _ _ (.loop todo (err + 1)) (by rw [hsender]; exact List.sublist_cons_self t todo)
      ?_ (by rw [hcnt]; rfl) ?_ (Nat.succ_le_succ hle) trivial
    · show todo.countP (isTarget call) + (err + 1) = _
      omega
    · show s.core.errorCnt + 1 + todo.countP (isTarget call) = _
      omega
  | joined err =>
    simp only [hsender] at hstep
    split at hstep
    -- no message failed, so nothing is taken off the count
    · rename_i hzero
      have hs' := (Option.some.inj hstep).symm
      subst hs'
      exact h.of_sender _ (by rw [hsender]; exact List.Sublist.refl _) (by rw [hsender]; rfl)
        (by rw [hsender, hzero]; rfl) (by rw [hsender]; rfl) trivial
    · rename_i hne
      have hs' := (Option.some.inj hstep).symm
      subst hs'
      have hpos : 0 < owed call s := by
        have hown : s.sender.owes = err := by rw [hsender]; rfl
        unfold owed
        omega
      rw [h.touch_eq hpos]
      exact h.of_sender _ (by rw [hsender]; exact List.Sublist.refl _) (by rw [hsender]; rfl)
        (by rw [hsender]; rfl) (by rw [hsender]; rfl) (Nat.pos_of_ne_zero hne)
  | dec err cnt =>
    simp only [hsender, Option.some.injEq] at hstep
    subst hstep
    have hknow := h.knows
    rw [hsender] at hknow
    refine h.of_dec (by simp [processes]) hknow (.counted cnt) s.proxy ?_ (by rw [hsender]; rfl)
      (by rw [hsender]; rfl) rfl (Nat.zero_le _) h.todo_idle trivial h.others (fun _ => rfl)
    have hown : s.sender.owes = err := by rw [hsender]; rfl
    have htodo : s.sender.todo = [] := by rw [hsender]; rfl
    rw [owed, owed, htodo, hown]
    show 0 + 0 + total (targets call) Proxy.owes s.proxy + err =
      0 + err + total (targets call) Proxy.owes s.proxy
    omega
  | counted cnt =>
    simp only [hsender] at hstep
    split at hstep
    · have hs' := (Option.some.inj hstep).symm
      subst hs'
      exact h.of_sender _ (by rw [hsender]; exact List.Sublist.refl _) (by rw [hsender]; rfl)
        (by rw [hsender]; rfl) (by rw [hsender]; rfl) trivial
    · cases hstep
  | returned error =>
    simp only [hsender] at hstep
    cases hstep

/-- `tpt_msg_sync_proxy_cb`. -/
theorem proxyStep (h : Inv call s) {t : α} {s' : St α} (hstep : proxyStep t s = some s') :
    Inv call s' := by
  unfold Broadcast.proxyStep at hstep
  have hseen := h.seen_eq t
  cases hp : s.proxy t with
  | idle =>
    rw [hp] at hstep
    cases hstep
  | left =>
    rw [hp] at hstep
    cases hstep
  | pending =>
    rw [hp] at hstep hseen
    simp only [Option.some.injEq] at hstep
    subst hstep
    refine h.of_callback (by rw [hp]; decide) (by rw [hp]; rfl) rfl rfl (.inl rfl) ?_
    simp only [seen, Proxy.seen, Prod.mk.injEq] at hseen ⊢
    simp [hseen]
  | inCb =>
    rw [hp] at hstep hseen
    simp only [Option.some.injEq] at hstep
    subst hstep
    have ht : t ∈ targets call := not_not.mp fun hnot => by
      rw [h.others t hnot] at hp
      cases hp
    have hpos : 0 < owed call s := by
      have hle := le_total ht Proxy.owes s.proxy
      rw [hp] at hle
      simp only [Proxy.owes] at hle
      unfold owed
      omega
    have hback := h.of_callback (p := .dec) (by rw [hp]; decide) (by rw [hp]; rfl) rfl rfl (.inr rfl)
      (by
        simp only [seen, Proxy.seen, Prod.mk.injEq] at hseen ⊢
        simp [hseen])
    rw [h.touch_eq hpos] at hback
    exact hback
  | dec =>
    rw [hp] at hstep
    simp only [Option.some.injEq] at hstep
    subst hstep
    have hidle : s.proxy t ≠ .idle := by
      rw [hp]
      decide
    have ht : t ∈ targets call := not_not.mp fun hnot => hidle (h.others t hnot)
    have howe := total_update Proxy.owes s.proxy .left (nodup_targets call) ht
    have hwas := total_update Proxy.wasSent s.proxy .left (nodup_targets call) ht
    rw [hp] at howe hwas
    simp only [Proxy.owes, Proxy.wasSent] at howe hwas
    rcases h.control_update (p := .left) hidle (by decide) with ⟨hidles, hknows, hothers⟩
    refine h.of_dec (by simp [processes, ht]) (by decide) s.sender _ ?_ rfl rfl (by omega)
      (Nat.le_refl _) hidles hknows hothers ?_
    · simp only [owed]
      omega
    · intro x
      by_cases hx : x = t
      · rw [hx, Function.update_self, hp]
        rfl
      · rw [Function.update_of_ne hx]

theorem step (h : Inv call s) {a : Action α} {s' : St α} (hstep : step call a s = some s') :
    Inv call s' := by
  cases a with
  | sender written => exact h.senderStep hstep
  | proxy t => exact h.proxyStep hstep
  | ending who written =>
    rcases Option.map_eq_some_iff.mp hstep with ⟨core, hcore, rfl⟩
    rcases h.core.endStep (nodup_targets call) hcore with ⟨hinv, hframe⟩
    refine h.of_core hinv hframe ?_
    rcases h.core.holds_of_ne (h.core.endStep_cases hcore).1 with ⟨hholds, hqueue, hfreed⟩
    rw [Core.tokens, hholds, hqueue, hfreed]
    rfl
  | receive =>
    rcases Option.map_eq_some_iff.mp hstep with ⟨core, hcore, rfl⟩
    rcases h.core.receive (nodup_targets call) hcore with ⟨hinv, hframe⟩
    refine h.of_core hinv hframe ?_
    unfold Core.receive at hcore
    split at hcore
    · rename_i hcond
      have hle := h.core.tokens_le
      have hqueue := Nat.pos_of_ne_zero hcond.2
      have hge : 1 ≤ s.core.tokens (targets call) := by
        unfold Core.tokens
        omega
      omega
    · cases hcore

end Inv

/-! ## The first state -/

theorem length_targets {call : Call α} (hsrc : has call.flags selfSkip → call.src ∈ call.threads) :
    (targets call).length + (if has call.flags selfSkip then 1 else 0) = call.threads.length := by
  by_cases hskip : has call.flags selfSkip = true
  · rw [if_pos hskip]
    have heq : targets call = call.threads.erase call.src := by
      rw [call.nodup.erase_eq_filter]
      refine List.filter_congr ?_
      intro t _
      rw [isTarget, hskip, bne, beq_eq_decide]
      simp
    have hpos := List.length_pos_of_mem (hsrc hskip)
    rw [heq, List.length_erase_of_mem (hsrc hskip)]
    omega
  · rw [if_neg hskip]
    have heq : targets call = call.threads := by
      refine List.filter_eq_self.mpr ?_
      intro t _
      simp [isTarget, hskip]
    rw [heq, Nat.add_zero]

theorem inv_init {call : Call α} (htwo : 2 ≤ call.threads.length)
    (hsrc : has call.flags selfSkip → call.src ∈ call.threads) : Inv call (init call) := by
  have hlength := length_targets hsrc
  have hover : ∀ w : Ending → Nat, w .over = 0 →
      total (processes (targets call)) w (fun _ => .over) = 0 := fun w hw => total_eq_zero fun _ _ => hw
  have hidle : ∀ w : Proxy → Nat, w .idle = 0 → total (targets call) w (fun _ => .idle) = 0 :=
    fun w hw => total_eq_zero fun _ _ => hw
  -- nobody has been sent to yet, so every target is owed
  have howed : owed call (init call) = (targets call).length := by
    simp only [owed, init, Sender.todo, Sender.owes, hidle Proxy.owes rfl]
    rw [targets, ← List.countP_eq_length_filter]
    rfl
  have hone : (targets call).length ≠ 0 := by
    split at hlength <;> omega
  constructor
  case core =>
    constructor
    case tokens_le =>
      simp only [Core.tokens, init, hover Ending.holds rfl]
      decide
    case others => exact fun _ _ => rfl
    case done =>
      simp only [init, hover Ending.called rfl]
      rfl
    case free => rfl
    case fault => exact List.not_mem_nil
    case counts => exact fun _ _ hmem => absurd hmem List.not_mem_nil
    case ordered => trivial
  case tokens =>
    rw [howed, if_neg hone]
    simp only [Core.tokens, init, hover Ending.holds rfl]
    rfl
  case active =>
    rw [howed]
    have hlt := call.length_lt
    simp only [init]
    rw [← hlength]
    split
    · rw [BitVec.ofNat_add]
      exact BitVec.add_sub_cancel _ _
    · rw [Nat.add_zero]
      exact BitVec.sub_zero _
  case todo_nodup => exact call.nodup
  case todo_idle => exact fun t ht => ⟨ht, rfl⟩
  case knows => trivial
  case others => exact fun _ _ => rfl
  case sendMsgCnt =>
    simp only [init, hidle Proxy.wasSent rfl]
    rfl
  case errorCnt =>
    simp only [init, hidle Proxy.wasSent rfl, Sender.todo]
    rw [targets, ← List.countP_eq_length_filter]
    omega
  case owes_le => exact Nat.le_refl 0
  case seen_eq => exact fun _ => rfl

end Broadcast

end Threadpool
