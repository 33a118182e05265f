import Liblcb.Threadpool.Bsend

/-!
# The count of a synchronous broadcast

`active_thr_count` is the number of threads that are still owed to the broadcast, and only the holder
of the lock reads or writes it.  When the caller has read zero under the lock, no receiver is between
its lock and its unlock, and none will be: what is left is the read of `done_cb`.
-/

namespace Threadpool

namespace Bsend

open Transition

variable {α : Type} [DecidableEq α]

/-! ## What a process owes and holds -/

def Dec.owes : Dec → Bool
  | .lock | .load | .store _ => true
  | _ => false

/-- Is it between the lock and the unlock? -/
def Dec.inside : Dec → Bool
  | .load | .store _ | .reload | .unlock _ => true
  | _ => false

def Proxy.owes : Proxy → Nat
  | .idle => 0
  | .dec d => d.owes.toNat
  | _ => 1

def Proxy.inside : Proxy → Bool
  | .dec d => d.inside
  | _ => false

def Proxy.wasSent : Proxy → Nat
  | .idle => 0
  | _ => 1

/-- How often a message went to the thread, `msg_cb` was called on it, and returned. -/
def Proxy.seen : Proxy → Nat × Nat × Nat
  | .idle => (0, 0, 0)
  | .queued | .readCb | .readUdata => (1, 0, 0)
  | .inCb => (1, 1, 0)
  | .dec _ => (1, 1, 1)

/-- Nothing is left but the read of `done_cb`. -/
def Proxy.AtRest (p : Proxy) : Prop := p = .idle ∨ p = .dec .look ∨ ∃ tm, p = .dec (.over tm)

theorem Proxy.AtRest.owes {p : Proxy} (h : p.AtRest) : p.owes = 0 := by
  rcases h with rfl | rfl | ⟨tm, rfl⟩
  · rfl
  · rfl
  · rfl

theorem Proxy.AtRest.inside {p : Proxy} (h : p.AtRest) : p.inside = false := by
  rcases h with rfl | rfl | ⟨tm, rfl⟩
  · rfl
  · rfl
  · rfl

def Proxy.Gone (p : Proxy) : Prop := p = .idle ∨ ∃ tm, p = .dec (.over tm)

namespace Sender

/-- The threads without a result of `tpt_msg_send`. -/
def todo : Sender α → List α
  | .loop todo _ | .wait _ todo _ => todo
  | .send t todo _ | .failed t todo _ => t :: todo
  | _ => []

def owes : Sender α → Nat
  | .loop _ err | .send _ _ err | .wait _ _ err | .failed _ _ err => err
  | .dec err d => if d.owes then err else 0
  | _ => 0

/-- Is `send_msg_cnt` a thread ahead? -/
def ahead : Sender α → Nat
  | .send _ _ _ | .failed _ _ _ => 1
  | _ => 0

def inside : Sender α → Bool
  | .dec _ d => d.inside
  | .poll .reload | .poll (.unlock _) => true
  | _ => false

def AtRest : Sender α → Prop
  | .dec _ .look | .finish | .returned _ _ _ => True
  | .dec _ (.over tm) => tm = 0
  | _ => False

def Knows (call : Call α) (s : St α) : Sender α → Prop
  | .single | .singleCb => False
  | .send t _ _ | .failed t _ _ => isTarget call t
  | .wait t _ _ => t ∈ targets call ∧ s.proxy t ≠ .idle
  | .dec _ (.store v) => v = s.activeThrCount
  | .dec _ (.unlock tm) | .poll (.unlock tm) => tm = s.activeThrCount
  | .returned error sendMsgCnt errorCnt => error = (if sendMsgCnt = 0 then some .espipe else none) ∧
      sendMsgCnt = s.sendMsgCnt ∧ errorCnt = s.errorCnt
  | _ => True

end Sender

/-- Is the process between the lock and the unlock? -/
def St.inside (s : St α) : Who α → Bool
  | .sender => s.sender.inside
  | .proxy t => (s.proxy t).inside
  | .caller => false

def owed (call : Call α) (s : St α) : Nat :=
  s.sender.todo.countP (isTarget call) + s.sender.owes + total (targets call) Proxy.owes s.proxy

structure Inv (call : Call α) (s : St α) : Prop where
  active : s.activeThrCount = BitVec.ofNat 64 (owed call s)
  holder : ∀ who, s.inside who = true → s.holder = some who
  stored : ∀ t v, s.proxy t = .dec (.store v) → v = s.activeThrCount
  todo_nodup : s.sender.todo.Nodup
  todo_idle : ∀ t ∈ s.sender.todo, t ∈ call.threads ∧ s.proxy t = .idle
  knows : s.sender.Knows call s
  others : ∀ t, t ∉ targets call → s.proxy t = .idle
  sendMsgCnt : s.sendMsgCnt = total (targets call) Proxy.wasSent s.proxy + s.sender.ahead
  errorCnt : total (targets call) Proxy.wasSent s.proxy + s.errorCnt +
    s.sender.todo.countP (isTarget call) = (targets call).length
  owes_le : s.sender.owes ≤ s.errorCnt
  seen_eq : ∀ t, Broadcast.seen s.log t = (s.proxy t).seen
  rest : s.sender.AtRest → ∀ t, (s.proxy t).AtRest
  gone : s.hasReturned → ∀ t, (s.proxy t).Gone
  fault : Event.fault ∉ s.log

omit [DecidableEq α] in
theorem owes_le_wasSent (l : List α) (f : α → Proxy) :
    total l Proxy.owes f ≤ total l Proxy.wasSent f := by
  apply List.sum_le_sum
  intro t _
  cases f t with
  | dec d => exact Bool.toNat_le d.owes
  | _ => decide

theorem nodup_targets (call : Call α) : (targets call).Nodup := call.nodup.filter _

theorem mem_targets {call : Call α} {t : α} (ht : t ∈ call.threads) (htarget : isTarget call t) :
    t ∈ targets call := List.mem_filter.mpr ⟨ht, htarget⟩

namespace Inv

variable {call : Call α} {s : St α}

theorem owed_lt (h : Inv call s) : owed call s < 2 ^ 64 := by
  have hle := owes_le_wasSent (targets call) s.proxy
  have herr := h.errorCnt
  have howes := h.owes_le
  have hlen : (targets call).length ≤ call.threads.length := List.length_filter_le _ _
  have hlt := call.length_lt
  unfold owed
  omega

theorem owed_eq_zero (h : Inv call s) (hzero : s.activeThrCount = 0) : owed call s = 0 := by
  have hactive := congrArg BitVec.toNat h.active
  rw [hzero, BitVec.toNat_ofNat, Nat.mod_eq_of_lt h.owed_lt] at hactive
  exact hactive.symm

theorem mem_of_ne_idle (h : Inv call s) {t : α} (ht : s.proxy t ≠ .idle) : t ∈ targets call :=
  not_not.mp fun hnot => ht (h.others t hnot)

theorem not_inside (h : Inv call s) (who : Who α) {other : Who α} (hwho : s.inside who = true)
    (hne : other ≠ who) : s.inside other = false := by
  apply Bool.eq_false_of_not_eq_true
  intro hother
  have hsame := (h.holder other hother).symm.trans (h.holder who hwho)
  exact hne (Option.some.inj hsame)

theorem atRest_of_owed (h : Inv call s) (howed : owed call s = 0) {t : α}
    (hin : (s.proxy t).inside = false) : (s.proxy t).AtRest := by
  by_cases hidle : s.proxy t = .idle
  · exact .inl hidle
  have hle := le_total (h.mem_of_ne_idle hidle) Proxy.owes s.proxy
  unfold owed at howed
  have hzero : (s.proxy t).owes = 0 := by omega
  cases hp : s.proxy t with
  | dec d =>
    rw [hp] at hzero hin
    cases d with
    | look => exact .inr (.inl rfl)
    | «over» tm => exact .inr (.inr ⟨tm, rfl⟩)
    | lock => cases hzero
    | load => cases hin
    | store v => cases hin
    | reload => cases hin
    | unlock tm => cases hin
  | idle => exact absurd hp hidle
  | _ =>
    rw [hp] at hzero
    cases hzero

omit [DecidableEq α] in
theorem touch_eq (hreturned : s.hasReturned = false) : s.touch = s := by
  rw [St.touch, hreturned]
  rfl

/-- A thread moves that was sent to.  Only the holder of the lock changes the count, by what it pays
off. -/
theorem of_proxy (h : Inv call s) (hreturned : s.hasReturned = false) {t : α} {p : Proxy} {k : Nat}
    {holder : Option (Who α)} {log : List (Event α)} (hidle : s.proxy t ≠ .idle) (hp : p ≠ .idle)
    (howes : (s.proxy t).owes = p.owes + k) (hk : k = 0 ∨ (s.proxy t).inside = true)
    (hinside : p.inside = true → holder = some (.proxy t))
    (hkeep : ∀ who, who ≠ .proxy t → s.inside who = true → holder = some who)
    (hstore : ∀ v, p = .dec (.store v) → v = s.activeThrCount - BitVec.ofNat 64 k)
    (hrest : (s.proxy t).owes = 0 → (s.proxy t).inside = false → p.AtRest)
    (hseen : ∀ x, Broadcast.seen log x = (Function.update s.proxy t p x).seen)
    (hfault : Event.fault ∉ log) :
    Inv call { s with
      activeThrCount := s.activeThrCount - BitVec.ofNat 64 k
      holder := holder
      proxy := Function.update s.proxy t p
      log := log } := by
  have ht := h.mem_of_ne_idle hidle
  have hupd := fun w => total_update w s.proxy p (nodup_targets call) ht
  have howe := hupd Proxy.owes
  have hwas := hupd Proxy.wasSent
  have hsent : ∀ q : Proxy, q ≠ .idle → q.wasSent = 1 := by
    intro q hq
    cases q with
    | idle => exact absurd rfl hq
    | _ => rfl
  rw [hsent _ hidle, hsent _ hp] at hwas
  have hother : ∀ x, x ≠ t → Function.update s.proxy t p x = s.proxy x :=
    fun x hx => Function.update_of_ne hx p s.proxy
  -- another process inside the lock rules out a change of the count
  have hsame : ∀ who, who ≠ .proxy t → s.inside who = true →
      s.activeThrCount - BitVec.ofNat 64 k = s.activeThrCount := by
    intro who hne hin
    rcases hk with rfl | hin'
    · exact BitVec.sub_zero _
    · have hout := h.not_inside (.proxy t) hin' hne
      rw [hin] at hout
      cases hout
  have hsender : ∀ v, s.sender.inside = true → v = s.activeThrCount →
      v = s.activeThrCount - BitVec.ofNat 64 k := by
    intro v hin hv
    rw [hv]
    exact (hsame .sender (fun h => nomatch h) hin).symm
  constructor
  case active =>
    have howed : owed call s = owed call { s with proxy := Function.update s.proxy t p } + k := by
      simp only [owed]
      omega
    rw [h.active, howed, BitVec.ofNat_add]
    exact BitVec.add_sub_cancel _ _
  case holder =>
    intro who hin
    cases who with
    | sender => exact hkeep .sender (fun h => nomatch h) hin
    | caller => cases hin
    | proxy x =>
      by_cases hx : x = t
      · subst hx
        simp only [St.inside, Function.update_self] at hin
        exact hinside hin
      · simp only [St.inside, hother x hx] at hin
        exact hkeep (.proxy x) (fun h => hx (Who.proxy.inj h)) hin
  case stored =>
    intro x v hx
    by_cases hxt : x = t
    · subst hxt
      simp only [Function.update_self] at hx
      exact hstore v hx
    · simp only [hother x hxt] at hx
      have hin : s.inside (.proxy x) = true := by
        simp only [St.inside, hx]
        rfl
      rw [h.stored x v hx]
      exact (hsame (.proxy x) (fun h => hxt (Who.proxy.inj h)) hin).symm
  case todo_nodup => exact h.todo_nodup
  case todo_idle =>
    intro x hx
    have hold := h.todo_idle x hx
    have hne : x ≠ t := by
      rintro rfl
      exact hidle hold.2
    exact ⟨hold.1, (hother x hne).trans hold.2⟩
  case knows =>
    have hknows := h.knows
    cases hs : s.sender with
    | wait x todo err =>
      rw [hs] at hknows
      refine ⟨hknows.1, ?_⟩
      by_cases hx : x = t
      · rw [hx]
        simpa using hp
      · simpa [hother x hx] using hknows.2
    | dec err d =>
      rw [hs] at hknows
      cases d with
      | store v => exact hsender v (by rw [hs]; rfl) hknows
      | unlock tm => exact hsender tm (by rw [hs]; rfl) hknows
      | _ => trivial
    | poll q =>
      rw [hs] at hknows
      cases q with
      | unlock tm => exact hsender tm (by rw [hs]; rfl) hknows
      | _ => trivial
    | _ =>
      rw [hs] at hknows
      exact hknows
  case others =>
    intro x hx
    have hne : x ≠ t := by
      rintro rfl
      exact hx ht
    exact (hother x hne).trans (h.others x hx)
  case sendMsgCnt =>
    have hcnt := h.sendMsgCnt
    simp only
    omega
  case errorCnt =>
    have htotal := h.errorCnt
    simp only
    omega
  case owes_le => exact h.owes_le
  case seen_eq => exact hseen
  case rest =>
    intro hr x
    by_cases hx : x = t
    · rw [hx]
      simpa using hrest (h.rest hr t).owes (h.rest hr t).inside
    · simpa [hother x hx] using h.rest hr x
  case gone =>
    intro hr
    exact absurd (hreturned.symm.trans hr) Bool.false_ne_true
  case fault => exact hfault

theorem of_proxy_same (h : Inv call s) (hreturned : s.hasReturned = false) {t : α} {p : Proxy}
    {holder : Option (Who α)} {log : List (Event α)} (hidle : s.proxy t ≠ .idle) (hp : p ≠ .idle)
    (howes : (s.proxy t).owes = p.owes)
    (hinside : p.inside = true → holder = some (.proxy t))
    (hkeep : ∀ who, who ≠ .proxy t → s.inside who = true → holder = some who)
    (hstore : ∀ v, p = .dec (.store v) → v = s.activeThrCount)
    (hrest : (s.proxy t).owes = 0 → (s.proxy t).inside = false → p.AtRest)
    (hseen : ∀ x, Broadcast.seen log x = (Function.update s.proxy t p x).seen)
    (hfault : Event.fault ∉ log) :
    Inv call { s with holder := holder, proxy := Function.update s.proxy t p, log := log } := by
  have hzero : s.activeThrCount - BitVec.ofNat 64 0 = s.activeThrCount := BitVec.sub_zero _
  have hmove := h.of_proxy (k := 0) hreturned hidle hp howes (.inl rfl) hinside hkeep
    (by rwa [hzero]) hrest hseen hfault
  rwa [hzero] at hmove

theorem seen_same (h : Inv call s) {t : α} {p : Proxy} (hp : p.seen = (s.proxy t).seen) (x : α) :
    Broadcast.seen s.log x = (Function.update s.proxy t p x).seen := by
  by_cases hx : x = t
  · rw [hx, Function.update_self, hp]
    exact h.seen_eq t
  · rw [Function.update_of_ne hx]
    exact h.seen_eq x

theorem seen_event (h : Inv call s) {e : Event α} {t : α} {p : Proxy}
    (he : e = .sent t ∨ e = .call t ∨ e = .ret t) (hp : Broadcast.seen (e :: s.log) t = p.seen)
    (x : α) : Broadcast.seen (e :: s.log) x = (Function.update s.proxy t p x).seen := by
  by_cases hx : x = t
  · rw [hx, Function.update_self]
    exact hp
  · rw [Function.update_of_ne hx, Broadcast.seen_cons_of_ne hx he]
    exact h.seen_eq x

theorem fault_cons (h : Inv call s) {e : Event α} (he : e ≠ .fault) : Event.fault ∉ e :: s.log := by
  rw [List.mem_cons, not_or]
  exact ⟨he.symm, h.fault⟩

theorem not_returned (h : Inv call s) {t : α} {s' : St α}
    (hstep : Bsend.proxyStep call t s = some s') : s.hasReturned = false := by
  apply Bool.eq_false_of_not_eq_true
  intro hreturned
  unfold Bsend.proxyStep at hstep
  rcases h.gone hreturned t with hp | ⟨tm, hp⟩
  · rw [hp] at hstep
    cases hstep
  · rw [hp] at hstep
    cases hstep

/-- A step of a receiver in `tpt_msg_active_thr_count_dec`. -/
theorem decStep (h : Inv call s) (hreturned : s.hasReturned = false) {t : α} {d d' : Dec} {u : St α}
    (hp : s.proxy t = .dec d) (hstep : Bsend.decStep (.proxy t) 1 s d = some (d', u)) :
    Inv call { u with proxy := Function.update s.proxy t (.dec d') } := by
  have hidle : s.proxy t ≠ .idle := by
    rw [hp]
    exact fun h => nomatch h
  have hseen : ∀ x, Broadcast.seen s.log x = (Function.update s.proxy t (.dec d') x).seen :=
    h.seen_same (by rw [hp]; rfl)
  have htouch := touch_eq hreturned
  -- outside of the lock the holder is another process, or there is none
  have hheld : ∀ who, who ≠ .proxy t → s.inside who = true → s.holder = some who :=
    fun who _ hin => h.holder who hin
  have hmine : d.inside = true → s.holder = some (.proxy t) := by
    intro hin
    apply h.holder
    simp only [St.inside, hp]
    exact hin
  have halone : d.inside = true → ∀ who, who ≠ .proxy t → s.inside who = true →
      ∀ holder : Option (Who α), holder = some who := by
    intro hin who hne hwho
    have hsame := (h.holder who hwho).symm.trans (hmine hin)
    exact absurd (Option.some.inj hsame) hne
  cases d with
  | lock =>
    simp only [Bsend.decStep] at hstep
    split at hstep
    · rename_i hfree
      cases hstep
      rw [htouch]
      refine h.of_proxy_same hreturned hidle (fun h => nomatch h) (by rw [hp]; rfl) (fun _ => rfl) ?_
        (fun v hv => nomatch hv) ?_ hseen h.fault
      · intro who hne hin
        rw [h.holder who hin] at hfree
        cases hfree
      · rw [hp]
        exact fun howes => nomatch howes
    · cases hstep
  | load =>
    cases hstep
    rw [htouch]
    refine h.of_proxy_same hreturned hidle (fun h => nomatch h) (by rw [hp]; rfl)
      (fun _ => hmine rfl) hheld ?_ ?_ hseen h.fault
    · intro v hv
      cases hv
      rfl
    · rw [hp]
      exact fun howes => nomatch howes
  | store v =>
    cases hstep
    rw [htouch, h.stored t v hp]
    refine h.of_proxy hreturned (k := 1) hidle (fun h => nomatch h) (by rw [hp]; rfl)
      (.inr (by rw [hp]; rfl)) (fun _ => hmine rfl) hheld (fun v hv => nomatch hv) ?_ hseen h.fault
    rw [hp]
    exact fun howes => nomatch howes
  | reload =>
    cases hstep
    rw [htouch]
    refine h.of_proxy_same hreturned hidle (fun h => nomatch h) (by rw [hp]; rfl)
      (fun _ => hmine rfl) hheld (fun v hv => nomatch hv) ?_ hseen h.fault
    rw [hp]
    exact fun _ hin => nomatch hin
  | unlock tm =>
    cases hstep
    rw [htouch]
    refine h.of_proxy_same hreturned hidle (fun h => nomatch h) ?_ ?_
      (fun who hne hin => halone rfl who hne hin _) ?_ ?_ hseen h.fault
    · rw [hp]
      split <;> rfl
    · intro hin
      split at hin <;> cases hin
    · intro v hv
      split at hv <;> cases hv
    · intro _ _
      by_cases htm : tm = 0
      · rw [if_pos htm]
        exact .inr (.inl rfl)
      · rw [if_neg htm]
        exact .inr (.inr ⟨tm, rfl⟩)
  | look =>
    cases hstep
    rw [htouch]
    exact h.of_proxy_same hreturned hidle (fun h => nomatch h) (by rw [hp]; rfl)
      (fun hin => nomatch hin) hheld (fun v hv => nomatch hv) (fun _ _ => .inr (.inr ⟨0, rfl⟩)) hseen
      h.fault
  | «over» tm => cases hstep

/-- `tpt_msg_sync_proxy_cb`. -/
theorem proxyStep (h : Inv call s) {t : α} {s' : St α}
    (hstep : Bsend.proxyStep call t s = some s') : Inv call s' := by
  have hreturned := h.not_returned hstep
  have htouch := touch_eq hreturned
  have hkeep : ∀ who, who ≠ .proxy t → s.inside who = true → s.holder = some who :=
    fun who _ hin => h.holder who hin
  have hseen := h.seen_eq t
  unfold Bsend.proxyStep at hstep
  cases hp : s.proxy t with
  | idle =>
    rw [hp] at hstep
    cases hstep
  | queued =>
    simp only [hp] at hstep
    split at hstep
    · cases hstep
    · cases hstep
      -- up to its call-back the thread owes what it owed, and holds nothing
      refine h.of_proxy_same hreturned (by rw [hp]; exact fun h => by cases h) (fun h => by cases h)
        (by rw [hp]; rfl) (fun hin => by cases hin) hkeep (fun v hv => by cases hv) ?_
        (h.seen_same (by rw [hp]; rfl)) h.fault
      rw [hp]
      exact fun howes => by cases howes
  | readCb =>
    simp only [hp, htouch] at hstep
    cases hstep
    refine h.of_proxy_same hreturned (by rw [hp]; exact fun h => by cases h) (fun h => by cases h)
      (by rw [hp]; rfl) (fun hin => by cases hin) hkeep (fun v hv => by cases hv) ?_
      (h.seen_same (by rw [hp]; rfl)) h.fault
    rw [hp]
    exact fun howes => by cases howes
  | readUdata =>
    simp only [hp, htouch] at hstep
    cases hstep
    refine h.of_proxy_same hreturned (by rw [hp]; exact fun h => by cases h) (fun h => by cases h)
      (by rw [hp]; rfl) (fun hin => by cases hin) hkeep (fun v hv => by cases hv) ?_
      (h.seen_event (.inr (.inl rfl)) ?_) ?_
    · rw [hp]
      exact fun howes => by cases howes
    · rw [hp] at hseen
      simp only [Broadcast.seen, Proxy.seen, Prod.mk.injEq] at hseen ⊢
      simp [hseen]
    · exact h.fault_cons (fun h => by cases h)
  | inCb =>
    simp only [hp] at hstep
    cases hstep
    refine h.of_proxy_same hreturned (by rw [hp]; exact fun h => by cases h) (fun h => by cases h)
      (by rw [hp]; rfl) (fun hin => by cases hin) hkeep (fun v hv => by cases hv) ?_
      (h.seen_event (.inr (.inr rfl)) ?_) ?_
    · rw [hp]
      exact fun howes => by cases howes
    · rw [hp] at hseen
      simp only [Broadcast.seen, Proxy.seen, Prod.mk.injEq] at hseen ⊢
      simp [hseen]
    · exact h.fault_cons (fun h => by cases h)
  | dec d =>
    simp only [hp] at hstep
    obtain ⟨⟨d', u⟩, hdec, rfl⟩ := Option.map_eq_some_iff.mp hstep
    exact h.decStep hreturned hp hdec

/-- The caller moves without a message to a thread.  It changes the count only under the lock, by what
it pays off. -/
theorem of_sender (h : Inv call s) {sender : Sender α} {k send err : Nat}
    {holder : Option (Who α)} {log : List (Event α)}
    (htodo : sender.todo.Sublist s.sender.todo)
    (hsame : s.sender.todo.countP (isTarget call) + s.sender.owes =
      sender.todo.countP (isTarget call) + sender.owes + k)
    (hk : k = 0 ∨ s.sender.inside = true)
    (hsend : send = total (targets call) Proxy.wasSent s.proxy + sender.ahead)
    (herr : err + sender.todo.countP (isTarget call) =
      s.errorCnt + s.sender.todo.countP (isTarget call))
    (howes : sender.owes ≤ err) (hinside : sender.inside = true → holder = some .sender)
    (hkeep : ∀ t, (s.proxy t).inside = true → holder = some (.proxy t))
    (hknows : sender.Knows call { s with
      activeThrCount := s.activeThrCount - BitVec.ofNat 64 k, sendMsgCnt := send, errorCnt := err })
    (hrest : sender.AtRest → ∀ t, (s.proxy t).AtRest)
    (hgone : (∃ e a b, sender = .returned e a b) → ∀ t, (s.proxy t).Gone)
    (hseen : ∀ x, Broadcast.seen log x = Broadcast.seen s.log x) (hfault : Event.fault ∉ log) :
    Inv call { s with
      activeThrCount := s.activeThrCount - BitVec.ofNat 64 k
      holder := holder
      sendMsgCnt := send
      errorCnt := err
      sender := sender
      log := log } := by
  constructor
  case active =>
    have howed : owed call s = owed call { s with sender := sender } + k := by
      simp only [owed]
      omega
    rw [h.active, howed, BitVec.ofNat_add]
    exact BitVec.add_sub_cancel _ _
  case holder =>
    intro who hin
    cases who with
    | sender => exact hinside hin
    | caller => cases hin
    | proxy x => exact hkeep x hin
  case stored =>
    intro x v hx
    have hx : s.proxy x = .dec (.store v) := hx
    have hin : s.inside (.proxy x) = true := by
      simp only [St.inside, hx]
      rfl
    rw [h.stored x v hx]
    rcases hk with rfl | hk
    · exact (BitVec.sub_zero _).symm
    · -- the caller is inside, so the thread is not
      have hout := h.not_inside .sender hk (fun h : Who.proxy x = .sender => nomatch h)
      rw [hin] at hout
      cases hout
  case todo_nodup => exact h.todo_nodup.sublist htodo
  case todo_idle => exact fun t ht => h.todo_idle t (htodo.subset ht)
  case knows =>
    cases sender with
    | dec err d => cases d <;> exact hknows
    | poll q => cases q <;> exact hknows
    | _ => exact hknows
  case others => exact h.others
  case sendMsgCnt => exact hsend
  case errorCnt =>
    have htotal := h.errorCnt
    simp only
    omega
  case owes_le => exact howes
  case seen_eq =>
    intro x
    rw [hseen x]
    exact h.seen_eq x
  case rest => exact hrest
  case gone =>
    intro hr
    apply hgone
    cases sender with
    | returned e a b => exact ⟨e, a, b, rfl⟩
    | _ => cases hr
  case fault => exact hfault

theorem of_sender_same (h : Inv call s) {sender : Sender α} {send err : Nat}
    {holder : Option (Who α)} (htodo : sender.todo.Sublist s.sender.todo)
    (hsame : s.sender.todo.countP (isTarget call) + s.sender.owes =
      sender.todo.countP (isTarget call) + sender.owes)
    (hsend : send = total (targets call) Proxy.wasSent s.proxy + sender.ahead)
    (herr : err + sender.todo.countP (isTarget call) =
      s.errorCnt + s.sender.todo.countP (isTarget call))
    (howes : sender.owes ≤ err) (hinside : sender.inside = true → holder = some .sender)
    (hkeep : ∀ t, (s.proxy t).inside = true → holder = some (.proxy t))
    (hknows : sender.Knows call { s with sendMsgCnt := send, errorCnt := err })
    (hrest : sender.AtRest → ∀ t, (s.proxy t).AtRest)
    (hgone : (∃ e a b, sender = .returned e a b) → ∀ t, (s.proxy t).Gone) :
    Inv call { s with
      holder := holder, sendMsgCnt := send, errorCnt := err, sender := sender } := by
  have hzero : s.activeThrCount - BitVec.ofNat 64 0 = s.activeThrCount := BitVec.sub_zero _
  have hmove := @of_sender _ _ _ _ h _ 0 _ _ _ s.log htodo hsame (.inl rfl) hsend herr howes hinside
    hkeep (by rwa [hzero]) hrest hgone (fun _ => rfl) h.fault
  rwa [hzero] at hmove

/-- A message reached `t`. -/
theorem of_sent (h : Inv call s) {t : α} {todo : List α} {err : Nat}
    (hsender : s.sender = .send t todo err) {sender : Sender α} {p : Proxy}
    (hto : sender = .wait t todo err ∨ sender = .loop todo err) (hp : p = .queued ∨ p = .readCb) :
    Inv call { s with
      sender := sender
      proxy := Function.update s.proxy t p
      log := .sent t :: s.log } := by
  have hmem : t ∈ s.sender.todo := by
    rw [hsender]
    exact List.mem_cons_self
  obtain ⟨hthread, hidle⟩ := h.todo_idle t hmem
  have hknow := h.knows
  rw [hsender] at hknow
  have ht : t ∈ targets call := mem_targets hthread hknow
  have hnodup := h.todo_nodup
  rw [hsender] at hnodup
  obtain ⟨hnot, hnodup⟩ := List.nodup_cons.mp hnodup
  have hcount : s.sender.todo.countP (isTarget call) = todo.countP (isTarget call) + 1 := by
    rw [hsender]
    exact List.countP_cons_of_pos hknow
  have hupd := fun w => total_update w s.proxy p (nodup_targets call) ht
  have howe := hupd Proxy.owes
  have hsent := hupd Proxy.wasSent
  have hpowes : p.owes = 1 := by
    rcases hp with rfl | rfl
    · rfl
    · rfl
  have hpsent : p.wasSent = 1 := by
    rcases hp with rfl | rfl
    · rfl
    · rfl
  have hpne : p ≠ .idle := by
    rintro rfl
    cases hpsent
  have hpin : p.inside = false := by
    rcases hp with rfl | rfl
    · rfl
    · rfl
  have hpseen : p.seen = (1, 0, 0) := by
    rcases hp with rfl | rfl
    · rfl
    · rfl
  rw [hidle, hpowes] at howe
  rw [hidle, hpsent] at hsent
  simp only [Proxy.owes, Proxy.wasSent] at howe hsent
  have hown : s.sender.owes = err := by rw [hsender]; rfl
  have hah : s.sender.ahead = 1 := by rw [hsender]; rfl
  -- what the two next states of the caller have in common
  have htodo : sender.todo = todo := by
    rcases hto with rfl | rfl
    · rfl
    · rfl
  have howes : sender.owes = err := by
    rcases hto with rfl | rfl
    · rfl
    · rfl
  have hahead : sender.ahead = 0 := by
    rcases hto with rfl | rfl
    · rfl
    · rfl
  have hother : ∀ x, x ≠ t → Function.update s.proxy t p x = s.proxy x :=
    fun x hx => Function.update_of_ne hx p s.proxy
  constructor
  case active =>
    have howed : owed call { s with sender := sender, proxy := Function.update s.proxy t p } =
        owed call s := by
      simp only [owed, htodo, howes]
      omega
    exact h.active.trans (congrArg _ howed.symm)
  case holder =>
    intro who hin
    cases who with
    | sender =>
      have hout : sender.inside = false := by
        rcases hto with rfl | rfl
        · rfl
        · rfl
      exact absurd (hout.symm.trans hin) Bool.false_ne_true
    | caller => cases hin
    | proxy x =>
      by_cases hx : x = t
      · subst hx
        simp only [St.inside, Function.update_self] at hin
        exact absurd (hpin.symm.trans hin) Bool.false_ne_true
      · simp only [St.inside, hother x hx] at hin
        exact h.holder (.proxy x) hin
  case stored =>
    intro x v hx
    by_cases hxt : x = t
    · subst hxt
      simp only [Function.update_self] at hx
      rw [hx] at hpin
      cases hpin
    · simp only [hother x hxt] at hx
      exact h.stored x v hx
  case todo_nodup =>
    simp only [htodo]
    exact hnodup
  case todo_idle =>
    simp only [htodo]
    intro x hx
    have hne : x ≠ t := by
      rintro rfl
      exact hnot hx
    rw [hother x hne]
    apply h.todo_idle x
    rw [hsender]
    exact List.mem_cons_of_mem t hx
  case knows =>
    rcases hto with rfl | rfl
    · refine ⟨ht, ?_⟩
      simpa using hpne
    · trivial
  case others =>
    intro x hx
    have hne : x ≠ t := by
      rintro rfl
      exact hx ht
    exact (hother x hne).trans (h.others x hx)
  case sendMsgCnt =>
    have hcnt := h.sendMsgCnt
    simp only [hahead]
    omega
  case errorCnt =>
    have htotal := h.errorCnt
    simp only [htodo]
    omega
  case owes_le =>
    have hle := h.owes_le
    simp only [howes]
    omega
  case seen_eq =>
    apply h.seen_event (.inl rfl)
    have hbefore := h.seen_eq t
    rw [hidle] at hbefore
    rw [hpseen]
    simp only [Broadcast.seen, Proxy.seen, Prod.mk.injEq] at hbefore ⊢
    simp [hbefore]
  case rest =>
    rcases hto with rfl | rfl
    · exact fun hr => hr.elim
    · exact fun hr => hr.elim
  case gone =>
    rcases hto with rfl | rfl
    · exact fun hr => by cases hr
    · exact fun hr => by cases hr
  case fault => exact h.fault_cons (fun h => by cases h)

/-- The caller in `tpt_msg_active_thr_count_dec`. -/
theorem senderDec (h : Inv call s) {err : Nat} {d d' : Dec} {u : St α}
    (hsender : s.sender = .dec err d) (hstep : Bsend.decStep .sender err s d = some (d', u)) :
    Inv call { u with sender := .dec err d' } := by
  have htouch : s.touch = s := touch_eq (by simp [St.hasReturned, hsender])
  have hcnt := h.sendMsgCnt
  have hle := h.owes_le
  rw [hsender] at hcnt hle
  have htodo : s.sender.todo = [] := by rw [hsender]; rfl
  have hkeep : ∀ t, (s.proxy t).inside = true → s.holder = some (.proxy t) :=
    fun t hin => h.holder (.proxy t) hin
  have hmine : d.inside = true → s.holder = some .sender := by
    intro hin
    apply h.holder
    simp only [St.inside, hsender]
    exact hin
  have halone : d.inside = true → ∀ t, (s.proxy t).inside = true →
      ∀ holder : Option (Who α), holder = some (.proxy t) := by
    intro hin t ht
    have hsame := (h.holder (.proxy t) ht).symm.trans (hmine hin)
    cases hsame
  have hknows := h.knows
  rw [hsender] at hknows
  have hnotgone : ∀ d : Dec, (∃ e a b, Sender.dec err d = (.returned e a b : Sender α)) →
      ∀ t, (s.proxy t).Gone := by
    rintro d ⟨e, a, b, heq⟩
    cases heq
  cases d with
  | lock =>
    simp only [Bsend.decStep] at hstep
    split at hstep
    · rename_i hfree
      cases hstep
      rw [htouch]
      refine h.of_sender_same (by rw [hsender]; exact List.Sublist.refl _) (by rw [hsender]; rfl)
        hcnt (by rw [hsender]; rfl) hle (fun _ => rfl) ?_ trivial (fun hr => hr.elim) (hnotgone _)
      intro t hin
      rw [hkeep t hin] at hfree
      cases hfree
    · cases hstep
  | load =>
    cases hstep
    rw [htouch]
    exact h.of_sender_same (by rw [hsender]; exact List.Sublist.refl _) (by rw [hsender]; rfl)
      hcnt (by rw [hsender]; rfl) hle (fun _ => hmine rfl) hkeep rfl (fun hr => hr.elim) (hnotgone _)
  | store v =>
    cases hstep
    rw [htouch, show v = s.activeThrCount from hknows]
    exact h.of_sender (k := err) (by rw [hsender]; exact List.Sublist.refl _)
      (by rw [hsender]; show 0 + err = 0 + 0 + err; omega) (.inr (by rw [hsender]; rfl)) hcnt
      (by rw [hsender]; rfl) (Nat.zero_le _) (fun _ => hmine rfl) hkeep trivial (fun hr => hr.elim)
      (hnotgone _) (fun _ => rfl) h.fault
  | reload =>
    cases hstep
    rw [htouch]
    exact h.of_sender_same (by rw [hsender]; exact List.Sublist.refl _) (by rw [hsender]; rfl)
      hcnt (by rw [hsender]; rfl) hle (fun _ => hmine rfl) hkeep rfl (fun hr => hr.elim) (hnotgone _)
  | unlock tm =>
    cases hstep
    rw [htouch]
    refine h.of_sender_same (by rw [hsender]; exact List.Sublist.refl _) ?_ ?_ ?_ ?_ ?_
      (fun t hin => halone rfl t hin _) ?_ ?_ (hnotgone _)
    · rw [hsender]
      split <;> rfl
    · rw [hcnt]
      split <;> rfl
    · rw [hsender]
      rfl
    · split <;> exact Nat.zero_le _
    · intro hin
      split at hin <;> cases hin
    · split <;> trivial
    · -- zero was read under the lock
      intro hr t
      have hzero : tm = 0 := by
        by_contra hne
        rw [if_neg hne] at hr
        exact hne hr
      apply h.atRest_of_owed (h.owed_eq_zero (hknows.symm.trans hzero))
      exact h.not_inside .sender (by simp only [St.inside, hsender]; rfl)
        (fun h : Who.proxy t = .sender => nomatch h)
  | look =>
    cases hstep
    rw [htouch]
    have hrest := h.rest (by rw [hsender]; trivial)
    exact h.of_sender_same (by rw [hsender]; exact List.Sublist.refl _) (by rw [hsender]; rfl)
      hcnt (by rw [hsender]; rfl) hle (fun hin => nomatch hin) hkeep trivial (fun _ => hrest)
      (hnotgone _)
  | «over» tm => cases hstep

/-- The loop that waits. -/
theorem pollStep (h : Inv call s) {q : Poll} {s' : St α} (hsender : s.sender = .poll q)
    (hstep : Bsend.pollStep s q = some s') : Inv call s' := by
  have hcnt := h.sendMsgCnt
  have hle := h.owes_le
  have hknows := h.knows
  rw [hsender] at hcnt hle hknows
  have hkeep : ∀ t, (s.proxy t).inside = true → s.holder = some (.proxy t) :=
    fun t hin => h.holder (.proxy t) hin
  have hmine : (Sender.poll q : Sender α).inside = true → s.holder = some .sender := by
    intro hin
    apply h.holder
    simp only [St.inside, hsender]
    exact hin
  cases q with
  | lock =>
    simp only [Bsend.pollStep] at hstep
    split at hstep
    · rename_i hfree
      cases hstep
      refine h.of_sender_same (by rw [hsender]; exact List.Sublist.refl _) (by rw [hsender]; rfl)
        hcnt (by rw [hsender]; rfl) hle (fun _ => rfl) ?_ trivial (fun hr => hr.elim) ?_
      · intro t hin
        rw [hkeep t hin] at hfree
        cases hfree
      · rintro ⟨e, a, b, heq⟩
        cases heq
    · cases hstep
  | reload =>
    cases hstep
    refine h.of_sender_same (by rw [hsender]; exact List.Sublist.refl _) (by rw [hsender]; rfl)
      hcnt (by rw [hsender]; rfl) hle (fun _ => hmine rfl) hkeep rfl (fun hr => hr.elim) ?_
    rintro ⟨e, a, b, heq⟩
    cases heq
  | unlock tm =>
    cases hstep
    have hkeep' : ∀ t, (s.proxy t).inside = true → none = some (Who.proxy t) := by
      intro t hin
      have hsame := (hkeep t hin).symm.trans (hmine rfl)
      cases hsame
    by_cases htm : tm = 0
    · rw [if_pos htm]
      refine h.of_sender_same (by rw [hsender]; exact List.Sublist.refl _) (by rw [hsender]; rfl)
        hcnt (by rw [hsender]; rfl) hle (fun hin => nomatch hin) hkeep' trivial ?_ ?_
      · -- zero was read under the lock
        intro _ t
        apply h.atRest_of_owed (h.owed_eq_zero (hknows.symm.trans htm))
        exact h.not_inside .sender (by simp only [St.inside, hsender]; rfl)
          (fun h : Who.proxy t = .sender => nomatch h)
      · rintro ⟨e, a, b, heq⟩
        cases heq
    · rw [if_neg htm]
      refine h.of_sender_same (by rw [hsender]; exact List.Sublist.refl _) (by rw [hsender]; rfl)
        hcnt (by rw [hsender]; rfl) hle (fun hin => nomatch hin) hkeep' trivial
        (fun hr => hr.elim) ?_
      rintro ⟨e, a, b, heq⟩
      cases heq

/-- The caller, which does not return early. -/
theorem senderStep (h : Inv call s) {written : Bool} {s' : St α}
    (hearly : (Action.sender written).early call s = false)
    (hstep : Bsend.senderStep call written s = some s') : Inv call s' := by
  have hcnt := h.sendMsgCnt
  have hle := h.owes_le
  have hknows := h.knows
  have hkeep : ∀ t, (s.proxy t).inside = true → s.holder = some (.proxy t) :=
    fun t hin => h.holder (.proxy t) hin
  unfold Bsend.senderStep at hstep
  cases hsender : s.sender with
  | single =>
    rw [hsender] at hknows
    exact hknows.elim
  | singleCb =>
    rw [hsender] at hknows
    exact hknows.elim
  | loop todo err =>
    rw [hsender] at hcnt hle
    have hnotgone : ∀ sender : Sender α, (∀ e a b, sender ≠ .returned e a b) →
        (∃ e a b, sender = .returned e a b) → ∀ t, (s.proxy t).Gone := by
      rintro sender hne ⟨e, a, b, heq⟩
      exact absurd heq (hne e a b)
    cases todo with
    | nil =>
      simp only [hsender, Option.some.injEq] at hstep
      subst hstep
      exact h.of_sender_same (by rw [hsender]; exact List.Sublist.refl _) (by rw [hsender]; rfl)
        hcnt (by rw [hsender]; rfl) hle (fun hin => by cases hin) hkeep trivial (fun hr => hr.elim)
        (hnotgone _ (fun _ _ _ h => by cases h))
    | cons t todo =>
      simp only [hsender] at hstep
      by_cases htarget : isTarget call t = true
      · rw [if_pos htarget] at hstep
        have hs' := (Option.some.inj hstep).symm
        subst hs'
        exact h.of_sender_same (by rw [hsender]; exact List.Sublist.refl _) (by rw [hsender]; rfl)
          (by rw [hcnt]; rfl) (by rw [hsender]; rfl) hle (fun hin => by cases hin) hkeep htarget
          (fun hr => hr.elim) (hnotgone _ (fun _ _ _ h => by cases h))
      · rw [if_neg htarget] at hstep
        have hs' := (Option.some.inj hstep).symm
        subst hs'
        have hcount : (t :: todo).countP (isTarget call) = todo.countP (isTarget call) :=
          List.countP_cons_of_neg htarget
        refine h.of_sender_same (by rw [hsender]; exact List.sublist_cons_self t todo) ?_ hcnt ?_ hle
          (fun hin => by cases hin) hkeep trivial (fun hr => hr.elim)
          (hnotgone _ (fun _ _ _ h => by cases h))
        · rw [hsender]
          show (t :: todo).countP (isTarget call) + err = todo.countP (isTarget call) + err
          rw [hcount]
        · rw [hsender]
          show s.errorCnt + todo.countP (isTarget call) =
            s.errorCnt + (t :: todo).countP (isTarget call)
          rw [hcount]
  | send t todo err =>
    simp only [hsender, Option.some.injEq] at hstep
    subst hstep
    rw [hsender] at hcnt hle
    simp only [sendStep]
    generalize tptMsgSend (fun t => t.elim false call.running) call.flags (some t) call.src
      written = delivery
    cases delivery with
    | direct => exact h.of_sent hsender (.inl rfl) (.inr rfl)
    | queued => exact h.of_sent hsender (.inr rfl) (.inl rfl)
    | failed =>
      have hmove := @of_sender _ _ _ _ h (.failed t todo err) 0 s.sendMsgCnt s.errorCnt s.holder
        (.failed t :: s.log) (by rw [hsender]; exact List.Sublist.refl _) (by rw [hsender]; rfl) (.inl rfl) hcnt
        (by rw [hsender]; rfl) hle (fun hin => by cases hin) hkeep (by rw [hsender] at hknows; exact hknows)
        (fun hr => hr.elim) (by rintro ⟨e, a, b, heq⟩; cases heq)
        (fun x => by simp [Broadcast.seen]) (h.fault_cons (fun h => by cases h))
      rwa [show s.activeThrCount - BitVec.ofNat 64 0 = s.activeThrCount from
        BitVec.sub_zero _] at hmove
  | wait t todo err =>
    simp only [hsender] at hstep
    rw [hsender] at hcnt hle
    split at hstep
    · have hs' := (Option.some.inj hstep).symm
      subst hs'
      exact h.of_sender_same (by rw [hsender]; exact List.Sublist.refl _) (by rw [hsender]; rfl)
        hcnt (by rw [hsender]; rfl) hle (fun hin => by cases hin) hkeep trivial (fun hr => hr.elim)
        (by rintro ⟨e, a, b, heq⟩; cases heq)
    · cases hstep
  | failed t todo err =>
    simp only [hsender, Option.some.injEq] at hstep
    subst hstep
    rw [hsender] at hcnt hle hknows
    have hcount : (t :: todo).countP (isTarget call) = todo.countP (isTarget call) + 1 :=
      List.countP_cons_of_pos hknows
    refine h.of_sender_same (by rw [hsender]; exact List.sublist_cons_self t todo) ?_ ?_ ?_
      (Nat.succ_le_succ hle) (fun hin => by cases hin) hkeep trivial (fun hr => hr.elim)
      (by rintro ⟨e, a, b, heq⟩; cases heq)
    · rw [hsender]
      show (t :: todo).countP (isTarget call) + err = todo.countP (isTarget call) + (err + 1)
      omega
    · rw [hcnt]
      rfl
    · rw [hsender]
      show s.errorCnt + 1 + todo.countP (isTarget call) =
        s.errorCnt + (t :: todo).countP (isTarget call)
      omega
  | dec err d =>
    cases d with
    | «over» tm =>
      simp only [hsender, Option.some.injEq] at hstep
      subst hstep
      rw [hsender] at hcnt hle
      have hrest := h.rest
      rw [hsender] at hrest
      by_cases htm : tm = 0
      · rw [if_pos htm]
        exact h.of_sender_same (by rw [hsender]; exact List.Sublist.refl _) (by rw [hsender]; rfl)
          hcnt (by rw [hsender]; rfl) hle (fun hin => by cases hin) hkeep trivial
          (fun _ => hrest htm) (by rintro ⟨e, a, b, heq⟩; cases heq)
      · rw [if_neg htm]
        exact h.of_sender_same (by rw [hsender]; exact List.Sublist.refl _) (by rw [hsender]; rfl)
          hcnt (by rw [hsender]; rfl) hle (fun hin => by cases hin) hkeep trivial
          (fun hr => hr.elim) (by rintro ⟨e, a, b, heq⟩; cases heq)
    | _ =>
      simp only [hsender] at hstep
      obtain ⟨⟨d', u⟩, hdec, rfl⟩ := Option.map_eq_some_iff.mp hstep
      exact h.senderDec hsender hdec
  | poll q =>
    simp only [hsender] at hstep
    exact h.pollStep hsender hstep
  | finish =>
    simp only [hsender, Option.some.injEq] at hstep
    subst hstep
    rw [hsender] at hcnt hle
    have hrest := h.rest
    rw [hsender] at hrest
    -- no receiver is in front of the read of `done_cb`
    have hgone : ∀ t, (s.proxy t).Gone := by
      intro t
      rcases hrest trivial t with hp | hp | hp
      · exact .inl hp
      · have ht : t ∈ call.threads := (List.mem_filter.mp (h.mem_of_ne_idle
          (by rw [hp]; exact fun h => by cases h))).1
        have hyes : (Action.sender written).early call s = true :=
          decide_eq_true ⟨hsender, t, ht, hp⟩
        rw [hyes] at hearly
        cases hearly
      · exact .inr hp
    exact h.of_sender_same (by rw [hsender]; exact List.Sublist.refl _) (by rw [hsender]; rfl)
      hcnt (by rw [hsender]; rfl) hle (fun hin => by cases hin) hkeep ⟨rfl, rfl, rfl⟩
      (fun _ => hrest trivial) (fun _ => hgone)
  | returned error sendMsgCnt errorCnt =>
    simp only [hsender] at hstep
    cases hstep

theorem step (h : Inv call s) {a : Action α} {s' : St α} (hstep : stepLate call a s = some s') :
    Inv call s' := by
  unfold stepLate at hstep
  split at hstep
  · cases hstep
  · rename_i hearly
    cases a with
    | sender written => exact h.senderStep (Bool.eq_false_of_not_eq_true hearly) hstep
    | proxy t => exact h.proxyStep hstep

end Inv

end Bsend

end Threadpool
