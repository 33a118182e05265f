import Mathlib.Algebra.Order.Ring.Nat
import Liblcb.Proto.DnsResolvInv

/-!
# Runs of the resolver

What the events keep, and what holds in every state of a run.
-/

namespace Dns.Resolv

open Mem Resolver

variable {env : Env} {s s' : Resolver} {f f' : Focus} {id : TaskId} {t t' : Task} {i : Nat}

/-! ## The end of a task -/

theorem taskDone_ok (h : Ok s { cur := some (id, t) }) (error : Option Errno) (addrs : List CacheAddr)
    (validUntil : Int) : Ok (taskDone env id t error addrs validUntil s) {} := by
  have hdata := cacheEntryDataAdd_ok env h (.addrs addrs) validUntil
  unfold taskDone
  generalize (cacheEntryDataAdd env t.cacheEntry (.addrs addrs) validUntil s).2 = s' at hdata
  simp only
  -- the books: whatever the trace says of the callback, the task is freed
  have hbooks : ∀ s'' : Resolver, s''.tasks = s'.tasks →
      Book s'' { cur := some (id, t), handed := some id } → Book (taskFree (some id) s'') {} := by
    intro s'' htasks hbook
    obtain ⟨i, hi, hentry, hq⟩ := hbook.cur_entry rfl
    obtain ⟨ht, -⟩ := hbook.cur id t rfl
    refine hbook.taskFree ht hq rfl rfl rfl nofun ?_ ?_
    · intro id' hne
      exact ⟨nofun, fun h => absurd (Option.some.inj h).symm hne⟩
    · intro j
      constructor
      · exact .inl
      · rintro (hj | ⟨-, hj⟩)
        · exact hj
        · exact absurd rfl hj
  have hholds : ∀ id', id' ≠ id → Focus.Holds { cur := some (id, t), handed := some id } id' →
      Focus.Holds {} id' := by
    rintro id' hne (hid | hid | ⟨t', hid⟩)
    · cases hid
    · cases hid
    · cases hid
      exact absurd rfl hne
  cases hcb : t.cbFunc with
  | true =>
    rw [if_pos rfl]
    intro hstray
    obtain ⟨hbook, hcalls⟩ := hdata (noStray_emit (noStray_taskFree hstray))
    refine ⟨hbooks _ rfl (hbook.emit nofun), fun htold => ?_⟩
    have hcalls := hcalls (told_emit (told_taskFree htold))
    exact hcalls.callback (hbook.cur id t rfl).1 hcb error _ rfl hholds
  | false =>
    rw [if_neg nofun]
    intro hstray
    obtain ⟨hbook, hcalls⟩ := hdata (noStray_taskFree hstray)
    refine ⟨hbooks _ rfl hbook, fun htold => ?_⟩
    have hcalls := hcalls (told_taskFree htold)
    have ht := (hbook.cur id t rfl).1
    have hhistory := (hcalls.held id t ht).2
    rw [Task.history, hcb, if_neg nofun] at hhistory
    refine hcalls.taskFree ht rfl rfl (fun _ _ => rfl) ?_ rfl hholds
    rw [hhistory]
    exact .inr (.inr rfl)

theorem setCur_ok (h : Ok s { cur := some (id, t) }) (hentry : t'.cacheEntry = t.cacheEntry)
    (hqueued : t'.queued = t.queued) (htimer : t'.timer = t.timer) (hcb : t'.cbFunc = t.cbFunc) (hudata : t'.udata = t.udata) :
    Ok (s.setTask id t') { cur := some (id, t') } := by
  intro hstray
  obtain ⟨hbook, hcalls⟩ := h hstray
  obtain ⟨ht, hsome, htimer', -⟩ := hbook.cur id t rfl
  have htimer : t'.timer = false := by rw [htimer, htimer']
  constructor
  · have hfocus : Book s {} := hbook.refocus rfl rfl rfl nofun nofun
    refine (hfocus.setTask ht hentry hqueued (fun h => ?_) nofun).refocus rfl rfl rfl nofun ?_
    · rw [htimer] at h
      cases h
    · intro id' t₀ hid'
      cases hid'
      exact ⟨by rw [tasks_setTask, if_pos rfl], by rw [hentry, hsome], htimer, nofun⟩
  · intro htold
    refine (hcalls htold).setTask ht hcb hudata rfl ?_ (.inr (.inr (.inr (.inr ⟨t', rfl⟩))))
    rintro id' hne (hid | hid | ⟨t₀, hid⟩)
    · cases hid
    · cases hid
    · cases hid
      exact absurd rfl hne

/-! ## Sending again -/

variable (env) in
theorem sendCur_ok (h : Ok s { cur := some (id, t) }) (ht : s.tasks id = some t) :
    (∃ s', send env id s = (none, s') ∧ Ok s' {}) ∨
    (∃ error s', send env id s = (some error, s') ∧ Ok s' { cur := some (id, t) } ∧ s'.tasks id = some t) := by
  cases hsend : send env id s with
  | mk error s' =>
    cases error with
    | none =>
      rcases send_cases env ht with ⟨hsome, srv, name, hs'⟩ | ⟨_, hs'⟩ | ⟨_, hs'⟩ | ⟨_, hs'⟩
      · rw [hs'] at hsend
        cases hsend
        refine .inl ⟨_, rfl, sent_ok h ht hsome srv name rfl (.inl rfl) ?_⟩
        rintro id' hne (hid | hid | ⟨t₀, hid⟩)
        · cases hid
        · cases hid
        · cases hid
          exact absurd rfl hne
      all_goals
        rw [hs'] at hsend
        cases hsend
    | some error =>
      obtain ⟨hok, htasks⟩ := not_sent_ok h ht hsend
      exact .inr ⟨error, s', rfl, hok, by rw [htasks, ht]⟩

theorem callCb_ok (h : Ok s { cur := some (id, t) }) (ht : s.tasks id = some t) (error : Option Errno)
    (addrs : List CacheAddr) (validUntil : Int) : Ok (callCb env id error addrs validUntil s) {} := by
  unfold callCb
  rw [ht]
  exact taskDone_ok h error addrs validUntil

theorem resend_ok (h : Ok s { cur := some (id, t) }) (ht : s.tasks id = some t) (next : Bool)
    (validUntil : Int) : Ok (resend env id next validUntil s) {} := by
  unfold resend
  rw [ht]
  simp only
  set t' : Task := { t with curSrvIdx := if next = true then t.curSrvIdx + 1 else t.curSrvIdx } with ht'
  have hset : Ok (s.setTask id t') { cur := some (id, t') } := setCur_ok h rfl rfl rfl rfl rfl
  have htask : (s.setTask id t').tasks id = some t' := by rw [tasks_setTask, if_pos rfl]
  rcases sendCur_ok env hset htask with ⟨s', hsend, hok⟩ | ⟨error, s', hsend, hok, htask'⟩
  · rw [hsend]
    exact hok
  · rw [hsend]
    exact callCb_ok hok htask' (some error) [] validUntil

def Pending (id : TaskId) : Option Errno × Resolver → Prop
  | (none, s) => Ok s {}
  | (some _, s) => ∃ t, s.tasks id = some t ∧ Ok s { cur := some (id, t) }

theorem sendCur_pending (h : Ok s { cur := some (id, t) }) (ht : s.tasks id = some t) :
    Pending id (send env id s) := by
  rcases sendCur_ok env h ht with ⟨s', hsend, hok⟩ | ⟨error, s', hsend, hok, ht'⟩
  · rw [hsend]
    exact hok
  · rw [hsend]
    exact ⟨t, ht', hok⟩

variable (env) in
theorem nextServers_pending (fuel : Nat) {error : Option Errno} (h : Pending id (error, s)) :
    Pending id (nextServers env id fuel error s) := by
  induction fuel generalizing s error with
  | zero => exact h
  | succ fuel ih =>
    unfold nextServers
    cases error with
    | none =>
      split
      · exact h
      · rw [if_neg fun hc => nomatch hc.2]
        exact h
    | some error =>
      obtain ⟨t, ht, hok⟩ := h
      rw [ht]
      simp only
      split
      · apply ih
        apply sendCur_pending
        · exact setCur_ok hok rfl rfl rfl rfl rfl
        · rw [tasks_setTask, if_pos rfl]
      · exact ⟨t, ht, hok⟩

theorem take_ok (h : Ok s {}) (ht : s.tasks id = some t) (hentry : t'.cacheEntry = t.cacheEntry)
    (hwork : t.timer = true ∨ t.cacheEntry.isSome) (hqueued : t'.queued = t.queued) (htimer : t'.timer = false)
    (hcb : t'.cbFunc = t.cbFunc) (hudata : t'.udata = t.udata) :
    Ok (s.setTask id t') { cur := some (id, t') } := by
  intro hstray
  obtain ⟨hbook, hcalls⟩ := h hstray
  have hsome : t.cacheEntry.isSome := by
    rcases hwork with hon | hsome
    · by_contra hnone
      rw [Option.not_isSome_iff_eq_none, ← entryOf_of_tasks ht] at hnone
      have hoff := hbook.timer id hnone
      rw [isTimed_of_tasks ht, hon] at hoff
      cases hoff
    · exact hsome
  constructor
  · refine (hbook.setTask ht hentry hqueued (fun h => ?_) nofun).refocus rfl rfl rfl nofun ?_
    · rw [htimer] at h
      cases h
    · intro id' t₀ hid'
      cases hid'
      exact ⟨by rw [tasks_setTask, if_pos rfl], by rw [hentry, hsome], htimer, nofun⟩
  · intro htold
    refine (hcalls htold).setTask ht hcb hudata rfl ?_ (.inr (.inr (.inr (.inr ⟨t', rfl⟩))))
    rintro id' hne (hid | hid | ⟨t₀, hid⟩) <;> cases hid

theorem taskTimeoutCb_ok (h : Ok s {}) (id : TaskId) : Ok (taskTimeoutCb env id s) {} := by
  unfold taskTimeoutCb
  split
  · exact h
  next t ht =>
  split
  · exact h
  next hon =>
  rw [Decidable.not_not] at hon
  simp only
  set t' : Task := { t with timer := false, timeouts := t.timeouts + 1 } with ht'
  have htake : Ok (s.setTask id t') { cur := some (id, t') } :=
    take_ok h ht rfl (.inl hon) rfl rfl rfl rfl
  have htask : (s.setTask id t').tasks id = some t' := by rw [tasks_setTask, if_pos rfl]
  have hfirst : Pending id (if t'.timeouts ≤ env.retryCount then send env id (s.setTask id t')
      else (some .etimedout, s.setTask id t')) := by
    split
    · exact sendCur_pending htake htask
    · exact ⟨t', htask, htake⟩
  generalize (if t'.timeouts ≤ env.retryCount then send env id (s.setTask id t')
    else (some .etimedout, s.setTask id t')) = first at hfirst
  obtain ⟨error, s₁⟩ := first
  have hnext := nextServers_pending env env.dnsAddrs.length hfirst
  generalize nextServers env id env.dnsAddrs.length error s₁ = next at hnext
  obtain ⟨error, s₂⟩ := next
  cases error with
  | none => exact hnext
  | some error =>
    obtain ⟨t₂, ht₂, hok⟩ := hnext
    simp only
    rw [ht₂]
    have hok' : Ok s₂.tock { cur := some (id, t₂) } := hok.congr rfl rfl rfl rfl
    exact taskDone_ok hok' (some error) [] _

/-! ## Replies -/

variable {buf : List Byte} {transferedSize : Nat} {info : MsgInfo} {now : Int}

theorem detach_ok (h : Ok s { cur := some (id, t), handed := some id }) (hentry : t'.cacheEntry = none)
    (hqueued : t'.queued = t.queued) (htimer : t'.timer = t.timer) (hcb : t'.cbFunc = t.cbFunc)
    (hudata : t'.udata = t.udata) : Ok (s.setTask id t') { hand := some id } := by
  intro hstray
  obtain ⟨hbook, hcalls⟩ := h hstray
  have hdetach := hbook.detach rfl rfl rfl hentry hqueued htimer
  refine ⟨hdetach, fun htold => ?_⟩
  refine (hcalls htold).setTask (hbook.cur id t rfl).1 hcb hudata rfl ?_ (.inr (.inr (.inl rfl)))
  rintro id' hne (hid | hid | ⟨t₀, hid⟩)
  · cases hid
  · cases hid
  · cases hid
    exact absurd rfl hne

def AnswerOk (id : TaskId) : Answer × Resolver → Prop
  | (.rcvNext, s) => Ok s {}
  | (.callCb _, s) | (.left _ _, s) => ∃ t, s.tasks id = some t ∧ Ok s { cur := some (id, t) }

theorem answerLoop_ok (fuel : Nat) (scan : Scan) (h : Ok s { cur := some (id, t) }) (ht : s.tasks id = some t) :
    AnswerOk id (answerLoop env buf transferedSize info now id fuel scan s) := by
  induction fuel generalizing s scan t with
  | zero => exact ⟨t, ht, h.emit rfl nofun⟩
  | succ fuel ih =>
    unfold answerLoop
    split
    · exact ⟨t, ht, h⟩
    rw [ht]
    simp only
    split
    · exact Ok.stray s _ id
    split
    · exact ⟨t, ht, h⟩
    split
    · exact ih _ h ht
    · exact ih _ h ht
    split
    · exact ⟨t, ht, h⟩
    next name ttl _ _ =>
    set t' : Task := { t with cacheEntry := none, loopCount := t.loopCount + 1 } with ht'
    set s' := (cacheEntryDataAdd env t.cacheEntry (.alias name) (now + ttl) s).2 with hs'
    -- A CNAME: the entry gets its alias, the task leaves it and is looked up again under the new name.
    have hdata : Ok s' { cur := some (id, t), handed := some id } := cacheEntryDataAdd_ok env h _ _
    have hdetach : Ok (s'.setTask id t') { hand := some id } := detach_ok hdata rfl rfl rfl rfl rfl
    have hserves : Serves (s'.setTask id t') { hand := some id } (.ofTask id t') := by
      refine ⟨rfl, nofun, .inr ⟨id, t', rfl, rfl, rfl, ?_, rfl, rfl⟩⟩
      rw [tasks_setTask, if_pos rfl]
    have hdone := hostaddrInt_ok env hdetach hserves rfl false name
      fun _ id' hid' => by rw [Option.some.inj hid']
    generalize hostaddrInt env false name (Caller.ofTask id t') (s'.setTask id t') = r at hdone
    obtain ⟨ret, s''⟩ := r
    cases ret with
    | ok => exact hdone
    | error error => exact hdone
    | restart =>
      obtain ⟨t'', ht'', hok⟩ := hdone.2 id rfl
      exact ih _ hok ht''

theorem recvAnswer_ok (h : Ok s { cur := some (id, t) }) (ht : s.tasks id = some t) :
    Ok (recvAnswer env buf transferedSize info now id s) {} := by
  unfold recvAnswer
  simp only
  have hloop : AnswerOk id (answerLoop env buf transferedSize info now id (answerFuel info)
      ⟨info.anOff, info.rrCount, [], false⟩ s) := answerLoop_ok _ _ h ht
  split
  · next heq =>
    rw [heq] at hloop
    exact hloop
  · next error s' heq =>
    rw [heq] at hloop
    obtain ⟨t', ht', hok⟩ := hloop
    exact callCb_ok hok ht' _ _ _
  · next error scan s' heq =>
    rw [heq] at hloop
    obtain ⟨t', ht', hok⟩ := hloop
    split
    · exact resend_ok hok ht' _ _
    · exact callCb_ok hok ht' _ _ _

theorem recvError_ok (h : Ok s { cur := some (id, t) }) (ht : s.tasks id = some t) :
    Ok (recvError env buf info now id s) {} := by
  unfold recvError
  simp only
  split
  · exact resend_ok h ht _ _
  · exact callCb_ok h ht _ _ _

theorem recvCb_ok (h : Ok s {}) (pkt : Datagram) : Ok (recvCb env pkt s) {} := by
  unfold recvCb
  split
  · exact h
  next info _ =>
  simp only
  split
  · exact h
  next t ht =>
  split
  · exact h
  set id := hdrIdGet pkt.buf with hid
  set t' : Task := { t with timer := false } with ht'
  have htaken : (s.setTask id t').tasks id = some t' := by rw [tasks_setTask, if_pos rfl]
  -- without an entry nothing is known from here on
  have hstart : Ok (if t.cacheEntry.isNone = true then (s.setTask id t').emit (.stray id) else s.setTask id t')
      { cur := some (id, t') } ∧
      (if t.cacheEntry.isNone = true then (s.setTask id t').emit (.stray id) else s.setTask id t').tasks id =
        some t' := by
    split
    · exact ⟨Ok.stray _ _ id, htaken⟩
    · next hsome =>
      have hsome' : t.cacheEntry.isSome :=
        Option.isSome_iff_ne_none.mpr fun hnone => hsome (by rw [hnone, Option.isNone_none])
      exact ⟨take_ok h ht rfl (.inr hsome') rfl rfl rfl rfl, htaken⟩
  generalize (if t.cacheEntry.isNone = true then (s.setTask id t').emit (.stray id)
    else s.setTask id t') = s₁ at hstart
  obtain ⟨hok, htask⟩ := hstart
  have htock : Ok s₁.tock { cur := some (id, t') } := hok.congr rfl rfl rfl rfl
  have htask' : s₁.tock.tasks id = some t' := htask
  split
  · exact recvError_ok htock htask'
  · exact recvAnswer_ok htock htask'

/-! ## Runs -/

theorem init_ok : Ok init {} := by
  intro _
  constructor
  · constructor <;>
      simp [init, entryOf, isQueued, isTimed, isUpdating, queueOf, Resolver.waits, Focus.Loose]
  · intro _
    constructor <;> simp [init, history]

theorem resolve_ok (h : Ok s {}) (name : List Byte) : Ok (resolve env name s) {} := by
  unfold resolve
  simp only
  have haccept : Ok ({ s with requests := s.requests + 1 }.emit (.accept s.requests))
      { asking := some s.requests } := by
    intro hstray
    obtain ⟨hbook, hcalls⟩ := h (noStray_emit hstray)
    refine ⟨?_, fun htold => (hcalls (told_emit htold)).accept rfl⟩
    have hframe : Book ({ s with requests := s.requests + 1 }.emit (.accept s.requests)) {} := by
      refine hbook.frame rfl rfl fun i => ?_
      rw [Resolver.emit, List.mem_cons]
      exact or_iff_right (fun h => by cases h)
    exact hframe.refocus rfl rfl rfl (fun _ h => by cases h) (fun _ _ h => by cases h)
  have hserves : Serves ({ s with requests := s.requests + 1 }.emit (.accept s.requests))
      { asking := some s.requests } ⟨none, true, s.requests, 0⟩ :=
    ⟨rfl, fun _ h => (by cases h), .inl ⟨rfl, rfl, rfl⟩⟩
  exact (hostaddrInt_ok env haccept hserves rfl true name (fun h => by cases h)).ok

theorem cancel_ok (h : Ok s {}) (id : TaskId) : Ok (cancel id s) {} := by
  unfold cancel
  split
  · exact h
  next t ht =>
  split
  · next hcb =>
    intro hstray
    obtain ⟨hbook, hcalls⟩ := h (noStray_emit hstray)
    refine ⟨?_, fun htold => (hcalls (told_emit htold)).cancel ht hcb rfl⟩
    have hset : Book (s.setTask id { t with cbFunc := false }) {} := by
      refine hbook.setTask ht rfl rfl (fun hon => ?_) nofun
      by_contra hnone
      rw [Option.not_isSome_iff_eq_none, ← entryOf_of_tasks ht] at hnone
      have hoff := hbook.timer id hnone
      rw [isTimed_of_tasks ht, hon] at hoff
      cases hoff
    exact hset.emit nofun
  · exact h

theorem step_ok (h : Ok s {}) (event : Event) : Ok (step env event s) {} := by
  cases event with
  | resolve name => exact resolve_ok h name
  | cancel id => exact cancel_ok h id
  | timeout id => exact taskTimeoutCb_ok h id
  | reply pkt => exact recvCb_ok h pkt
  | recvFailed => exact h

theorem foldl_ok (events : List Event) (h : Ok s {}) :
    Ok (events.foldl (fun s event => step env event s) s) {} := by
  induction events generalizing s with
  | nil => exact h
  | cons event events ih =>
    rw [List.foldl_cons]
    exact ih (step_ok h event)

theorem run_ok (env : Env) (events : List Event) : Ok (run env events) {} := foldl_ok events init_ok

/-! ## The fuel of the loop over an answer -/

theorem search_left (env : Env) (entries : List Entry) (now : Int) (left : Nat) (name : List Byte) :
    (search env entries now left name).2 ≤ left ∧
      ((search env entries now left name).1 = .looped ∨ 0 < (search env entries now left name).2) := by
  induction left generalizing name with
  | zero => exact ⟨Nat.le_refl 0, .inl rfl⟩
  | succ left ih =>
    unfold search
    split
    · exact ⟨Nat.le_refl _, .inr (Nat.succ_pos _)⟩
    split
    · exact ⟨Nat.le_refl _, .inr (Nat.succ_pos _)⟩
    split
    · exact ⟨Nat.le_refl _, .inr (Nat.succ_pos _)⟩
    split
    · next e i _ _ _ _ =>
      obtain ⟨hle, hpos⟩ := ih (e.aliasName env)
      exact ⟨Nat.le_succ_of_le hle, hpos⟩
    · exact ⟨Nat.le_refl _, .inr (Nat.succ_pos _)⟩

theorem start_restart {c : Caller} {sendRequest : Bool} {loopCount : Nat} (hc : c.task = some id)
    (h : start env sendRequest c i loopCount s = (.restart, s')) :
    ∃ t, s'.tasks id = some t ∧ t.loopCount = loopCount := by
  unfold start callerTask at h
  rw [hc] at h
  simp only at h
  split at h
  · cases h
  · split at h
    · cases h
      exact ⟨_, if_pos rfl, rfl⟩
    · split at h <;> cases h

theorem hostaddrInt_restart {c : Caller} {sendRequest : Bool} {name : List Byte} (hc : c.task = some id)
    (h : hostaddrInt env sendRequest name c s = (.restart, s')) :
    ∃ t, s'.tasks id = some t ∧ c.loopCount ≤ t.loopCount ∧ t.loopCount < maxNameCycles := by
  unfold hostaddrInt at h
  split at h
  · cases h
  split at h
  · cases h
  simp only at h
  obtain ⟨hle, hpos⟩ := search_left env s.tock.entries (env.time s.tick) (maxNameCycles - c.loopCount) name
  generalize search env s.tock.entries (env.time s.tick) (maxNameCycles - c.loopCount) name = found at h hle hpos
  obtain ⟨found, left⟩ := found
  have hrestart : ∀ s₀ i₀, found ≠ .looped →
      start env sendRequest c i₀ (maxNameCycles - left) s₀ = (.restart, s') →
      ∃ t, s'.tasks id = some t ∧ c.loopCount ≤ t.loopCount ∧ t.loopCount < maxNameCycles := by
    intro s₀ i₀ hfound hstart
    obtain ⟨t, ht, hcount⟩ := start_restart hc hstart
    have hleft : 0 < left := hpos.resolve_left hfound
    refine ⟨t, ht, ?_, ?_⟩ <;> omega
  cases found with
  | hit addrs => cases h
  | looped => cases h
  | busy e i =>
    simp only [enqueue] at h
    split at h
    · cases h
    · split at h <;> cases h
  | stale e i => exact hrestart _ _ nofun h
  | miss name =>
    simp only at h
    split at h
    · cases h
    · exact hrestart _ _ nofun h

theorem rrFindLoop_count {msgSize : Nat} {name : List Byte} {rr : RrData} {offset' count' : Nat} :
    ∀ {count offset : Nat}, rrFindLoop buf msgSize name count offset = .ok (rr, offset', count') →
      count' < count
  | 0, _, h => nomatch h
  | count + 1, offset, h => by
    unfold rrFindLoop at h
    split at h
    · cases h
    split at h
    · cases h
      exact Nat.lt_succ_self _
    · exact Nat.lt_succ_of_lt (rrFindLoop_count h)

theorem rrFind_count {msgSize offset count : Nat} {name : List Byte} {rr : RrData} {offset' count' : Nat}
    (h : rrFind buf msgSize offset count name = .ok (rr, offset', count')) : count' < count := by
  unfold rrFind at h
  split at h
  · cases h
  split at h
  · cases h
  · exact rrFindLoop_count h

def answerSteps (info : MsgInfo) (t : Task) (scan : Scan) : Nat :=
  (maxNameCycles - t.loopCount) * (info.rrCount + 1) + scan.count

/-- More fuel changes nothing. -/
theorem answerLoop_fuel {n m : Nat} {scan : Scan} (ht : s.tasks id = some t)
    (hn : answerSteps info t scan < n) (hm : answerSteps info t scan < m) :
    answerLoop env buf transferedSize info now id n scan s =
      answerLoop env buf transferedSize info now id m scan s := by
  induction n generalizing m s scan t with
  | zero => omega
  | succ n ih =>
    obtain ⟨m, rfl⟩ : ∃ k, m = k + 1 := ⟨m - 1, by omega⟩
    unfold answerLoop
    rw [ht]
    simp only
    split
    · rfl
    split
    · rfl
    split
    · rfl
    next rr offset count hfind =>
    have hcount := rrFind_count hfind
    have hsteps : ∀ scan' : Scan, scan'.count = count → answerSteps info t scan' < n ∧
        answerSteps info t scan' < m := by
      intro scan' hscan
      unfold answerSteps at hn hm ⊢
      rw [hscan]
      omega
    split
    · obtain ⟨h1, h2⟩ := hsteps ⟨offset + rr.size, count, scan.addrs, scan.restarted⟩ rfl
      exact ih ht h1 h2
    · next a _ =>
      obtain ⟨h1, h2⟩ := hsteps ⟨offset + rr.size, count, scan.addrs ++ [a], scan.restarted⟩ rfl
      exact ih ht h1 h2
    split
    · rfl
    split
    · next s'' heq =>
      obtain ⟨t', ht', hle, hlt⟩ := hostaddrInt_restart rfl heq
      -- a cycle is taken, which is worth a whole pass
      have hcycle : answerSteps info t' ⟨info.anOff, info.rrCount, [], true⟩ < answerSteps info t scan := by
        have hle' : t.loopCount + 1 ≤ t'.loopCount := hle
        have hmul : (maxNameCycles - t'.loopCount + 1) * (info.rrCount + 1) ≤
            (maxNameCycles - t.loopCount) * (info.rrCount + 1) := Nat.mul_le_mul_right _ (by omega)
        rw [Nat.add_mul, Nat.one_mul] at hmul
        unfold answerSteps
        simp only
        omega
      exact ih ht' (by omega) (by omega)
    · rfl

theorem answerLoop_answerFuel {m : Nat} {scan : Scan} (ht : s.tasks id = some t) (hscan : scan.count = info.rrCount)
    (hm : answerFuel info ≤ m) :
    answerLoop env buf transferedSize info now id (answerFuel info) scan s =
      answerLoop env buf transferedSize info now id m scan s := by
  have hmul : (maxNameCycles - t.loopCount) * (info.rrCount + 1) ≤ maxNameCycles * (info.rrCount + 1) :=
    Nat.mul_le_mul_right _ (Nat.sub_le ..)
  have hfuel : answerFuel info = maxNameCycles * (info.rrCount + 1) + maxNameCycles + 2 * (info.rrCount + 2) := by
    rw [answerFuel, Nat.add_mul, Nat.mul_succ]
  have hsteps : answerSteps info t scan < answerFuel info := by
    unfold answerSteps
    omega
  exact answerLoop_fuel ht hsteps (by omega)

/-! ## The books of a run -/

/-- No entry has been given up. -/
def NoAbandon (s : Resolver) : Prop := ∀ i, .abandon i ∉ s.log

/-- An entry that is being updated has one task that updates it, and a task that waits does so in one
place of the queue of such an entry. -/
structure Kept (s : Resolver) : Prop where
  updating : ∀ (i : Nat) (e : Entry), s.entries[i]? = some e → e.updating = true →
    ∃! id, ∃ t, s.tasks id = some t ∧ t.cacheEntry = some i ∧ t.queued = false
  queued : ∀ id t, s.tasks id = some t → t.queued = true →
    ∃ (i : Nat) (e : Entry), s.entries[i]? = some e ∧ e.updating = true ∧ e.task.count id = 1 ∧
      ∀ (j : Nat) (e' : Entry), s.entries[j]? = some e' → id ∈ e'.task → j = i

theorem sum_map_eq_one {α : Type} {w : α → Nat} {l : List α} (h : (l.map w).sum = 1) :
    ∃ (i : Nat) (a : α), l[i]? = some a ∧ w a = 1 ∧ ∀ (j : Nat) (b : α), l[j]? = some b → w b ≠ 0 → j = i := by
  induction l with
  | nil => cases h
  | cons x l ih =>
    rw [List.map_cons, List.sum_cons] at h
    by_cases hx : w x = 0
    · obtain ⟨i, a, ha, hone, hunique⟩ := ih (by omega)
      refine ⟨i + 1, a, ha, hone, fun j b hb hne => ?_⟩
      cases j with
      | zero =>
        obtain rfl := Option.some.inj hb
        exact absurd hx hne
      | succ j => rw [hunique j b hb hne]
    · have hrest : (l.map w).sum = 0 := by omega
      refine ⟨0, x, rfl, by omega, fun j b hb hne => ?_⟩
      cases j with
      | zero => rfl
      | succ j =>
        have hmem : w b ∈ l.map w := List.mem_map_of_mem (List.mem_of_getElem? hb)
        have hle := List.le_sum_of_mem hmem
        omega

theorem entryOf_eq_some (h : s.entryOf id = some i) : ∃ t, s.tasks id = some t ∧ t.cacheEntry = some i :=
  Option.bind_eq_some_iff.mp h

theorem Book.updater {e : Entry} (h : Book s {}) (habandon : NoAbandon s) (he : s.entries[i]? = some e)
    (hupd : e.updating = true) :
    ∃ id t, s.entryOf id = some i ∧ s.tasks id = some t ∧ t.cacheEntry = some i ∧ t.queued = false := by
  have hupdating : s.isUpdating i = true := by rw [isUpdating_of_getElem? he, hupd]
  have hloose : ¬ Focus.Loose {} s i := by
    rintro (hi | hi)
    · cases hi
    · exact habandon i hi
  obtain ⟨id, hentry, -⟩ := h.owner i hupdating hloose
  obtain ⟨t, ht, hcache⟩ := entryOf_eq_some hentry
  have hq := h.calm id i hentry
  rw [isQueued_of_tasks ht] at hq
  exact ⟨id, t, hentry, ht, hcache, hq⟩

theorem Book.queue (h : Book s {}) (ht : s.tasks id = some t) (hqueued : t.queued = true) :
    ∃ (i : Nat) (e : Entry), s.entries[i]? = some e ∧ e.updating = true ∧ e.task.count id = 1 ∧
      ∀ (j : Nat) (e' : Entry), s.entries[j]? = some e' → id ∈ e'.task → j = i := by
  have hone : s.waits id = 1 := by
    have hwaits := h.waits id
    rwa [isQueued_of_tasks ht, hqueued, List.count_nil, Nat.add_zero] at hwaits
  obtain ⟨i, e, he, hcount, hunique⟩ := sum_map_eq_one hone
  refine ⟨i, e, he, ?_, hcount, fun j e' he' hmem => hunique j e' he' ?_⟩
  · rw [← isUpdating_of_getElem? he]
    by_contra hidle
    have hempty := h.idle i (Bool.eq_false_iff.mpr hidle)
    rw [queueOf_of_getElem? he] at hempty
    rw [hempty, List.count_nil] at hcount
    cases hcount
  · exact Nat.ne_of_gt (List.count_pos_iff.mpr hmem)

theorem Book.kept_iff (h : Book s {}) : Kept s ↔ NoAbandon s := by
  constructor
  · intro hkept i hi
    obtain ⟨hupdating, hnone⟩ := h.loose i (.inr hi)
    obtain ⟨e, he, hupd⟩ := (Option.any_eq_true ..).mp hupdating
    obtain ⟨id, ⟨t, ht, hentry, -⟩, -⟩ := hkept.updating i e he hupd
    exact nomatch hnone id (by rw [entryOf_of_tasks ht, hentry])
  · intro habandon
    refine ⟨fun i e he hupd => ?_, fun id t ht hqueued => h.queue ht hqueued⟩
    obtain ⟨id, t, hentry, ht, hcache, hq⟩ := h.updater habandon he hupd
    refine ⟨id, ⟨t, ht, hcache, hq⟩, ?_⟩
    rintro id' ⟨t', ht', hcache', -⟩
    have hentry' : s.entryOf id' = some i := by rw [entryOf_of_tasks ht', hcache']
    exact h.unique id' id i hentry' hentry nofun nofun

/-- In a run that uses no task without an entry, the books are kept exactly when no entry is given
up. -/
theorem run_kept_iff (env : Env) (events : List Event) (hstray : NoStray (run env events)) :
    Kept (run env events) ↔ NoAbandon (run env events) :=
  (run_ok env events hstray).1.kept_iff

/-- One server, and a system that refuses nothing. -/
def calmEnv : Env where
  dnsAddrs := [.inet 0x08080808#32 53#16]
  retryCount := 1
  negCache := 60
  time := fun _ => 0
  entryAlloc := fun _ => true
  taskAlloc := fun _ => true
  timerAdd := fun _ => none
  sendto := fun _ => none
  realloc := fun _ => true
  addrsAsName := fun _ => []
  nameAsAddrs := fun _ => []

theorem run_kept_waiting : Kept (run calmEnv [.resolve [0x61#8], .resolve [0x41#8]]) := by
  have hlog : (run calmEnv [.resolve [0x61#8], .resolve [0x41#8]]).log =
      [.accept 1, .query 0 [0x61#8], .accept 0] := by decide +kernel
  have hstray : NoStray (run calmEnv [.resolve [0x61#8], .resolve [0x41#8]]) := by
    intro id h
    rw [hlog] at h
    simp at h
  refine (run_kept_iff calmEnv _ hstray).mpr fun i h => ?_
  rw [hlog] at h
  simp at h

/-- The network is down: the only task of the name is freed, and the entry stays flagged. -/
theorem run_not_kept : ¬ ∀ env events, Kept (run env events) := by
  intro hkept
  have hlog : (run { calmEnv with sendto := fun _ => some .ehostdown } [.resolve [0x61#8]]).log =
      [.abandon 0, .release 0, .callback 0 (some .ehostdown) [], .accept 0] := by decide +kernel
  have hstray : NoStray (run { calmEnv with sendto := fun _ => some .ehostdown } [.resolve [0x61#8]]) := by
    intro id h
    rw [hlog] at h
    simp at h
  have habandon := (run_ok _ _ hstray).1.kept_iff.mp (hkept _ _) 0
  rw [hlog] at habandon
  exact habandon List.mem_cons_self

/-! ## The calls of a run -/

/-- Every request waits with its task, or is settled and has no task. -/
def Answered (s : Resolver) : Prop :=
  ∀ req, req < s.requests →
    (∃! id, ∃ t, s.tasks id = some t ∧ t.udata = req ∧ s.history req = t.history) ∨
    (Settled req (s.history req) ∧ ∀ id t, s.tasks id = some t → t.udata ≠ req)

end Dns.Resolv
