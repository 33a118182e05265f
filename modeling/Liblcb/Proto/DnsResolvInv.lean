import Liblcb.Proto.DnsResolvBook

/-!
# What the functions of the resolver keep

The books hold as long as no task without an entry is used, the calls as long as no callback is held
back and no cancelled task is dropped besides.  One lemma for each function says from which focus to
which it goes.
-/

namespace Dns.Resolv

open Mem Resolver

/-- No task without a cache entry has been used. -/
def NoStray (s : Resolver) : Prop := ∀ id, .stray id ∉ s.log

/-- No callback has been held back, and no cancelled task has been dropped. -/
def Told (s : Resolver) : Prop := ∀ req, .silent req ∉ s.log ∧ .forget req ∉ s.log

def Ok (s : Resolver) (f : Focus) : Prop := NoStray s → Book s f ∧ (Told s → Calls s f)

variable {s s' : Resolver} {f f' : Focus} {id : TaskId} {t t' : Task} {i : Nat} {e : Entry}

theorem noStray_emit {item : Trace} (h : NoStray (s.emit item)) : NoStray s :=
  fun id hid => h id (List.mem_cons_of_mem _ hid)

theorem told_emit {item : Trace} (h : Told (s.emit item)) : Told s :=
  fun req => ⟨fun hs => (h req).1 (List.mem_cons_of_mem _ hs),
    fun hf => (h req).2 (List.mem_cons_of_mem _ hf)⟩

namespace Ok

theorem congr (h : Ok s f) (htasks : s'.tasks = s.tasks) (hentries : s'.entries = s.entries)
    (hrequests : s'.requests = s.requests) (hlog : s'.log = s.log) : Ok s' f := by
  intro hstray
  have hstray' : NoStray s := by rwa [NoStray, hlog] at hstray
  obtain ⟨hbook, hcalls⟩ := h hstray'
  refine ⟨hbook.frame htasks hentries fun i => by rw [hlog], fun htold => ?_⟩
  rw [Told, hlog] at htold
  exact (hcalls htold).frame htasks hrequests (history_of_log hlog) rfl fun _ => id

theorem stray (s : Resolver) (f : Focus) (id : TaskId) : Ok (s.emit (.stray id)) f :=
  fun h => absurd List.mem_cons_self (h id)

theorem emit {item : Trace} (h : Ok s f) (habout : item.about = none) (habandon : ∀ i, item ≠ .abandon i) :
    Ok (s.emit item) f := by
  intro hstray
  obtain ⟨hbook, hcalls⟩ := h (noStray_emit hstray)
  refine ⟨hbook.emit habandon, fun htold => ?_⟩
  refine (hcalls (told_emit htold)).frame rfl rfl (fun req => ?_) rfl fun _ => id
  rw [history_emit, habout, if_neg nofun]

end Ok

/-! ## The caller -/

/-- The caller of `dns_resolv_hostaddr_int` is a new request, or the task in hand. -/
structure Serves (s : Resolver) (f : Focus) (c : Caller) : Prop where
  sending : f.sending = none
  handed : ∀ id, f.handed = some id → ∃ t, f.cur = some (id, t)
  who : (c.task = none ∧ f.hand = none ∧ f.asking = some c.udata) ∨
    ∃ id t, c.task = some id ∧ f.hand = some id ∧ f.asking = none ∧ s.tasks id = some t ∧
      t.udata = c.udata ∧ t.cbFunc = c.cbFunc

def Focus.served (f : Focus) : Focus := { f with hand := none, asking := none }

variable {c : Caller}

theorem Serves.congr (h : Serves s f c) (htasks : s'.tasks = s.tasks) (hf : f'.sending = f.sending)
    (hhanded : f'.handed = f.handed) (hcur : f'.cur = f.cur) (hhand : f'.hand = f.hand)
    (hasking : f'.asking = f.asking) : Serves s' f' c := by
  obtain ⟨h1, h2, h3⟩ := h
  constructor <;> simp only [htasks, hf, hhanded, hcur, hhand, hasking] <;> assumption

theorem log_taskFree (id : Option TaskId) (s : Resolver) :
    (taskFree id s).log = s.log ∨ ∃ req, (taskFree id s).log = .release req :: s.log := by
  unfold taskFree
  split
  · exact .inl rfl
  · split
    · exact .inl rfl
    · next t _ => exact .inr ⟨t.udata, rfl⟩

theorem noStray_taskFree {id : Option TaskId} (h : NoStray (taskFree id s)) : NoStray s := by
  intro id' hid'
  apply h id'
  rcases log_taskFree id s with hlog | ⟨req, hlog⟩
  · rwa [hlog]
  · rw [hlog]
    exact List.mem_cons_of_mem _ hid'

theorem told_taskFree {id : Option TaskId} (h : Told (taskFree id s)) : Told s := by
  rcases log_taskFree id s with hlog | ⟨req, hlog⟩
  · rwa [Told, hlog] at h
  · intro req'
    rw [Told, hlog] at h
    exact ⟨fun hs => (h req').1 (List.mem_cons_of_mem _ hs),
      fun hf => (h req').2 (List.mem_cons_of_mem _ hf)⟩

theorem Book.served (h : Book s f) (hs : Serves s f c) : Book (Resolv.taskFree c.task s) f.served := by
  rcases hs.who with ⟨hnone, -, -⟩ | ⟨id, t, htask, hhand, -, ht, -, -⟩
  · rw [hnone]
    exact h.refocus rfl rfl rfl nofun h.cur
  · rw [htask]
    obtain ⟨hentry, hq, hhanded, hcur⟩ := h.hand id hhand
    refine h.taskFree ht hq rfl rfl hs.sending ?_ ?_ ?_
    · intro id' t' hcur'
      refine ⟨hcur', ?_⟩
      rintro rfl
      exact hcur t' hcur'
    · exact fun id' _ => Iff.rfl
    · intro j
      rw [hentry]
      exact ⟨.inl, fun h => h.elim (fun h => h) fun h => nomatch h.1⟩

theorem Focus.Holds.served (h : f.Holds id) (hhand : f.hand ≠ some id) : f.served.Holds id := by
  rcases h with hid | hid
  · exact absurd hid hhand
  · exact .inr hid

theorem reply_ok (h : Ok s f) (hs : Serves s f c) (hcb : c.cbFunc = true) (error : Option Errno)
    (addrs : List (Family × List Byte)) :
    Ok (taskFree c.task (s.emit (.callback c.udata error addrs))) f.served := by
  intro hstray
  obtain ⟨hbook, hcalls⟩ := h (noStray_emit (noStray_taskFree hstray))
  have hbook' : Book (s.emit (.callback c.udata error addrs)) f := hbook.emit nofun
  have hs' : Serves (s.emit (.callback c.udata error addrs)) f c := hs.congr rfl rfl rfl rfl rfl rfl
  refine ⟨hbook'.served hs', fun htold => ?_⟩
  have hcalls := hcalls (told_emit (told_taskFree htold))
  rcases hs.who with ⟨hnone, hhand, hasking⟩ | ⟨id, t, htask, hhand, hasking, ht, hudata, hcb'⟩
  · rw [hnone]
    refine (hcalls.answer hasking error addrs).frame rfl rfl (fun _ => rfl) rfl fun id hid => ?_
    exact Focus.Holds.served hid (by rw [hhand]; nofun)
  · rw [htask, ← hudata]
    refine hcalls.callback ht (hcb'.trans hcb) error addrs hasking.symm fun id' hne hid => ?_
    exact hid.served (by rw [hhand]; exact fun h => hne (Option.some.inj h).symm)

/-- What `dns_resolv_hostaddr_int` leaves: the caller is done with, or it is the task of the event again
and has a new entry to update. -/
def Outcome (sendRequest : Bool) (c : Caller) (g : Focus) : Ret × Resolver → Prop
  | (.restart, s) => sendRequest = false ∧
      ∀ id, c.task = some id → ∃ t, s.tasks id = some t ∧ Ok s { cur := some (id, t) }
  | (.ok, s) | (.error _, s) => Ok s g

theorem errOut_ok (h : Ok s f) (hs : Serves s f c) (hcb : c.cbFunc = true) (sendRequest : Bool)
    (error : Errno) : Ok (errOut sendRequest error c s).2 f.served := by
  cases sendRequest with
  | true => exact reply_ok h hs hcb (some error) []
  | false =>
    intro hstray
    obtain ⟨hbook, -⟩ := h (noStray_emit (noStray_taskFree hstray))
    have hbook' : Book (s.emit (.silent c.udata)) f := hbook.emit nofun
    refine ⟨hbook'.served (hs.congr rfl rfl rfl rfl rfl rfl), fun htold => ?_⟩
    exact absurd List.mem_cons_self (told_taskFree htold c.udata).1

/-! ## A task for the caller -/

variable {env : Env}

/-- What a task has when it is in hand. -/
structure InHand (s : Resolver) (f : Focus) (c : Caller) (id : TaskId) (t : Task) : Prop where
  ok : Ok s { f with hand := some id, asking := none }
  task : s.tasks id = some t
  udata : t.udata = c.udata
  cbFunc : t.cbFunc = c.cbFunc

variable (env) in
theorem taskAlloc_ok (h : Ok s f) (hs : Serves s f c) (hhand : f.hand = none)
    (hasking : f.asking = some c.udata) (hcb : c.cbFunc = true) :
    (∃ error s', taskAlloc env c.udata s = (.error error, s') ∧ Ok s' f ∧ Serves s' f c ∧ s'.entries = s.entries) ∨
    (∃ id t s', taskAlloc env c.udata s = (.ok id, s') ∧ InHand s' f c id t ∧ s'.entries = s.entries) := by
  unfold taskAlloc
  split
  · exact .inl ⟨_, _, rfl, h, hs, rfl⟩
  simp only
  set id := slotScan s (2 ^ 16) s.tasksIndex
  split
  · exact .inl ⟨_, _, rfl, h, hs, rfl⟩
  next hfree =>
  have hnone : s.tasks id = none := Option.not_isSome_iff_eq_none.mp hfree
  split
  · exact .inl ⟨_, _, rfl, h.congr rfl rfl rfl rfl, hs.congr rfl rfl rfl rfl rfl rfl, rfl⟩
  split
  · exact .inl ⟨_, _, rfl, h.congr rfl rfl rfl rfl, hs.congr rfl rfl rfl rfl rfl rfl, rfl⟩
  · have hsame : Ok { s.tock.tock with tasksIndex := id, tasksCount := s.tasksCount + 1 } f :=
      h.congr rfl rfl rfl rfl
    refine .inr ⟨id, _, _, rfl, ⟨fun hstray => ?_, Function.update_self .., rfl, hcb.symm⟩, rfl⟩
    obtain ⟨hbook, hcalls⟩ := hsame hstray
    have hhanded : f.handed ≠ some id := by
      intro hid
      obtain ⟨t, hcur⟩ := hs.handed id hid
      have htask : s.tasks id = some t := (hbook.cur id t hcur).1
      rw [hnone] at htask
      cases htask
    exact ⟨hbook.alloc hnone hhanded rfl rfl rfl,
      fun htold => (hcalls htold).alloc hasking hhand hnone rfl⟩

variable (env) in
theorem callerTask_ok (h : Ok s f) (hs : Serves s f c) (hcb : c.cbFunc = true) :
    (∃ error s', callerTask env c s = (.error error, s') ∧ Ok s' f ∧ Serves s' f c ∧ s'.entries = s.entries) ∨
    (∃ id t s', callerTask env c s = (.ok id, s') ∧ InHand s' f c id t ∧ s'.entries = s.entries ∧
      ∀ id', c.task = some id' → id' = id) := by
  unfold callerTask
  rcases hs.who with ⟨hnone, hhand, hasking⟩ | ⟨id, t, htask, hhand, hasking, ht, hudata, hcb'⟩
  · rw [hnone]
    rcases taskAlloc_ok env h hs hhand hasking hcb with hfail | ⟨id, t, s', heq, hin, hentries⟩
    · exact .inl hfail
    · exact .inr ⟨id, t, s', heq, hin, hentries, nofun⟩
  · rw [htask]
    refine .inr ⟨id, t, s, rfl, ⟨?_, ht, hudata, hcb'⟩, rfl, fun id' h => (Option.some.inj h).symm⟩
    have hsame : { f with hand := some id, asking := none } = f := by
      rw [← hhand, ← hasking]
    rwa [hsame]

/-! ## The query -/

theorem send_cases (env : Env) (ht : s.tasks id = some t) :
    (t.cacheEntry.isSome ∧ ∃ srv name, send env id s =
      (none, (s.tock.emit (.query srv name)).setTask id { t with timer := true })) ∨
    (∃ error, send env id s = (some error, s)) ∨ (∃ error, send env id s = (some error, s.tock)) ∨
    (∃ error, send env id s = (some error, s.emit (.stray id))) := by
  unfold send
  rw [ht]
  simp only
  split
  · exact .inr (.inl ⟨_, rfl⟩)
  split
  · exact .inr (.inr (.inr ⟨_, rfl⟩))
  next e he =>
  obtain ⟨i, hi, -⟩ := Option.bind_eq_some_iff.mp he
  split
  · exact .inr (.inr (.inl ⟨_, rfl⟩))
  · exact .inl ⟨by rw [hi, Option.isSome_some], _, _, rfl⟩

theorem sent_ok (h : Ok s f) (ht : s.tasks id = some t) (hsome : t.cacheEntry.isSome) (srv : Nat) (name : List Byte)
    (hf : f' = { f with sending := none, cur := f'.cur })
    (hcur : f'.cur = none ∨ f.sending = some id ∧ f'.cur = f.cur)
    (hholds : ∀ id', id' ≠ id → f.Holds id' → f'.Holds id') :
    Ok ((s.tock.emit (.query srv name)).setTask id { t with timer := true }) f' := by
  have hsame : Ok (s.tock.emit (.query srv name)) f :=
    Ok.emit (h.congr rfl rfl rfl rfl) rfl nofun
  intro hstray
  obtain ⟨hbook, hcalls⟩ := hsame hstray
  have hold : ∀ id' t', f'.cur = some (id', t') → f.cur = some (id', t') ∧ id' ≠ id := by
    intro id' t' hid'
    rcases hcur with hnone | ⟨hsending, hsame⟩
    · rw [hnone] at hid'
      cases hid'
    · rw [hsame] at hid'
      refine ⟨hid', ?_⟩
      rintro rfl
      exact (hbook.cur id' t' hid').2.2.2 hsending
  constructor
  · have hfocus : Book (s.tock.emit (.query srv name)) f' := by
      rw [hf]
      refine hbook.refocus rfl rfl rfl ?_ ?_
      · exact fun id' hid' => ⟨hid', fun t' ht' => (hbook.hand id' hid').2.2.2 t' (hold id' t' ht').1⟩
      · intro id' t' hid'
        obtain ⟨htask, hsome, htimer, -⟩ := hbook.cur id' t' (hold id' t' hid').1
        exact ⟨htask, hsome, htimer, nofun⟩
    exact hfocus.setTask ht rfl rfl (fun _ => hsome) fun t' ht' => (hold id t' ht').2 rfl
  · intro htold
    exact (hcalls htold).setTask ht rfl rfl (by rw [hf]) hholds (.inr (.inl rfl))

theorem not_sent_ok (h : Ok s f) (ht : s.tasks id = some t) {error : Errno}
    (hsend : send env id s = (some error, s')) : Ok s' f ∧ s'.tasks = s.tasks := by
  rcases send_cases env ht with ⟨-, srv, name, hs⟩ | ⟨error', hs⟩ | ⟨error', hs⟩ | ⟨error', hs⟩
  · rw [hs] at hsend
    cases hsend
  · rw [hs] at hsend
    cases hsend
    exact ⟨h, rfl⟩
  · rw [hs] at hsend
    cases hsend
    exact ⟨h.congr rfl rfl rfl rfl, rfl⟩
  · rw [hs] at hsend
    cases hsend
    exact ⟨Ok.stray s f id, rfl⟩

/-! ## `dns_resolv_hostaddr_int` -/

theorem enqueue_ok (h : Ok s f) (hs : Serves s f c) (hcb : c.cbFunc = true) (he : s.entries[i]? = some e)
    (hupdating : e.updating = true) (sendRequest : Bool) (loopCount : Nat) :
    Outcome sendRequest c f.served (enqueue env sendRequest c e i loopCount s) := by
  unfold enqueue
  rcases callerTask_ok env h hs hcb with
    ⟨error, s', heq, hok, hs', -⟩ | ⟨id, t, s', heq, hin, hentries, -⟩
  · rw [heq]
    exact errOut_ok hok hs' hcb sendRequest error
  · rw [heq]
    simp only
    rw [hin.task]
    simp only [Outcome]
    set t' : Task := { t with timeouts := 0, curSrvIdx := 0, loopCount } with ht'
    intro hstray
    obtain ⟨hbook, hcalls⟩ := hin.ok hstray
    have he' : s'.entries[i]? = some e := by rw [hentries, he]
    refine ⟨hbook.taskNAdd rfl hin.task rfl hupdating he', fun htold => ?_⟩
    have hwait : Calls (s'.setTask id { t' with cacheEntry := none, queued := true }) f.served := by
      refine (hcalls htold).setTask hin.task rfl rfl rfl (fun id' hne hid => ?_) (.inl rfl)
      rcases hid with hid | hid
      · exact absurd (Option.some.inj hid).symm hne
      · exact .inr hid
    exact hwait.frame rfl rfl (fun _ => rfl) rfl fun _ h => h

theorem abandon_ok (h : Ok s f) (hclaim : f.claim = some i) :
    Ok (s.emit (.abandon i)) { f with claim := none } := by
  intro hstray
  obtain ⟨hbook, hcalls⟩ := h (noStray_emit hstray)
  refine ⟨hbook.abandon hclaim, fun htold => ?_⟩
  refine (hcalls (told_emit htold)).frame rfl rfl (fun req => ?_) rfl fun _ h => h
  have habout : (Trace.abandon i).about = none := rfl
  rw [history_emit, habout, if_neg nofun]

theorem claimed_ok (hin : InHand s f c id t) (hsending : f.sending = none) (hclaim : f.claim = some i)
    (hcache : t'.cacheEntry = some i)
    (hqueued : t'.queued = t.queued) (hcb : t'.cbFunc = t.cbFunc) (hudata : t'.udata = t.udata) :
    Ok (s.setTask id t') { f.served with claim := none, sending := some id } := by
  intro hstray
  obtain ⟨hbook, hcalls⟩ := hin.ok hstray
  have hq : t'.queued = false := by
    rw [hqueued, ← isQueued_of_tasks hin.task]
    exact (hbook.hand id rfl).2.1
  refine ⟨hbook.start rfl hclaim hcache hq, fun htold => ?_⟩
  refine (hcalls htold).setTask hin.task hcb hudata rfl ?_ (.inr (.inr (.inr (.inl rfl))))
  intro id' hne hid
  rcases hid with hid | hid | hid
  · exact absurd (Option.some.inj hid).symm hne
  · rw [show _ = none from hsending] at hid
    cases hid
  · exact .inr (.inr hid)

theorem giveUp_ok (h : Ok s { f.served with claim := none, sending := some id }) (hsending : f.sending = none)
    (hhanded : ∀ id, f.handed = some id → ∃ t, f.cur = some (id, t)) (ht : s.tasks id = some t)
    (hcache : t.cacheEntry = some i) (hudata : t.udata = c.udata) (hcb : t.cbFunc = true) (error : Errno) :
    Ok ((errOut true error { c with task := some id } s).2.emit (.abandon i))
      { f.served with claim := none } := by
  -- The task goes with the call, so its entry is claimed by the call until the flag is seen to.
  have hfree : Ok (errOut true error { c with task := some id } s).2 { f.served with claim := some i } := by
    intro hstray
    obtain ⟨hbook, hcalls⟩ := h (noStray_emit (noStray_taskFree hstray))
    have hentry : s.entryOf id = some i := by rw [entryOf_of_tasks ht, hcache]
    have hcur : ∀ id' t', f.cur = some (id', t') → id' ≠ id := by
      rintro id' t' hcur rfl
      exact (hbook.cur id' t' hcur).2.2.2 rfl
    constructor
    · have hbook' : Book (s.emit (.callback c.udata (some error) [])) _ := hbook.emit nofun
      refine hbook'.taskFree ht (hbook.calm id i hentry) rfl rfl hsending ?_ (fun _ _ => Iff.rfl) ?_
      · exact fun id' t' h => ⟨h, hcur id' t' h⟩
      · intro j
        have hnot : f.handed ≠ some id := by
          intro hid
          obtain ⟨t', ht'⟩ := hhanded id hid
          exact hcur id t' ht' rfl
        constructor
        · rintro ⟨⟩
          exact .inr ⟨hentry, hnot⟩
        · rintro (hj | ⟨hj, -⟩)
          · cases hj
          · exact hentry.symm.trans hj
    · intro htold
      have hcalls := hcalls (told_emit (told_taskFree htold))
      rw [errOut, if_pos rfl, ← hudata]
      refine hcalls.callback ht hcb (some error) [] rfl fun id' hne hid => ?_
      rcases hid with hid | hid | hid
      · cases hid
      · exact absurd (Option.some.inj hid).symm hne
      · exact .inr (.inr hid)
  have habandon := abandon_ok hfree rfl
  exact habandon

variable (env) in
theorem start_ok (h : Ok s f) (hs : Serves s f c) (hcb : c.cbFunc = true) (hclaim : f.claim = some i)
    (sendRequest : Bool) (loopCount : Nat)
    (hrestart : sendRequest = false → ∀ id, c.task = some id → f = { hand := some id, claim := some i }) :
    Outcome sendRequest c { f.served with claim := none } (start env sendRequest c i loopCount s) := by
  unfold start
  rcases callerTask_ok env h hs hcb with
    ⟨error, s', heq, hok, hs', -⟩ | ⟨id, t, s', heq, hin, hentries, hid⟩
  · rw [heq]
    exact abandon_ok (errOut_ok hok hs' hcb sendRequest error) hclaim
  · rw [heq]
    simp only
    rw [hin.task]
    simp only
    set t' : Task := { t with cacheEntry := some i, timeouts := 0, curSrvIdx := 0, loopCount } with ht'
    have hstart : Ok (s'.setTask id t') { f.served with claim := none, sending := some id } :=
      claimed_ok hin hs.sending hclaim rfl rfl rfl rfl
    have htask : (s'.setTask id t').tasks id = some t' := by rw [tasks_setTask, if_pos rfl]
    cases sendRequest with
    | false =>
      rw [if_pos nofun]
      refine ⟨rfl, fun id' hid' => ?_⟩
      obtain rfl := hid id' hid'
      refine ⟨t', htask, fun hstray => ?_⟩
      -- in hand, the task has no timer
      have htimer : t'.timer = false := by
        obtain ⟨hbook, -⟩ := hin.ok hstray
        have hentry := (hbook.hand id' rfl).1
        rw [← hbook.timer id' hentry, isTimed_of_tasks hin.task]
      obtain ⟨hbook, hcalls⟩ := hstart hstray
      rw [hrestart rfl id' hid'] at hbook hcalls
      refine ⟨hbook.refocus rfl rfl rfl nofun ?_, fun htold => ?_⟩
      · intro id t ht
        cases ht
        exact ⟨htask, rfl, htimer, nofun⟩
      · refine (hcalls htold).frame rfl rfl (fun _ => rfl) rfl fun id hid => ?_
        rcases hid with hid | hid | hid
        · cases hid
        · cases hid
          exact .inr (.inr ⟨t', rfl⟩)
        · obtain ⟨t, ht⟩ := hid
          cases ht
    | true =>
      rw [if_neg (fun h => h rfl)]
      cases hsend : send env id (s'.setTask id t') with
      | mk error s'' =>
        cases error with
        | none =>
          rcases send_cases env htask with ⟨hsome, srv, name, hs'⟩ | ⟨_, hs'⟩ | ⟨_, hs'⟩ | ⟨_, hs'⟩
          · rw [hs'] at hsend
            cases hsend
            refine sent_ok hstart htask hsome srv name ?_ (.inr ⟨rfl, rfl⟩) ?_
            · rw [Focus.served, hs.sending]
            · intro id' hne hid
              rcases hid with hid | hid | hid
              · cases hid
              · exact absurd (Option.some.inj hid).symm hne
              · exact .inr (.inr hid)
          all_goals
            rw [hs'] at hsend
            cases hsend
        | some error =>
          obtain ⟨hok, htasks⟩ := not_sent_ok hstart htask hsend
          have htask' : s''.tasks id = some t' := by rw [htasks, htask]
          have hcb' : t'.cbFunc = true := by rw [← hcb, ← hin.cbFunc]
          exact giveUp_ok hok hs.sending hs.handed htask' rfl hin.udata hcb' error

theorem getElem?_of_lookup {entries : List Entry} {name : List Byte}
    (h : lookup entries name = some (e, i)) : entries[i]? = some e :=
  List.mem_zipIdx_iff_getElem?.mp (List.mem_of_find?_eq_some h)

/-- The entry the search stops at. -/
def Found.Stops (entries : List Entry) : Found → Prop
  | .busy e i => entries[i]? = some e ∧ e.updating = true
  | .stale e i => entries[i]? = some e ∧ e.updating = false
  | _ => True

theorem search_stops (env : Env) (entries : List Entry) (now : Int) (left : Nat) (name : List Byte) :
    (search env entries now left name).1.Stops entries := by
  induction left generalizing name with
  | zero => trivial
  | succ left ih =>
    unfold search
    split
    · trivial
    · next e i hlookup =>
      split
      · next hupdating => exact ⟨getElem?_of_lookup hlookup, hupdating⟩
      split
      · next hupdating _ => exact ⟨getElem?_of_lookup hlookup, Bool.eq_false_iff.mpr hupdating⟩
      split
      · exact ih _
      · trivial

theorem flag_ok (h : Ok s f) (hclaim : f.claim = none) (he : s.entries[i]? = some e)
    (hupdating : e.updating = false) :
    Ok (s.setEntry i { e with updating := true }) { f with claim := some i } := by
  intro hstray
  obtain ⟨hbook, hcalls⟩ := h hstray
  exact ⟨hbook.flag hclaim he hupdating rfl rfl,
    fun htold => (hcalls htold).frame rfl rfl (fun _ => rfl) rfl fun _ h => h⟩

theorem push_ok (h : Ok s f) (hclaim : f.claim = none) (hupdating : e.updating = true) (htask : e.task = []) :
    Ok { s with entries := s.entries ++ [e] } { f with claim := some s.entries.length } := by
  intro hstray
  obtain ⟨hbook, hcalls⟩ := h hstray
  exact ⟨hbook.push hclaim hupdating htask,
    fun htold => (hcalls htold).frame rfl rfl (fun _ => rfl) rfl fun _ h => h⟩

theorem cacheEntryAlloc_cases (env : Env) (name : List Byte) (s : Resolver) :
    (∃ error, cacheEntryAlloc env name s = (.error error, s)) ∨
    (∃ error, cacheEntryAlloc env name s = (.error error, s.tock)) ∨
    ∃ e, cacheEntryAlloc env name s = (.ok e, s.tock) ∧ e.task = [] := by
  unfold cacheEntryAlloc
  split
  · exact .inl ⟨_, rfl⟩
  split
  · exact .inr (.inl ⟨_, rfl⟩)
  · exact .inr (.inr ⟨_, rfl, rfl⟩)

variable (env) in
/-- `dns_resolv_hostaddr_int` for a caller. -/
theorem hostaddrInt_ok (h : Ok s f) (hs : Serves s f c) (hclaim : f.claim = none) (sendRequest : Bool)
    (name : List Byte)
    (hrestart : sendRequest = false → ∀ id, c.task = some id → f = { hand := some id }) :
    Outcome sendRequest c f.served (hostaddrInt env sendRequest name c s) := by
  have hserved : { f.served with claim := none } = f.served := by rw [Focus.served, ← hclaim]
  unfold hostaddrInt
  split
  · intro hstray
    obtain ⟨hbook, -⟩ := h (noStray_emit hstray)
    have hbook' : Book (s.emit (.forget c.udata)) f := hbook.emit nofun
    exact ⟨hbook'.refocus rfl rfl rfl nofun hbook'.cur,
      fun htold => absurd List.mem_cons_self (htold c.udata).2⟩
  next hcb =>
  rw [Decidable.not_not] at hcb
  split
  · exact errOut_ok h hs hcb sendRequest .einval
  simp only
  have htock : Ok s.tock f := h.congr rfl rfl rfl rfl
  have hs' : Serves s.tock f c := hs.congr rfl rfl rfl rfl rfl rfl
  have hstops := search_stops env s.tock.entries (env.time s.tick) (maxNameCycles - c.loopCount) name
  generalize search env s.tock.entries (env.time s.tick) (maxNameCycles - c.loopCount) name = found at hstops
  obtain ⟨found, left⟩ := found
  -- how a flagged entry goes on
  have hstart : ∀ (s' : Resolver) (i : Nat), Ok s' { f with claim := some i } →
      s'.tasks = s.tasks →
      Outcome sendRequest c f.served (start env sendRequest c i (maxNameCycles - left) s') := by
    intro s' i hok htasks
    have hserves : Serves s' { f with claim := some i } c := hs.congr htasks rfl rfl rfl rfl rfl
    have hdone := start_ok env hok hserves hcb rfl sendRequest (maxNameCycles - left)
      fun hfalse id hid => by rw [hrestart hfalse id hid]
    rw [← hserved]
    exact hdone
  cases found with
  | hit addrs => exact reply_ok htock hs' hcb none _
  | looped => exact errOut_ok htock hs' hcb sendRequest .eloop
  | busy e i => exact enqueue_ok htock hs' hcb hstops.1 hstops.2 sendRequest _
  | stale e i => exact hstart _ i (flag_ok htock hclaim hstops.1 hstops.2) rfl
  | miss name =>
    simp only
    rcases cacheEntryAlloc_cases env name s.tock with ⟨error, hfail⟩ | ⟨error, hfail⟩ | ⟨e, hnew, htask⟩
    · rw [hfail]
      exact errOut_ok htock hs' hcb sendRequest error
    · rw [hfail]
      have htock' : Ok s.tock.tock f := htock.congr rfl rfl rfl rfl
      have hs'' : Serves s.tock.tock f c := hs'.congr rfl rfl rfl rfl rfl rfl
      exact errOut_ok htock' hs'' hcb sendRequest error
    · rw [hnew]
      have htock' : Ok s.tock.tock f := htock.congr rfl rfl rfl rfl
      exact hstart _ _ (push_ok htock' hclaim rfl htask) rfl

/-! ## The queue of an entry -/

theorem Outcome.ok {g : Focus} {r : Ret × Resolver} (h : Outcome true c g r) : Ok r.2 g := by
  obtain ⟨ret, s⟩ := r
  cases ret with
  | ok => exact h
  | error error => exact h
  | restart => exact nomatch h.1

variable (env) in
theorem notify_ok {ids : List TaskId} (h : Ok s f) (hrest : f.rest = id :: ids) (hhand : f.hand = none)
    (hsending : f.sending = none) (hclaim : f.claim = none) (hasking : f.asking = none)
    (hhanded : ∀ id, f.handed = some id → ∃ t, f.cur = some (id, t)) (name : List Byte) :
    Ok (notify env name id s) { f with rest := ids } := by
  unfold notify
  cases ht : s.tasks id with
  | none => exact Ok.stray s _ id
  | some t =>
    have hwake : Ok (s.setTask id { t with queued := false }) { f with rest := ids, hand := some id } := by
      intro hstray
      obtain ⟨hbook, hcalls⟩ := h hstray
      refine ⟨hbook.wake hrest hhanded ht, fun htold => ?_⟩
      refine (hcalls htold).setTask ht rfl rfl rfl (fun id' hne hid => ?_) (.inr (.inr (.inl rfl)))
      rcases hid with hid | hid
      · rw [hhand] at hid
        cases hid
      · exact .inr hid
    have hserves : Serves (s.setTask id { t with queued := false })
        { f with rest := ids, hand := some id } (.ofTask id { t with queued := false }) := by
      refine ⟨hsending, hhanded, .inr ⟨id, { t with queued := false }, rfl, rfl, hasking, ?_, rfl, rfl⟩⟩
      rw [tasks_setTask, if_pos rfl]
    have hdone := (hostaddrInt_ok env hwake hserves hclaim true name nofun).ok
    rwa [Focus.served, ← hhand, ← hasking] at hdone

theorem taskNotifyChain_ok {ids : List TaskId} (h : Ok s f) (hrest : f.rest = ids) (hhand : f.hand = none)
    (hsending : f.sending = none) (hclaim : f.claim = none) (hasking : f.asking = none)
    (hhanded : ∀ id, f.handed = some id → ∃ t, f.cur = some (id, t)) (name : List Byte) :
    Ok (taskNotifyChain env name ids s) { f with rest := [] } := by
  induction ids generalizing s f with
  | nil =>
    rw [taskNotifyChain, ← hrest]
    exact h
  | cons id ids ih =>
    rw [taskNotifyChain]
    have hnext := notify_ok env h hrest hhand hsending hclaim hasking hhanded name
    have hdone := ih hnext rfl hhand hsending hclaim hasking hhanded
    exact hdone

theorem handOver_ok {e' : Entry} (h : Ok s { cur := some (id, t) }) (hi : t.cacheEntry = some i)
    (he : s.entries[i]? = some e) (hupdating : e'.updating = false) (htask : e'.task = []) (tick : Nat) :
    Ok { s.setEntry i e' with tick } { rest := e.task, cur := some (id, t), handed := some id } := by
  intro hstray
  obtain ⟨hbook, hcalls⟩ := h hstray
  have hover := hbook.handOver rfl rfl rfl rfl rfl hi he hupdating htask
  exact ⟨hover.frame rfl rfl fun _ => Iff.rfl,
    fun htold => (hcalls htold).frame rfl rfl (fun _ => rfl) rfl fun _ h => h⟩

variable (env) in
theorem cacheEntryDataAdd_ok (h : Ok s { cur := some (id, t) }) (new : Data) (validUntil : Int) :
    Ok (cacheEntryDataAdd env t.cacheEntry new validUntil s).2
      { cur := some (id, t), handed := some id } := by
  unfold cacheEntryDataAdd
  split
  · next hnone =>
    -- the books give the task an entry
    intro hstray
    obtain ⟨hbook, -⟩ := h hstray
    obtain ⟨i, hi, hentry, -⟩ := hbook.cur_entry rfl
    have hupdating := hbook.updating id i hentry nofun
    rw [hi, Option.bind_some, Option.map_eq_none_iff] at hnone
    rw [isUpdating, hnone] at hupdating
    cases hupdating
  · next i e hsome =>
    obtain ⟨i', hi, hget⟩ := Option.bind_eq_some_iff.mp hsome
    obtain ⟨e', he, heq⟩ := Option.map_eq_some_iff.mp hget
    obtain ⟨rfl, rfl⟩ := Prod.mk.inj heq
    simp only
    generalize cacheEntryUpdate env (env.time s.tick) new validUntil e' (s.tick + 1) = update
    exact taskNotifyChain_ok (handOver_ok h hi he rfl rfl _) rfl rfl rfl rfl rfl
      (fun id' hid' => ⟨t, by rw [Option.some.inj hid']⟩) e'.name

end Dns.Resolv
