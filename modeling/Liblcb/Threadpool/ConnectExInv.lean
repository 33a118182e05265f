import Liblcb.Threadpool.ConnectEx

/-!
# Runs of a connect task

As long as events come for sockets of the first address only, the task keeps its place: the addresses
are those of the schedule, the callback gets the address that is connected, and the end of the
schedule is told once.
-/

namespace ConnectEx

/-- Nothing final has been told to the caller. -/
def Quiet (log : List Act) : Prop := ∀ a ∈ log, a.isEnd = false ∧ a.isConnected = false

/-- The last thing told is final: no more tries, when the schedule has none, or the address of the
socket that is connected, which was the last one tried. -/
def Told (prms : ConnPrms) (log : List Act) : Prop :=
  ∃ a rest, log = a :: rest ∧ Quiet rest ∧
    ((a.isEnd = true ∧ a.isConnected = false ∧ schedule prms (attempts log).length = none) ∨
      ∃ i, a = .callback none (some i) i ∧ (attempts rest).head? = some i)

def Place (prms : ConnPrms) (c : Conf) : Prop :=
  match c.stage with
  | .creating => Due prms (attempts c.log).length c.task.offset c.task.totTransferedSize ∧
      c.task.ident = none
  | .failing .noMore => schedule prms (attempts c.log).length = none ∧ c.task.ident = none
  | .failing (.sys _) => ∃ i is, attempts c.log = i :: is ∧
      At prms is.length c.task.offset c.task.totTransferedSize ∧ c.task.ident = none
  | .retrying => At prms (attempts c.log).length c.task.offset c.task.totTransferedSize ∧
      c.task.ident = none
  | .waiting =>
    match c.task.ident with
    | none => At prms (attempts c.log).length c.task.offset c.task.totTransferedSize
    -- `tp_task_start` has cleared the address; the socket still knows it.
    | some i => c.task.totTransferedSize = 0 ∧
        ∃ is, attempts c.log = i :: is ∧ At prms is.length c.task.offset i
  | .ended => Told prms c.log

structure Inv (prms : ConnPrms) (c : Conf) : Prop where
  follows : Follows prms (attempts c.log)
  place : Place prms c
  quiet : c.stage ≠ .ended → Quiet c.log

variable {prms : ConnPrms} {c : Conf} {k : Nat}

theorem Quiet.cons {log : List Act} {a : Act} (h : Quiet log) (hend : a.isEnd = false)
    (hconn : a.isConnected = false) : Quiet (a :: log) := by
  intro b hb
  cases List.mem_cons.mp hb with
  | inl heq => exact heq ▸ ⟨hend, hconn⟩
  | inr hmem => exact h b hmem

theorem advance_ident (t : Task) : (advance prms t).ident = t.ident := by
  unfold advance
  split
  · rfl
  · rfl

theorem Inv.afterStart {t : Task} {skt : Option Nat} {r : Start × Task × List Act}
    (hfollows : Follows prms (attempts c.log)) (hquiet : Quiet c.log) (hident : t.ident = none)
    (hk : (attempts c.log).length = k) (hr : StartSpec prms k t skt r) :
    Inv prms (c.afterStart r) := by
  cases hr with
  | delay t' hat hsame =>
    refine ⟨hfollows, ?_, fun _ => hquiet⟩
    simp only [Place, Conf.afterStart, hsame, hident, List.nil_append, hk]
    exact hat
  | attempt t' hat hsame =>
    have hnext : Follows prms (t'.totTransferedSize :: attempts c.log) :=
      ⟨by rw [hk]; exact hat.schedule, hfollows⟩
    have hstill : Quiet (.attempt t'.totTransferedSize :: c.log) := hquiet.cons rfl rfl
    cases skt with
    | none =>
      refine ⟨hnext, ?_, fun _ => hstill⟩
      exact ⟨rfl, _, rfl, hk ▸ hat⟩
    | some errno =>
      refine ⟨hnext, ?_, fun _ => hstill⟩
      exact ⟨_, _, rfl, hk ▸ hat, hsame.trans hident⟩
  | noMore t' hnone hsame =>
    refine ⟨hfollows, ?_, fun _ => hquiet⟩
    exact ⟨hk ▸ hnone, hsame.trans hident⟩

theorem Inv.createPass (hn : 0 < prms.addrsCount) (h : Inv prms c) (hstage : c.stage = .creating)
    (skt : Option Nat) : Inv prms (createPass prms c skt) := by
  have hplace := h.place
  rw [Place, hstage] at hplace
  have hquiet := h.quiet (by rw [hstage]; decide)
  have hspec := startSpec hn skt hplace.1
  unfold ConnectEx.createPass
  generalize tpTaskConnectExStart prms c.task false skt = r at hspec
  have hafter := Inv.afterStart h.follows hquiet hplace.2 rfl hspec
  cases hspec with
  | delay t' hat hsame => exact hafter
  | attempt t' hat hsame =>
    cases skt with
    | none => exact hafter
    | some errno =>
      -- An immediate failure: create moves on by itself.
      refine ⟨hafter.follows, ?_, fun _ => hafter.quiet (by simp [Conf.afterStart, tryConnect])⟩
      exact ⟨hat.advance, (advance_ident t').trans (hsame.trans hplace.2)⟩
  | noMore t' hnone hsame =>
    refine ⟨h.follows, ?_, fun hne => absurd rfl hne⟩
    exact ⟨.createFails, c.log, rfl, hquiet, .inl ⟨rfl, rfl, hnone⟩⟩

theorem Inv.handlerPass (hn : 0 < prms.addrsCount) (h : Inv prms c) {error : Error}
    (hstage : c.stage = .failing error) (skt : Option Nat) :
    Inv prms (handlerPass prms c error skt) := by
  have hplace := h.place
  rw [Place, hstage] at hplace
  have hquiet := h.quiet (by rw [hstage]; exact fun h => nomatch h)
  unfold ConnectEx.handlerPass
  cases error with
  | noMore =>
    refine ⟨h.follows, ?_, fun hne => absurd rfl hne⟩
    exact ⟨_, c.log, rfl, hquiet, .inl ⟨rfl, rfl, hplace.1⟩⟩
  | sys errno =>
    obtain ⟨i, is, hlog, hat, hident⟩ := hplace
    have hkeep : (advance prms c.task).ident = none := (advance_ident c.task).trans hident
    have hspec := startSpec hn skt hat.advance
    rw [if_neg (by exact fun h => nomatch h)]
    by_cases hreport : (Error.sys errno) = .noMore ∨ c.task.afterEveryRead = true
    · rw [if_pos hreport]
      apply Inv.afterStart (c := { c with
        log := .callback (some (.sys errno)) c.task.ident c.task.totTransferedSize :: c.log })
        h.follows (hquiet.cons rfl rfl) hkeep _ hspec
      exact congrArg List.length hlog
    · rw [if_neg hreport]
      exact Inv.afterStart h.follows hquiet hkeep (congrArg List.length hlog) hspec

/-- No event comes for the socket of another address than the first. -/
def Conf.FirstOnly (c : Conf) : Prop := c.stage = .waiting → ∀ i, c.task.ident = some i → i = 0

theorem Inv.eventFails (h : Inv prms c) (hfirst : c.FirstOnly) (hstage : c.stage = .waiting) {i : Nat}
    (hident : c.task.ident = some i) (errno : Nat) : Inv prms (eventFails c (.sys errno)) := by
  have hplace := h.place
  rw [Place, hstage] at hplace
  dsimp only at hplace
  rw [hident] at hplace
  obtain ⟨htot, is, hlog, hat⟩ := hplace
  -- The field with the address is right only because the address is the first one.
  rw [hfirst hstage i hident] at hat
  refine ⟨h.follows, ?_, fun _ => h.quiet (by rw [hstage]; decide)⟩
  exact ⟨i, is, hlog, htot ▸ hat, rfl⟩

theorem Inv.step (hn : 0 < prms.addrsCount) (h : Inv prms c) (hfirst : c.FirstOnly) {input : Input}
    {c' : Conf} (hstep : step prms input c = some c') : Inv prms c' := by
  have hplace := h.place
  unfold ConnectEx.step at hstep
  unfold Place at hplace
  cases hstage : c.stage with
  | creating =>
    cases input with
    | pass skt =>
      simp only [hstage, Option.some.injEq] at hstep
      exact hstep ▸ h.createPass hn hstage skt
    | timer => simp [hstage] at hstep
    | write error => simp [hstage] at hstep
  | failing error =>
    cases input with
    | pass skt =>
      simp only [hstage, Option.some.injEq] at hstep
      exact hstep ▸ h.handlerPass hn hstage skt
    | timer => simp [hstage] at hstep
    | write error => simp [hstage] at hstep
  | retrying =>
    rw [hstage] at hplace
    cases input with
    | pass skt =>
      simp only [hstage, Option.some.injEq] at hstep
      have hspec : StartSpec prms (attempts c.log).length c.task skt
          (tpTaskConnectExStart prms c.task true skt) := .attempt c.task hplace.1 rfl
      exact hstep ▸ Inv.afterStart h.follows (h.quiet (by rw [hstage]; decide)) hplace.2 rfl hspec
    | timer => simp [hstage] at hstep
    | write error => simp [hstage] at hstep
  | waiting =>
    rw [hstage] at hplace
    have hquiet := h.quiet (by rw [hstage]; decide)
    cases input with
    | pass skt => simp [hstage] at hstep
    | timer =>
      cases hident : c.task.ident with
      | none =>
        simp only [hstage, hident, Option.some.injEq] at hstep
        rw [hident] at hplace
        subst hstep
        exact ⟨h.follows, ⟨hplace, hident⟩, fun _ => hquiet⟩
      -- the timer of an attempt is a timeout of it
      | some i =>
        simp only [hstage, hident, Option.some.injEq] at hstep
        exact hstep ▸ h.eventFails hfirst hstage hident 110
    | write error =>
      cases hident : c.task.ident with
      | none => simp [hstage, hident] at hstep
      | some i =>
        cases error with
        | some errno =>
          simp only [hstage, hident, Option.some.injEq] at hstep
          exact hstep ▸ h.eventFails hfirst hstage hident errno
        | none =>
          simp only [hstage, hident, Option.some.injEq] at hstep
          rw [hident] at hplace
          obtain ⟨htot, is, hlog, -⟩ := hplace
          -- connected
          have hzero := hfirst hstage i hident
          subst hstep
          refine ⟨h.follows, ?_, fun hne => absurd rfl hne⟩
          refine ⟨_, c.log, rfl, hquiet, .inr ⟨i, ?_, ?_⟩⟩
          · rw [htot, hzero]
          · rw [hlog]
            rfl
  | ended =>
    simp [hstage] at hstep

theorem inv_create (hn : 0 < prms.addrsCount) {afterEveryRead : Bool}
    (hcreate : tpTaskConnectExCreate prms afterEveryRead = some c) : Inv prms c := by
  unfold tpTaskConnectExCreate at hcreate
  split at hcreate
  · contradiction
  · cases hcreate
    exact ⟨trivial, ⟨Due.first hn, rfl⟩, fun _ _ ha => nomatch ha⟩

/-! ## What a caller sees -/

/-- The caller has been told once that there are no more tries, and the task is done. -/
def Exhausted (c : Conf) : Prop := c.stage = .ended ∧ c.log.countP Act.isEnd = 1

/-- A pass makes the attempt at address `i`, or a delay before it begins. -/
def Goes (prms : ConnPrms) (i : Nat) (skt : Option Nat) (c : Conf) : Prop :=
  ∃ c', step prms (.pass skt) c = some c' ∧
    (attempts c'.log = i :: attempts c.log ∨
      c'.stage = .waiting ∧ c'.task.ident = none ∧ attempts c'.log = attempts c.log)

/-- The promise of `tp_task_connect_ex_create`. -/
structure Scheduled (prms : ConnPrms) (c : Conf) : Prop where
  /-- the attempts are the first ones of the schedule -/
  follows : Follows prms (attempts c.log)
  /-- every index is one of an address -/
  below : ∀ i ∈ attempts c.log, i < prms.addrsCount
  /-- a connection is reported with the address of the socket, which is the last one tried -/
  connected : ∀ ident i, .callback none ident i ∈ c.log →
    ident = some i ∧ (attempts c.log).head? = some i
  /-- the end is told once at most -/
  once : c.log.countP Act.isEnd ≤ 1
  /-- it is told when the schedule is over, and nothing comes after it -/
  told : 0 < c.log.countP Act.isEnd →
    c.stage = .ended ∧ schedule prms (attempts c.log).length = none
  /-- a task that is done has connected or has told the end -/
  done : c.stage = .ended → Exhausted c ∨ ∃ i, .callback none (some i) i ∈ c.log
  /-- the task waits for the next attempt only while the schedule has one -/
  waits : c.stage = .waiting → c.task.ident = none →
    schedule prms (attempts c.log).length ≠ none
  /-- as long as the schedule has one, the next pass makes it or waits before it -/
  next : ∀ i, schedule prms (attempts c.log).length = some i → ∀ skt,
    (∀ error, c.stage = .failing error → Goes prms i skt c) ∧
    (c.stage = .creating → Goes prms i skt c) ∧
    (c.stage = .retrying →
      ∃ c', step prms (.pass skt) c = some c' ∧ attempts c'.log = i :: attempts c.log)
  /-- when the last attempt has failed, the end is told in two passes at most, with no attempt -/
  ends : schedule prms (attempts c.log).length = none → ∀ skt skt',
    (∀ error, c.stage = .failing error →
      ∃ c', step prms (.pass skt) c = some c' ∧ attempts c'.log = attempts c.log ∧
        (Exhausted c' ∨ ∃ c'', step prms (.pass skt') c' = some c'' ∧ Exhausted c'' ∧
          attempts c''.log = attempts c.log)) ∧
    (c.stage = .creating →
      ∃ c', step prms (.pass skt) c = some c' ∧ Exhausted c' ∧ attempts c'.log = attempts c.log)
  /-- a task that is done stays as it is -/
  final : c.stage = .ended → ∀ input, step prms input c = none

theorem Quiet.countP {log : List Act} (h : Quiet log) : log.countP Act.isEnd = 0 := by
  apply List.countP_eq_zero.mpr
  intro a ha
  rw [(h a ha).1]
  exact Bool.false_ne_true

theorem Quiet.once {log : List Act} {a : Act} (h : Quiet log) (ha : a.isEnd = true) :
    (a :: log).countP Act.isEnd = 1 := by
  rw [List.countP_cons, h.countP, ha]
  rfl

theorem Quiet.not_connected {log : List Act} (h : Quiet log) {ident : Option Nat} {i : Nat} :
    .callback none ident i ∉ log := by
  intro hmem
  have hconn := (h _ hmem).2
  contradiction

theorem Follows.below (hn : 0 < prms.addrsCount) {is : List Nat} (h : Follows prms is) :
    ∀ i ∈ is, i < prms.addrsCount := by
  induction is with
  | nil => exact fun _ hi => nomatch hi
  | cons j is ih =>
    intro i hi
    cases List.mem_cons.mp hi with
    | inr hmem => exact ih h.2 i hmem
    | inl heq =>
      have hj := h.1
      rw [heq]
      unfold schedule at hj
      split at hj
      · split at hj
        · cases hj
          exact Nat.mod_lt _ hn
        · contradiction
      · split at hj
        next hlt =>
          cases hj
          exact Nat.div_lt_of_lt_mul hlt
        next => contradiction

theorem start_of_none {t : Task} (hn : 0 < prms.addrsCount) (skt : Option Nat)
    (hdue : Due prms k t.offset t.totTransferedSize) (hnone : schedule prms k = none) :
    ∃ t', tpTaskConnectExStart prms t false skt = (.failed .noMore, t', []) := by
  have hspec := startSpec hn skt hdue
  generalize tpTaskConnectExStart prms t false skt = r at hspec
  cases hspec with
  | delay t' hat hsame => rw [hat.schedule] at hnone; contradiction
  | attempt t' hat hsame => rw [hat.schedule] at hnone; contradiction
  | noMore t' _ hsame => exact ⟨t', rfl⟩

theorem exhausted_failing {c : Conf} (hstage : c.stage = .failing .noMore) (hquiet : Quiet c.log)
    (skt : Option Nat) : ∃ c', step prms (.pass skt) c = some c' ∧ Exhausted c' ∧
      attempts c'.log = attempts c.log := by
  refine ⟨handlerPass prms c .noMore skt, by simp [step, hstage], ⟨rfl, ?_⟩, rfl⟩
  exact hquiet.once rfl

theorem attempts_report {log : List Act} {report : Prop} [Decidable report] {error : Option Error}
    {ident : Option Nat} {i : Nat} :
    attempts (if report then .callback error ident i :: log else log) = attempts log := by
  split
  · rfl
  · rfl

theorem Inv.next (hn : 0 < prms.addrsCount) (h : Inv prms c) {i : Nat}
    (hsome : schedule prms (attempts c.log).length = some i) (skt : Option Nat) :
    (∀ error, c.stage = .failing error → Goes prms i skt c) ∧
    (c.stage = .creating → Goes prms i skt c) ∧
    (c.stage = .retrying → ∃ c', ConnectEx.step prms (.pass skt) c = some c' ∧
      attempts c'.log = i :: attempts c.log) := by
  have hplace := h.place
  unfold Place at hplace
  refine ⟨?_, ?_, ?_⟩
  · intro error hstage
    rw [hstage] at hplace
    cases error with
    | noMore =>
      rw [hplace.1] at hsome
      contradiction
    | sys errno =>
      obtain ⟨j, is, hlog, hat, hident⟩ := hplace
      have hkeep : (advance prms c.task).ident = none := (advance_ident c.task).trans hident
      have hspec := startSpec hn skt hat.advance
      rw [hlog, List.length_cons] at hsome
      refine ⟨ConnectEx.handlerPass prms c (.sys errno) skt, by simp [ConnectEx.step, hstage], ?_⟩
      unfold ConnectEx.handlerPass
      rw [if_neg (by exact fun h => nomatch h)]
      -- a delay, an end or an attempt: the schedule tells which
      generalize tpTaskConnectExStart prms (advance prms c.task) false skt = r at hspec
      cases hspec with
      | delay t' hat' hsame => exact .inr ⟨rfl, hsame.trans hkeep, attempts_report⟩
      | noMore t' hnone hsame =>
        rw [hnone] at hsome
        contradiction
      | attempt t' hat' hsame =>
        rw [hat'.schedule, Option.some.injEq] at hsome
        left
        cases skt with
        | none => exact congrArg₂ List.cons hsome attempts_report
        | some errno => exact congrArg₂ List.cons hsome attempts_report
  · intro hstage
    rw [hstage] at hplace
    have hspec := startSpec hn skt hplace.1
    refine ⟨ConnectEx.createPass prms c skt, by simp [ConnectEx.step, hstage], ?_⟩
    unfold ConnectEx.createPass
    generalize tpTaskConnectExStart prms c.task false skt = r at hspec
    cases hspec with
    | delay t' hat hsame => exact .inr ⟨rfl, hsame.trans hplace.2, rfl⟩
    | noMore t' hnone hsame =>
      rw [hnone] at hsome
      contradiction
    | attempt t' hat hsame =>
      rw [hat.schedule, Option.some.injEq] at hsome
      left
      cases skt with
      | none => exact congrArg (List.cons · _) hsome
      | some errno => exact congrArg (List.cons · _) hsome
  · intro hstage
    rw [hstage] at hplace
    refine ⟨c.afterStart (tryConnect c.task skt), by simp [ConnectEx.step, hstage,
      tpTaskConnectExStart], ?_⟩
    rw [hplace.1.schedule, Option.some.injEq] at hsome
    cases skt with
    | none => exact congrArg (List.cons · _) hsome
    | some errno => exact congrArg (List.cons · _) hsome

theorem Inv.ends (hn : 0 < prms.addrsCount) (h : Inv prms c)
    (hnone : schedule prms (attempts c.log).length = none) (skt skt' : Option Nat) :
    (∀ error, c.stage = .failing error →
      ∃ c', ConnectEx.step prms (.pass skt) c = some c' ∧ attempts c'.log = attempts c.log ∧
        (Exhausted c' ∨ ∃ c'', ConnectEx.step prms (.pass skt') c' = some c'' ∧ Exhausted c'' ∧
          attempts c''.log = attempts c.log)) ∧
    (c.stage = .creating →
      ∃ c', ConnectEx.step prms (.pass skt) c = some c' ∧ Exhausted c' ∧
        attempts c'.log = attempts c.log) := by
  have hplace := h.place
  unfold Place at hplace
  apply And.intro
  · intro error hstage
    have hquiet := h.quiet (by rw [hstage]; exact fun h => nomatch h)
    rw [hstage] at hplace
    cases error with
    | noMore =>
      obtain ⟨c', hpass, hex, hsame⟩ := exhausted_failing hstage hquiet skt
      exact ⟨c', hpass, hsame, .inl hex⟩
    | sys errno =>
      -- The first pass reports the failure and finds no attempt, the second one tells the end.
      obtain ⟨i, is, hlog, hat, hident⟩ := hplace
      rw [hlog, List.length_cons] at hnone
      obtain ⟨t', hstart⟩ := start_of_none hn skt hat.advance hnone
      have hpass : ConnectEx.step prms (.pass skt) c = some (ConnectEx.handlerPass prms c (.sys errno) skt) := by
        simp [ConnectEx.step, hstage]
      have hnext := h.handlerPass hn hstage skt
      have hstage' : (ConnectEx.handlerPass prms c (.sys errno) skt).stage = .failing .noMore := by
        simp [ConnectEx.handlerPass, hstart, Conf.afterStart]
      have hsame : attempts (ConnectEx.handlerPass prms c (.sys errno) skt).log = attempts c.log := by
        by_cases hreport : c.task.afterEveryRead = true
        · simp [ConnectEx.handlerPass, hstart, Conf.afterStart, hreport, attempts]
        · simp [ConnectEx.handlerPass, hstart, Conf.afterStart, hreport]
      have hquiet' := hnext.quiet (by rw [hstage']; exact fun h => nomatch h)
      obtain ⟨c'', hpass', hex, hsame'⟩ := exhausted_failing hstage' hquiet' skt'
      exact ⟨_, hpass, hsame, .inr ⟨c'', hpass', hex, hsame'.trans hsame⟩⟩
  · intro hstage
    have hquiet := h.quiet (by rw [hstage]; decide)
    rw [hstage] at hplace
    obtain ⟨t', hstart⟩ := start_of_none hn skt hplace.1 hnone
    refine ⟨ConnectEx.createPass prms c skt, by simp [ConnectEx.step, hstage], ⟨?_, ?_⟩, ?_⟩
    · simp [ConnectEx.createPass, hstart]
    · simp only [ConnectEx.createPass, hstart]
      exact hquiet.once rfl
    · simp [ConnectEx.createPass, hstart, attempts]

theorem Inv.scheduled (hn : 0 < prms.addrsCount) (h : Inv prms c) : Scheduled prms c := by
  have hplace := h.place
  unfold Place at hplace
  by_cases hended : c.stage = .ended
  · rw [hended] at hplace
    obtain ⟨a, rest, hlog, hquiet, htold⟩ := hplace
    have hzero := hquiet.countP
    have hfinal : ∀ input, ConnectEx.step prms input c = none := by
      intro input
      cases input <;> simp [ConnectEx.step, hended]
    cases htold with
    | inl htold =>
      -- The end has been told.
      obtain ⟨hend, hconn, hnone⟩ := htold
      have hcount : c.log.countP Act.isEnd = 1 := by
        rw [hlog]
        exact hquiet.once hend
      refine ⟨h.follows, h.follows.below hn, ?_, by omega, fun _ => ⟨hended, hnone⟩,
        fun _ => .inl ⟨hended, hcount⟩, ?_, fun _ hi => h.next hn hi, h.ends hn,
        fun _ => hfinal⟩
      · intro ident i hmem
        rw [hlog] at hmem
        cases List.mem_cons.mp hmem with
        | inl heq =>
          rw [← heq] at hconn
          contradiction
        | inr hrest => exact absurd hrest hquiet.not_connected
      · intro hwait
        rw [hended] at hwait
        contradiction
    | inr htold =>
      -- A socket is connected.
      obtain ⟨i, rfl, hhead⟩ := htold
      have hcount : c.log.countP Act.isEnd = 0 := by
        rw [hlog, List.countP_cons, hzero]
        rfl
      refine ⟨h.follows, h.follows.below hn, ?_, by omega, by omega, fun _ => .inr ⟨i, ?_⟩, ?_,
        fun _ hi => h.next hn hi, h.ends hn, fun _ => hfinal⟩
      · intro ident i' hmem
        rw [hlog] at hmem ⊢
        cases List.mem_cons.mp hmem with
        | inl heq =>
          cases heq
          exact ⟨rfl, hhead⟩
        | inr hrest => exact absurd hrest hquiet.not_connected
      · rw [hlog]
        exact List.mem_cons_self
      · intro hwait
        rw [hended] at hwait
        contradiction
  · have hquiet := h.quiet hended
    have hzero := hquiet.countP
    refine ⟨h.follows, h.follows.below hn, ?_, by omega, by omega, fun he => absurd he hended, ?_,
      fun _ hi => h.next hn hi, h.ends hn, fun he => absurd he hended⟩
    · intro ident i hmem
      exact absurd hmem hquiet.not_connected
    · intro hwait hident
      rw [hwait] at hplace
      dsimp only at hplace
      rw [hident] at hplace
      rw [hplace.schedule]
      exact fun h => nomatch h

/-- The configurations that runs reach whose steps all start where `K` holds. -/
inductive Reaches (prms : ConnPrms) (K : Conf → Prop) : Conf → Prop
  | create {afterEveryRead : Bool} {c : Conf}
      (hcreate : tpTaskConnectExCreate prms afterEveryRead = some c) : Reaches prms K c
  | step {input : Input} {c c' : Conf} (hreach : Reaches prms K c) (hc : K c)
      (hstep : ConnectEx.step prms input c = some c') : Reaches prms K c'

theorem Reaches.inv (hn : 0 < prms.addrsCount) (h : Reaches prms Conf.FirstOnly c) : Inv prms c := by
  induction h with
  | create hcreate => exact inv_create hn hcreate
  | step _ hfirst hstep ih => exact ih.step hn hfirst hstep

theorem Inv.misreports (h : Inv prms c) (hother : ¬ c.FirstOnly) :
    ∃ c', ConnectEx.step prms (.write none) c = some c' ∧ ¬ Scheduled prms c' := by
  unfold Conf.FirstOnly at hother
  push Not at hother
  obtain ⟨hstage, i, hident, hi⟩ := hother
  have hplace := h.place
  unfold Place at hplace
  rw [hstage] at hplace
  dsimp only at hplace
  rw [hident] at hplace
  refine ⟨_, by simp only [ConnectEx.step, hstage, hident]; rfl, ?_⟩
  intro hsched
  have htold := (hsched.connected _ _ List.mem_cons_self).1
  rw [hplace.1, Option.some.injEq] at htold
  exact hi htold

/-- The schedule is kept in every run in which events come for sockets of the first address only, and
a run that leaves these can break it with its next event. -/
theorem connect_scheduled (hn : 0 < prms.addrsCount) (h : Reaches prms Conf.FirstOnly c) :
    Scheduled prms c ∧ (¬ c.FirstOnly →
      ∃ c', step prms (.write none) c = some c' ∧ ¬ Scheduled prms c') :=
  ⟨(h.inv hn).scheduled hn, (h.inv hn).misreports⟩

/-- One try for each of two addresses, in turn. -/
def twoAddrs : ConnPrms where
  retryDelay := 0
  maxTries := 1
  initialDelay := false
  roundRobin := true
  addrsCount := 2

def created : Conf where
  stage := .creating
  task := { ident := none, afterEveryRead := false, offset := 0, totTransferedSize := 0 }
  log := []

/-- The socket of the first address connects. -/
theorem connect_scheduled_first : ∃ c, c.stage = .ended ∧ attempts c.log = [0] ∧
    Scheduled twoAddrs c := by
  have hcreated : created.FirstOnly := fun hwait => nomatch hwait
  have hpass : step twoAddrs (.pass none) created = some (createPass twoAddrs created none) := rfl
  have hfirst : (createPass twoAddrs created none).FirstOnly := by
    intro _ i hi
    exact (Option.some.inj hi).symm
  have hreach : Reaches twoAddrs Conf.FirstOnly created := .create rfl
  exact ⟨_, rfl, rfl, (connect_scheduled (by decide) ((hreach.step hcreated hpass).step hfirst
    (rfl : step twoAddrs (.write none) _ = some _))).1⟩

/-- The first address refuses at once and the second one connects: the caller is given the index of
the first address with the socket of the second one. -/
theorem connect_misreports : ∃ c, Reaches twoAddrs (fun _ => True) c ∧ ¬ Scheduled twoAddrs c := by
  have hcreated : Reaches twoAddrs (fun _ => True) created := .create rfl
  have hrefused := hcreated.step trivial (rfl : step twoAddrs (.pass (some 111)) _ = some _)
  have hsocket := hrefused.step trivial (rfl : step twoAddrs (.pass none) _ = some _)
  have hconnected := hsocket.step trivial (rfl : step twoAddrs (.write none) _ = some _)
  refine ⟨_, hconnected, ?_⟩
  intro hsched
  have htold := (hsched.connected _ _ List.mem_cons_self).1
  revert htold
  decide

end ConnectEx
