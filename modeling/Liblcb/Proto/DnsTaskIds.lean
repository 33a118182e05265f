import Liblcb.Proto.DnsResolv
import Liblcb.Lib.Transition
import Mathlib.Data.Finset.Card
import Mathlib.Order.Interval.Finset.Nat

/-!
# The identifiers of queries

`dns_rslvr_task_alloc` and `dns_rslvr_task_free` of `proto/dns_resolv.c` with the slots of `tasks_tmr`
and the tasks in memory as they are: a slot holds the address of a task, a task holds its `task_id`.
-/

namespace Dns.Resolv.TaskIds

open Function

def maxTasks : Nat := 65536

/-- What the two functions use of `dns_rslvr_t`, and the tasks in memory. -/
structure Rslvr where
  tasksCount : BitVec 16
  tasksIndex : TaskId
  /-- `tasks_tmr[i].ident`: the address of a task, or 0 -/
  ident : Nat → Nat
  /-- `task_id` of the task at an address -/
  taskId : Nat → Option TaskId

/-- `dns_resolver_create`: the memory is zeroed. -/
def create : Rslvr where
  tasksCount := 0
  tasksIndex := 0
  ident _ := 0
  taskId _ := none

/-- The `for` loop of `dns_rslvr_task_alloc`: the `task_id` it ends with.  `rslvr->tasks_index - 1` is
an `int`, so that for index 0 it is -1 and no `task_id` is equal to it. -/
def searchLoop (s : Rslvr) : Nat → TaskId → Option TaskId
  | 0, _ => none
  | fuel + 1, taskId =>
    if (taskId.toNat : Int) = (s.tasksIndex.toNat : Int) - 1 then some taskId
    else if 0 = taskId then searchLoop s fuel (taskId + 1)
    else if 0 = s.ident taskId.toNat then some taskId
    else searchLoop s fuel (taskId + 1)

/-- `dns_rslvr_task_free`, of the task at an address. -/
def taskFree (task : Nat) (s : Rslvr) : Rslvr :=
  if task = 0 then s
  else
    match s.taskId task with
    | none => s
    | some id =>
      { s with
        ident := update s.ident id.toNat 0
        tasksCount := s.tasksCount - 1
        taskId := update s.taskId task none }

/-- `dns_rslvr_task_alloc`: `task` is what `calloc` returns, and `timerAdd` what `tpt_ev_add_args` does.
The call does not return when the search does not end. -/
def taskAlloc (task : Nat) (timerAdd : Option Errno) (s : Rslvr) :
    Option (Except Errno Nat × Rslvr) :=
  if 0xffff#16 = s.tasksCount then some (.error .eagain, s)
  else
    (searchLoop s maxTasks s.tasksIndex).bind fun id =>
      if 0 ≠ s.ident id.toNat then some (.error .eagain, s)
      else if task = 0 then some (.error .enomem, s)
      else
        let s := {
          tasksCount := s.tasksCount + 1
          tasksIndex := id
          ident := update s.ident id.toNat task
          taskId := update s.taskId task (some id) }
        match timerAdd with
        | some error => some (.error error, taskFree task s)
        | none => some (.ok task, s)

inductive Call where
  | alloc (task : Nat) (timerAdd : Option Errno)
  | free (task : Nat)

/-- A call: `calloc` returns no address that is in use, and a task that is freed is there. -/
def step : Call → Rslvr → Option Rslvr
  | .alloc task timerAdd, s =>
    if s.taskId task = none then (taskAlloc task timerAdd s).map Prod.snd else none
  | .free task, s =>
    if task = 0 ∨ s.taskId task ≠ none then some (taskFree task s) else none

def Rslvr.occupied (s : Rslvr) : Finset Nat := {i ∈ Finset.range maxTasks | s.ident i ≠ 0}

structure Inv (s : Rslvr) : Prop where
  count : s.tasksCount.toNat = s.occupied.card
  slot : ∀ i < maxTasks, s.ident i ≠ 0 → s.taskId (s.ident i) = some (BitVec.ofNat 16 i)
  live : ∀ task id, s.taskId task = some id → task ≠ 0 ∧ id ≠ 0 ∧ s.ident id.toNat = task

theorem inv_create : Inv create := by
  refine ⟨?_, fun i _ h => absurd rfl h, nofun⟩
  have hempty : create.occupied = ∅ := Finset.filter_false_of_mem fun i _ h => h rfl
  rw [hempty]
  rfl

/-! ## The search -/

section Search

variable {s : Rslvr}

theorem search_end_iff (s : Rslvr) (id : TaskId) :
    (id.toNat : Int) = (s.tasksIndex.toNat : Int) - 1 ↔ s.tasksIndex ≠ 0 ∧ id = s.tasksIndex - 1 := by
  have hid := id.isLt
  have hindex := s.tasksIndex.isLt
  have hzero : (0 : TaskId).toNat = 0 := rfl
  have hone : (1 : TaskId).toNat = 1 := rfl
  rw [Ne, BitVec.toNat_eq, BitVec.toNat_eq, BitVec.toNat_sub, hzero, hone]
  omega

theorem searchLoop_finds {free : TaskId} (hfree : s.ident free.toNat = 0) (hne : free ≠ 0)
    (fuel : Nat) (id : TaskId) (hfuel : (free - id).toNat < fuel)
    (hend : s.tasksIndex ≠ 0 → (free - id).toNat ≤ (s.tasksIndex - 1 - id).toNat) :
    ∃ r, searchLoop s fuel id = some r ∧ r ≠ 0 ∧ s.ident r.toNat = 0 := by
  induction fuel generalizing id with
  | zero => omega
  | succ fuel ih =>
    have hnext : id ≠ free → (s.tasksIndex ≠ 0 → id ≠ s.tasksIndex - 1) →
        ∃ r, searchLoop s fuel (id + 1) = some r ∧ r ≠ 0 ∧ s.ident r.toNat = 0 := by
      intro hid hstop
      apply ih
      · bv_omega
      · intro h0
        have hle := hend h0
        have hlt := hstop h0
        bv_omega
    rw [searchLoop]
    split
    next hlast =>
      obtain ⟨h0, hlast⟩ := (search_end_iff s id).mp hlast
      have hle := hend h0
      have hid : free = id := by
        rw [hlast] at hle ⊢
        bv_omega
      rw [hid] at hfree hne
      exact ⟨id, rfl, hne, hfree⟩
    next hlast =>
      have hstop : s.tasksIndex ≠ 0 → id ≠ s.tasksIndex - 1 := fun h0 hid =>
        hlast ((search_end_iff s id).mpr ⟨h0, hid⟩)
      split
      next hzero => exact hnext (fun hid => hne (hid.symm.trans hzero.symm)) hstop
      next hzero =>
        split
        next hid => exact ⟨id, rfl, fun h => hzero h.symm, hid.symm⟩
        next hid => exact hnext (fun h => hid (h ▸ hfree.symm)) hstop

theorem search_finds {free : TaskId} (hfree : s.ident free.toNat = 0) (hne : free ≠ 0) :
    ∃ r, searchLoop s maxTasks s.tasksIndex = some r ∧ r ≠ 0 ∧ s.ident r.toNat = 0 := by
  apply searchLoop_finds hfree hne
  · exact (free - s.tasksIndex).isLt
  · intro h0
    bv_omega

theorem slotScan_eq {resolver : Resolver} (hindex : resolver.tasksIndex = s.tasksIndex)
    (htasks : ∀ id : TaskId, (resolver.tasks id).isNone = true ↔ s.ident id.toNat = 0) (fuel : Nat)
    (id r : TaskId) (h : searchLoop s fuel id = some r) : slotScan resolver fuel id = r := by
  induction fuel generalizing id with
  | zero => cases h
  | succ fuel ih =>
    rw [searchLoop] at h
    rw [slotScan, hindex]
    by_cases hlast : s.tasksIndex ≠ 0 ∧ id = s.tasksIndex - 1
    · rw [if_pos ((search_end_iff s id).mpr hlast)] at h
      rw [if_pos hlast]
      exact Option.some.inj h
    · rw [if_neg (mt (search_end_iff s id).mp hlast)] at h
      rw [if_neg hlast]
      by_cases hzero : 0 = id
      · rw [if_pos hzero] at h
        rw [if_neg fun hid => hid.1 hzero.symm]
        exact ih _ h
      · rw [if_neg hzero] at h
        by_cases hid : 0 = s.ident id.toNat
        · rw [if_pos hid] at h
          rw [if_pos ⟨fun h => hzero h.symm, (htasks id).mpr hid.symm⟩]
          exact Option.some.inj h
        · rw [if_neg hid] at h
          rw [if_neg fun hnone => hid ((htasks id).mp hnone.2).symm]
          exact ih _ h

end Search

/-! ## The invariant -/

section Keeps

variable {s s' : Rslvr}

theorem mem_occupied {i : Nat} : i ∈ s.occupied ↔ i < maxTasks ∧ s.ident i ≠ 0 := by
  rw [Rslvr.occupied, Finset.mem_filter, Finset.mem_range]

theorem Inv.ident_zero (h : Inv s) : s.ident 0 = 0 := by
  by_contra h0
  exact (h.live _ _ (h.slot 0 (by decide) h0)).2.1 rfl

theorem Inv.occupied_subset (h : Inv s) : s.occupied ⊆ Finset.Ico 1 maxTasks := by
  intro i hi
  obtain ⟨hlt, hne⟩ := mem_occupied.mp hi
  have hpos : i ≠ 0 := fun h0 => hne (h0 ▸ h.ident_zero)
  exact Finset.mem_Ico.mpr ⟨Nat.pos_of_ne_zero hpos, hlt⟩

theorem Inv.full_iff (h : Inv s) :
    0xffff#16 = s.tasksCount ↔ ∀ id : TaskId, id ≠ 0 → s.ident id.toNat ≠ 0 := by
  have hcard : (Finset.Ico 1 maxTasks).card = 65535 := Nat.card_Ico 1 maxTasks
  have hcount : 0xffff#16 = s.tasksCount ↔ s.occupied.card = 65535 := by
    rw [← h.count, BitVec.toNat_eq, BitVec.toNat_ofNat]
    exact eq_comm
  rw [hcount]
  constructor
  · intro hfull id hne
    have heq : s.occupied = Finset.Ico 1 maxTasks :=
      Finset.eq_of_subset_of_card_le h.occupied_subset (by rw [hcard, hfull])
    have hmem : id.toNat ∈ s.occupied := by
      rw [heq]
      have hpos : id.toNat ≠ 0 := fun h0 => hne (BitVec.eq_of_toNat_eq h0)
      exact Finset.mem_Ico.mpr ⟨Nat.pos_of_ne_zero hpos, id.isLt⟩
    exact (mem_occupied.mp hmem).2
  · intro hall
    have heq : s.occupied = Finset.Ico 1 maxTasks := by
      apply Finset.Subset.antisymm h.occupied_subset
      intro i hi
      obtain ⟨hpos, hlt⟩ := Finset.mem_Ico.mp hi
      have hto : (BitVec.ofNat 16 i).toNat = i := Nat.mod_eq_of_lt hlt
      have hne : BitVec.ofNat 16 i ≠ 0 := by
        intro h0
        rw [h0] at hto
        have hzero : (0 : TaskId).toNat = 0 := rfl
        omega
      exact mem_occupied.mpr ⟨hlt, hto ▸ hall _ hne⟩
    rw [heq, hcard]

theorem Inv.search (h : Inv s) (hcount : ¬0xffff#16 = s.tasksCount) :
    ∃ id, searchLoop s maxTasks s.tasksIndex = some id ∧ id ≠ 0 ∧ s.ident id.toNat = 0 := by
  rw [h.full_iff] at hcount
  push Not at hcount
  obtain ⟨free, hne, hfree⟩ := hcount
  exact search_finds hfree hne

/-- A task takes a free slot. -/
theorem Inv.take (h : Inv s) {task : Nat} {id index : TaskId} (hcount : ¬0xffff#16 = s.tasksCount)
    (hnew : s.taskId task = none) (htask : task ≠ 0) (hid : id ≠ 0) (hfree : s.ident id.toNat = 0) :
    Inv {
      tasksCount := s.tasksCount + 1
      tasksIndex := index
      ident := update s.ident id.toNat task
      taskId := update s.taskId task (some id) } := by
  constructor
  · show _ = Finset.card {i ∈ Finset.range maxTasks | update s.ident id.toNat task i ≠ 0}
    have hinsert : {i ∈ Finset.range maxTasks | update s.ident id.toNat task i ≠ 0} =
        insert id.toNat s.occupied := by
      ext i
      rw [Finset.mem_insert, mem_occupied, Finset.mem_filter, Finset.mem_range]
      by_cases hi : i = id.toNat
      · rw [hi, update_self]
        exact iff_of_true ⟨id.isLt, htask⟩ (.inl rfl)
      · rw [update_of_ne hi]
        exact ⟨.inr, fun h => h.resolve_left hi⟩
    have hnot : id.toNat ∉ s.occupied := fun hmem => (mem_occupied.mp hmem).2 hfree
    rw [hinsert, Finset.card_insert_of_notMem hnot, ← h.count]
    have hlt : s.tasksCount.toNat ≠ 65535 := fun hto => hcount (BitVec.eq_of_toNat_eq hto.symm)
    bv_omega
  · intro i hi hne
    show update s.taskId task (some id) (update s.ident id.toNat task i) = _
    have hne : update s.ident id.toNat task i ≠ 0 := hne
    by_cases hid : i = id.toNat
    · rw [hid, update_self, update_self, BitVec.ofNat_toNat, BitVec.setWidth_eq]
    · rw [update_of_ne hid] at hne ⊢
      have hslot := h.slot i hi hne
      have hother : s.ident i ≠ task := by
        intro heq
        rw [heq, hnew] at hslot
        cases hslot
      rw [update_of_ne hother, hslot]
  · intro t j ht
    show t ≠ 0 ∧ j ≠ 0 ∧ update s.ident id.toNat task j.toNat = t
    have ht : update s.taskId task (some id) t = some j := ht
    by_cases heq : t = task
    · rw [heq, update_self] at ht
      rw [← Option.some.inj ht, update_self]
      exact ⟨heq ▸ htask, hid, heq.symm⟩
    · rw [update_of_ne heq] at ht
      obtain ⟨ht0, hj0, hident⟩ := h.live t j ht
      have hother : j.toNat ≠ id.toNat := by
        intro hj
        rw [hj, hfree] at hident
        exact ht0 hident.symm
      rw [update_of_ne hother]
      exact ⟨ht0, hj0, hident⟩

theorem Inv.free (h : Inv s) (task : Nat) : Inv (taskFree task s) := by
  unfold taskFree
  by_cases h0 : task = 0
  · rw [if_pos h0]
    exact h
  rw [if_neg h0]
  cases hid : s.taskId task with
  | none => exact h
  | some id =>
  obtain ⟨-, hid0, hident⟩ := h.live task id hid
  have hmem : id.toNat ∈ s.occupied := mem_occupied.mpr ⟨id.isLt, hident ▸ h0⟩
  constructor
  · show _ = Finset.card {i ∈ Finset.range maxTasks | update s.ident id.toNat 0 i ≠ 0}
    have herase : {i ∈ Finset.range maxTasks | update s.ident id.toNat 0 i ≠ 0} =
        s.occupied.erase id.toNat := by
      ext i
      rw [Finset.mem_erase, mem_occupied, Finset.mem_filter, Finset.mem_range]
      by_cases hi : i = id.toNat
      · rw [hi, update_self]
        exact iff_of_false (fun h => h.2 rfl) (fun h => h.1 rfl)
      · rw [update_of_ne hi]
        exact (and_iff_right hi).symm
    have hpos := Finset.card_pos.mpr ⟨_, hmem⟩
    rw [herase, Finset.card_erase_of_mem hmem]
    rw [← h.count] at hpos ⊢
    bv_omega
  · intro i hi hne
    show update s.taskId task none (update s.ident id.toNat 0 i) = _
    have hne : update s.ident id.toNat 0 i ≠ 0 := hne
    by_cases hi' : i = id.toNat
    · rw [hi', update_self] at hne
      exact absurd rfl hne
    · rw [update_of_ne hi'] at hne ⊢
      have hslot := h.slot i hi hne
      -- The task that goes is in its own slot only.
      have hother : s.ident i ≠ task := by
        intro heq
        rw [heq, hid, Option.some.injEq] at hslot
        rw [hslot] at hi'
        exact hi' (Nat.mod_eq_of_lt hi).symm
      rw [update_of_ne hother, hslot]
  · intro t j ht
    show t ≠ 0 ∧ j ≠ 0 ∧ update s.ident id.toNat 0 j.toNat = t
    have ht : update s.taskId task none t = some j := ht
    by_cases heq : t = task
    · rw [heq, update_self] at ht
      cases ht
    · rw [update_of_ne heq] at ht
      obtain ⟨ht0, hj0, hj⟩ := h.live t j ht
      have hother : j.toNat ≠ id.toNat := by
        intro hjid
        rw [hjid, hident] at hj
        exact heq hj.symm
      rw [update_of_ne hother]
      exact ⟨ht0, hj0, hj⟩

theorem Inv.alloc (h : Inv s) {task : Nat} (hnew : s.taskId task = none) (timerAdd : Option Errno) :
    ∃ r s', taskAlloc task timerAdd s = some (r, s') ∧ Inv s' ∧
      (r = .error .eagain → timerAdd ≠ some .eagain →
        ∀ id : TaskId, id ≠ 0 → s.ident id.toNat ≠ 0) := by
  unfold taskAlloc
  by_cases hcount : 0xffff#16 = s.tasksCount
  · rw [if_pos hcount]
    exact ⟨_, _, rfl, h, fun _ _ => h.full_iff.mp hcount⟩
  obtain ⟨id, hsearch, hid, hfree⟩ := h.search hcount
  rw [if_neg hcount, hsearch, Option.bind_some, if_neg fun hne => hne hfree.symm]
  by_cases htask : task = 0
  · rw [if_pos htask]
    exact ⟨_, _, rfl, h, nofun⟩
  rw [if_neg htask]
  have htake := @Inv.take s h task id id hcount hnew htask hid hfree
  cases timerAdd with
  | none => exact ⟨_, _, rfl, htake, nofun⟩
  | some error =>
    refine ⟨_, _, rfl, htake.free task, fun herror hne => ?_⟩
    exact absurd (congrArg some (Except.error.inj herror)) hne

theorem step_inv (call : Call) (h : Inv s) (hstep : step call s = some s') : Inv s' := by
  cases call with
  | alloc task timerAdd =>
    rw [step] at hstep
    by_cases hnew : s.taskId task = none
    · obtain ⟨r, t, hrun, ht, -⟩ := h.alloc hnew timerAdd
      rw [if_pos hnew, hrun, Option.map_some, Option.some.injEq] at hstep
      exact hstep ▸ ht
    · rw [if_neg hnew] at hstep
      cases hstep
  | free task =>
    rw [step] at hstep
    by_cases hthere : task = 0 ∨ s.taskId task ≠ none
    · rw [if_pos hthere] at hstep
      exact Option.some.inj hstep ▸ h.free task
    · rw [if_neg hthere] at hstep
      cases hstep

end Keeps

/-- After any calls that allocate and free tasks: the counter is the number of the occupied slots, a
task is in the slot of its number and in no other, the number is never 0, an occupied slot holds a task,
and a further call to allocate returns, with `EAGAIN` only when all usable slots are occupied. -/
theorem task_ids {calls : List Call} {s : Rslvr}
    (h : Transition.run step calls create = some s) :
    s.tasksCount.toNat = s.occupied.card ∧
      (∀ task id, s.taskId task = some id →
        id ≠ 0 ∧ ∀ i < maxTasks, s.ident i = task ↔ i = id.toNat) ∧
      (∀ i < maxTasks, s.ident i ≠ 0 → s.taskId (s.ident i) = some (BitVec.ofNat 16 i)) ∧
      ∀ task, s.taskId task = none → ∃ r s', taskAlloc task none s = some (r, s') ∧
        (r = .error .eagain → ∀ id : TaskId, id ≠ 0 → s.ident id.toNat ≠ 0) := by
  have hinv : Inv s := Transition.run_invariant (fun call _ _ => step_inv call) inv_create h
  refine ⟨hinv.count, fun task id hid => ?_, hinv.slot, fun task hnew => ?_⟩
  · obtain ⟨h0, hid0, hident⟩ := hinv.live task id hid
    refine ⟨hid0, fun i hi => ⟨fun hi' => ?_, fun hi' => hi' ▸ hident⟩⟩
    have hslot := hinv.slot i hi (hi' ▸ h0)
    rw [hi', hid, Option.some.injEq] at hslot
    rw [hslot]
    exact (Nat.mod_eq_of_lt hi).symm
  · obtain ⟨r, s', hrun, -, hagain⟩ := hinv.alloc hnew none
    exact ⟨r, s', hrun, fun hr => hagain hr nofun⟩

/-- Two tasks, the first of which is freed. -/
theorem task_ids_two :
    ∃ s, Transition.run step [.alloc 8 none, .alloc 16 none, .free 8] create = some s ∧
      s.tasksCount.toNat = s.occupied.card :=
  ⟨_, rfl, (@task_ids [.alloc 8 none, .alloc 16 none, .free 8] _ rfl).1⟩

end Dns.Resolv.TaskIds
