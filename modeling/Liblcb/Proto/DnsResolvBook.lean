import Mathlib.Algebra.Order.BigOperators.Group.List
import Liblcb.Proto.DnsResolv

/-!
# The books of the resolver

Which task updates which entry, and who waits where.  Inside an event a task may be in the hands of
the code, an entry may be flagged before its task is there, and the tasks of a queue may be out of it
and not yet notified: the focus says so.
-/

namespace Dns.Resolv

namespace Resolver

def entryOf (s : Resolver) (id : TaskId) : Option Nat := (s.tasks id).bind (·.cacheEntry)

def isQueued (s : Resolver) (id : TaskId) : Bool := (s.tasks id).any (·.queued)

def isTimed (s : Resolver) (id : TaskId) : Bool := (s.tasks id).any (·.timer)

def isUpdating (s : Resolver) (i : Nat) : Bool := (s.entries[i]?).any (·.updating)

def queueOf (s : Resolver) (i : Nat) : List TaskId := (s.entries[i]?).elim [] (·.task)

/-- How often the task is in a queue. -/
def waits (s : Resolver) (id : TaskId) : Nat := (s.entries.map fun e => e.task.count id).sum

variable (s : Resolver) (id : TaskId) (t : Task) (i : Nat) (e : Entry)

@[simp] theorem tasks_setTask (id' : TaskId) :
    (s.setTask id t).tasks id' = if id' = id then some t else s.tasks id' :=
  Function.update_apply ..

@[simp] theorem entryOf_setTask (id' : TaskId) :
    (s.setTask id t).entryOf id' = if id' = id then t.cacheEntry else s.entryOf id' := by
  unfold entryOf
  rw [tasks_setTask]
  split <;> rfl

@[simp] theorem isQueued_setTask (id' : TaskId) :
    (s.setTask id t).isQueued id' = if id' = id then t.queued else s.isQueued id' := by
  unfold isQueued
  rw [tasks_setTask]
  split <;> rfl

@[simp] theorem isTimed_setTask (id' : TaskId) :
    (s.setTask id t).isTimed id' = if id' = id then t.timer else s.isTimed id' := by
  unfold isTimed
  rw [tasks_setTask]
  split <;> rfl

@[simp] theorem isUpdating_setTask (j : Nat) : (s.setTask id t).isUpdating j = s.isUpdating j := rfl

@[simp] theorem queueOf_setTask (j : Nat) : (s.setTask id t).queueOf j = s.queueOf j := rfl

@[simp] theorem waits_setTask (id' : TaskId) : (s.setTask id t).waits id' = s.waits id' := rfl

@[simp] theorem log_setTask : (s.setTask id t).log = s.log := rfl

variable {s id t i e}

theorem entryOf_of_tasks (h : s.tasks id = some t) : s.entryOf id = t.cacheEntry := by
  rw [entryOf, h, Option.bind_some]

theorem isQueued_of_tasks (h : s.tasks id = some t) : s.isQueued id = t.queued := by
  rw [isQueued, h, Option.any_some]

theorem isTimed_of_tasks (h : s.tasks id = some t) : s.isTimed id = t.timer := by
  rw [isTimed, h, Option.any_some]

theorem isUpdating_of_getElem? (h : s.entries[i]? = some e) : s.isUpdating i = e.updating := by
  rw [isUpdating, h, Option.any_some]

theorem queueOf_of_getElem? (h : s.entries[i]? = some e) : s.queueOf i = e.task := by
  rw [queueOf, h, Option.elim_some]

/-! ### An entry is replaced -/

@[simp] theorem entryOf_setEntry (id' : TaskId) : (s.setEntry i e).entryOf id' = s.entryOf id' := rfl

@[simp] theorem isQueued_setEntry (id' : TaskId) : (s.setEntry i e).isQueued id' = s.isQueued id' := rfl

@[simp] theorem isTimed_setEntry (id' : TaskId) : (s.setEntry i e).isTimed id' = s.isTimed id' := rfl

@[simp] theorem log_setEntry : (s.setEntry i e).log = s.log := rfl

@[simp] theorem tasks_setEntry : (s.setEntry i e).tasks = s.tasks := rfl

variable {d : Entry}

theorem getElem?_setEntry (h : s.entries[i]? = some e) (j : Nat) :
    (s.setEntry i d).entries[j]? = if j = i then some d else s.entries[j]? := by
  obtain ⟨hi, -⟩ := List.getElem?_eq_some_iff.mp h
  rw [setEntry, List.getElem?_set]
  split
  · next hij => rw [if_pos hij.symm]
  · next hij => rw [if_neg (Ne.symm hij)]

theorem isUpdating_setEntry (h : s.entries[i]? = some e) (j : Nat) :
    (s.setEntry i d).isUpdating j = if j = i then d.updating else s.isUpdating j := by
  unfold isUpdating
  rw [getElem?_setEntry h]
  split <;> rfl

theorem queueOf_setEntry (h : s.entries[i]? = some e) (j : Nat) :
    (s.setEntry i d).queueOf j = if j = i then d.task else s.queueOf j := by
  unfold queueOf
  rw [getElem?_setEntry h]
  split <;> rfl

theorem sum_map_set {α : Type} (f : α → Nat) {l : List α} {i : Nat} {a b : α} (h : l[i]? = some a) :
    ((l.set i b).map f).sum + f a = (l.map f).sum + f b := by
  induction l generalizing i with
  | nil => cases h
  | cons x l ih =>
    cases i with
    | zero =>
      obtain rfl := Option.some.inj h
      simp only [List.set_cons_zero, List.map_cons, List.sum_cons]
      omega
    | succ i =>
      have hrest := ih h
      simp only [List.set_cons_succ, List.map_cons, List.sum_cons]
      omega

theorem waits_setEntry (h : s.entries[i]? = some e) (id : TaskId) :
    (s.setEntry i d).waits id + e.task.count id = s.waits id + d.task.count id :=
  sum_map_set (fun e => e.task.count id) h

end Resolver

/-! ## The focus of an event -/

structure Focus where
  /-- woken, and not yet notified -/
  rest : List TaskId := []
  /-- in the hands of `dns_resolv_hostaddr_int` -/
  hand : Option TaskId := none
  /-- has an entry to update, and sends its query -/
  sending : Option TaskId := none
  /-- the task of the event -/
  cur : Option (TaskId × Task) := none
  /-- its entry is not for it to update any more -/
  handed : Option TaskId := none
  /-- flagged, and without a task yet -/
  claim : Option Nat := none
  /-- the request that has no task yet -/
  asking : Option Nat := none

def Focus.Loose (f : Focus) (s : Resolver) (i : Nat) : Prop := f.claim = some i ∨ .abandon i ∈ s.log

structure Book (s : Resolver) (f : Focus) : Prop where
  calm : ∀ id i, s.entryOf id = some i → s.isQueued id = false
  timer : ∀ id, s.entryOf id = none → s.isTimed id = false
  updating : ∀ id i, s.entryOf id = some i → f.handed ≠ some id → s.isUpdating i = true
  unique : ∀ id id' i, s.entryOf id = some i → s.entryOf id' = some i → f.handed ≠ some id →
    f.handed ≠ some id' → id = id'
  owner : ∀ i, s.isUpdating i = true → ¬ f.Loose s i → ∃ id, s.entryOf id = some i ∧ f.handed ≠ some id
  loose : ∀ i, f.Loose s i → s.isUpdating i = true ∧ ∀ id, s.entryOf id = some i → f.handed = some id
  idle : ∀ i, s.isUpdating i = false → s.queueOf i = []
  waits : ∀ id, s.waits id + f.rest.count id = (s.isQueued id).toNat
  claimed : ∀ i, f.claim = some i → .abandon i ∉ s.log
  hand : ∀ id, f.hand = some id →
    s.entryOf id = none ∧ s.isQueued id = false ∧ f.handed ≠ some id ∧ ∀ t, f.cur ≠ some (id, t)
  cur : ∀ id t, f.cur = some (id, t) →
    s.tasks id = some t ∧ t.cacheEntry.isSome ∧ t.timer = false ∧ f.sending ≠ some id

namespace Book

open Resolver

variable {s s' : Resolver} {f : Focus} {id : TaskId} {t t' : Task} {i : Nat} {e e' : Entry}

theorem frame (h : Book s f) (htasks : s'.tasks = s.tasks) (hentries : s'.entries = s.entries)
    (hlog : ∀ i, .abandon i ∈ s'.log ↔ .abandon i ∈ s.log) : Book s' f := by
  have hentryOf : s'.entryOf = s.entryOf := by
    funext id
    rw [entryOf, htasks, entryOf]
  have hqueued : s'.isQueued = s.isQueued := by
    funext id
    rw [isQueued, htasks, isQueued]
  have htimed : s'.isTimed = s.isTimed := by
    funext id
    rw [isTimed, htasks, isTimed]
  have hupdating : s'.isUpdating = s.isUpdating := by
    funext i
    rw [isUpdating, hentries, isUpdating]
  have hqueue : s'.queueOf = s.queueOf := by
    funext i
    rw [queueOf, hentries, queueOf]
  have hwaits : s'.waits = s.waits := by
    funext id
    rw [Resolver.waits, hentries, Resolver.waits]
  obtain ⟨h1, h11, h2, h3, h4, h5, h6, h7, h8, h9, h10⟩ := h
  constructor
  all_goals simp only [Focus.Loose, hentryOf, hqueued, htimed, hupdating, hqueue, hwaits, htasks, hlog]
  all_goals assumption

theorem emit {item : Trace} (h : Book s f) (hitem : ∀ i, item ≠ .abandon i) : Book (s.emit item) f := by
  refine h.frame rfl rfl fun i => ?_
  rw [Resolver.emit, List.mem_cons]
  exact or_iff_right fun hi => hitem i hi.symm

theorem cur_entry (h : Book s f) (hcur : f.cur = some (id, t)) :
    ∃ i, t.cacheEntry = some i ∧ s.entryOf id = some i ∧ s.isQueued id = false := by
  obtain ⟨ht, hsome, -⟩ := h.cur id t hcur
  obtain ⟨i, hi⟩ := Option.isSome_iff_exists.mp hsome
  have hentry : s.entryOf id = some i := by rw [entryOf_of_tasks ht, hi]
  exact ⟨i, hi, hentry, h.calm id i hentry⟩

theorem refocus {f' : Focus} (h : Book s f) (hrest : f'.rest = f.rest) (hhanded : f'.handed = f.handed)
    (hclaim : f'.claim = f.claim)
    (hhand : ∀ id, f'.hand = some id → f.hand = some id ∧ ∀ t, f'.cur ≠ some (id, t))
    (hcur : ∀ id t, f'.cur = some (id, t) →
      s.tasks id = some t ∧ t.cacheEntry.isSome ∧ t.timer = false ∧ f'.sending ≠ some id) : Book s f' := by
  obtain ⟨h1, h11, h2, h3, h4, h5, h6, h7, h8, h9, h10⟩ := h
  simp only [Focus.Loose] at *
  constructor <;> try simp only [Focus.Loose, hrest, hhanded, hclaim]
  all_goals grind

/-! ### A task changes -/

theorem setTask (h : Book s f) (ht : s.tasks id = some t) (hentry : t'.cacheEntry = t.cacheEntry)
    (hqueued : t'.queued = t.queued) (htimer : t'.timer = true → t'.cacheEntry.isSome)
    (hcur : ∀ t₀, f.cur ≠ some (id, t₀)) : Book (s.setTask id t') f := by
  have he := entryOf_of_tasks ht
  have hq := isQueued_of_tasks ht
  obtain ⟨h1, h11, h2, h3, h4, h5, h6, h7, h8, h9, h10⟩ := h
  simp [Focus.Loose] at *
  constructor <;> try simp [Focus.Loose]
  all_goals grind

theorem alloc (h : Book s f) (hnone : s.tasks id = none) (hhanded : f.handed ≠ some id)
    (hentry : t.cacheEntry = none) (hqueued : t.queued = false) (htimer : t.timer = false) :
    Book (s.setTask id t) { f with hand := some id, asking := none } := by
  have he : s.entryOf id = none := by rw [entryOf, hnone, Option.bind_none]
  have hq : s.isQueued id = false := by rw [isQueued, hnone, Option.any_none]
  obtain ⟨h1, h11, h2, h3, h4, h5, h6, h7, h8, h9, h10⟩ := h
  simp [Focus.Loose] at *
  constructor <;> try simp [Focus.Loose]
  all_goals grind

theorem start (h : Book s f) (hhand : f.hand = some id) (hclaim : f.claim = some i)
    (hentry : t.cacheEntry = some i) (hqueued : t.queued = false) :
    Book (s.setTask id t) { f with hand := none, claim := none, sending := some id } := by
  obtain ⟨he, hq, hhanded, hcur⟩ := h.hand id hhand
  obtain ⟨h1, h11, h2, h3, h4, h5, h6, h7, h8, h9, h10⟩ := h
  simp [Focus.Loose] at *
  constructor <;> try simp [Focus.Loose]
  all_goals grind

theorem taskNAdd (h : Book s f) (hhand : f.hand = some id) (ht : s.tasks id = some t)
    (htimer : t'.timer = t.timer) (hupdating : e.updating = true) (he : s.entries[i]? = some e) :
    Book (taskNAdd i e id t' s) { f with hand := none } := by
  have htimed := isTimed_of_tasks ht
  obtain ⟨hentry, hq, hhanded, hcur⟩ := h.hand id hhand
  have hlen := isUpdating_of_getElem? he
  have hset : (s.setTask id { t' with cacheEntry := none, queued := true }).entries[i]? = some e := he
  have hupd := isUpdating_setEntry hset (d := { e with task := id :: e.task })
  have hqueue := queueOf_setEntry hset (d := { e with task := id :: e.task })
  have hwaits := waits_setEntry hset (d := { e with task := id :: e.task })
  obtain ⟨h1, h11, h2, h3, h4, h5, h6, h7, h8, h9, h10⟩ := h
  simp [Focus.Loose] at *
  constructor <;> simp [Focus.Loose, Resolv.taskNAdd]
  all_goals grind

theorem wake {ids : List TaskId} (h : Book s f) (hrest : f.rest = id :: ids)
    (hhanded : ∀ id, f.handed = some id → ∃ t, f.cur = some (id, t)) (ht : s.tasks id = some t) :
    Book (s.setTask id { t with queued := false }) { f with rest := ids, hand := some id } := by
  have hq : s.isQueued id = true := by
    have hcount := h.waits id
    rw [hrest, List.count_cons_self] at hcount
    cases hcase : s.isQueued id with
    | false => simp only [hcase, Bool.toNat_false] at hcount; omega
    | true => rfl
  have hentry : s.entryOf id = none := by
    cases hcase : s.entryOf id with
    | none => rfl
    | some i => exact absurd (h.calm id i hcase) (by rw [hq]; decide)
  have hcur : ∀ t₀, f.cur ≠ some (id, t₀) := by
    intro t₀ hcur
    obtain ⟨i, -, hsome, -⟩ := h.cur_entry hcur
    rw [hentry] at hsome
    cases hsome
  have he := entryOf_of_tasks ht
  have htimed := isTimed_of_tasks ht
  obtain ⟨h1, h11, h2, h3, h4, h5, h6, h7, h8, h9, h10⟩ := h
  simp [Focus.Loose] at *
  constructor <;> try simp [Focus.Loose]
  all_goals grind

theorem handOver (h : Book s f) (hrest : f.rest = []) (hhand : f.hand = none) (hhanded : f.handed = none)
    (hclaim : f.claim = none) (hcur : f.cur = some (id, t)) (hi : t.cacheEntry = some i)
    (he : s.entries[i]? = some e) (hupdating : e'.updating = false) (htask : e'.task = []) :
    Book (s.setEntry i e') { f with rest := e.task, handed := some id } := by
  obtain ⟨ht, -, -⟩ := h.cur id t hcur
  have hentry : s.entryOf id = some i := by rw [entryOf_of_tasks ht, hi]
  have hupd := isUpdating_setEntry he (d := e')
  have hqueue := queueOf_setEntry he (d := e')
  have hwaits := waits_setEntry he (d := e')
  obtain ⟨h1, h11, h2, h3, h4, h5, h6, h7, h8, h9, h10⟩ := h
  simp [Focus.Loose] at *
  constructor <;> try simp [Focus.Loose]
  all_goals grind

theorem detach (h : Book s f) (hrest : f.rest = []) (hcur : f.cur = some (id, t))
    (hhanded : f.handed = some id) (hentry : t'.cacheEntry = none) (hqueued : t'.queued = t.queued)
    (htimer : t'.timer = t.timer) :
    Book (s.setTask id t') { f with hand := some id, cur := none, handed := none } := by
  obtain ⟨i, hi, he, hq⟩ := h.cur_entry hcur
  have hq' := isQueued_of_tasks (h.cur id t hcur).1
  obtain ⟨h1, h11, h2, h3, h4, h5, h6, h7, h8, h9, h10⟩ := h
  rw [hhanded] at h2 h3 h4 h5
  simp [Focus.Loose] at *
  constructor <;> try simp [Focus.Loose]
  all_goals grind

/-! ### An entry is flagged, and abandoned -/

theorem flag (h : Book s f) (hclaim : f.claim = none) (he : s.entries[i]? = some e)
    (hupdating : e.updating = false) (hupdating' : e'.updating = true) (htask : e'.task = e.task) :
    Book (s.setEntry i e') { f with claim := some i } := by
  have hupd₀ := isUpdating_of_getElem? he
  have hupd := isUpdating_setEntry he (d := e')
  have hqueue := queueOf_setEntry he (d := e')
  have hwaits := waits_setEntry he (d := e')
  obtain ⟨h1, h11, h2, h3, h4, h5, h6, h7, h8, h9, h10⟩ := h
  simp [Focus.Loose] at *
  constructor <;> try simp [Focus.Loose]
  all_goals grind

theorem abandon (h : Book s f) (hclaim : f.claim = some i) :
    Book (s.emit (.abandon i)) { f with claim := none } := by
  obtain ⟨h1, h11, h2, h3, h4, h5, h6, h7, h8, h9, h10⟩ := h
  have hlog : ∀ j, .abandon j ∈ (s.emit (.abandon i)).log ↔ j = i ∨ .abandon j ∈ s.log := by
    intro j
    rw [Resolver.emit, List.mem_cons, Trace.abandon.injEq]
  have hentry : (s.emit (.abandon i)).entryOf = s.entryOf := rfl
  have hupd : (s.emit (.abandon i)).isUpdating = s.isUpdating := rfl
  have hqueue : (s.emit (.abandon i)).queueOf = s.queueOf := rfl
  have hwaits : (s.emit (.abandon i)).waits = s.waits := rfl
  have hqueued : (s.emit (.abandon i)).isQueued = s.isQueued := rfl
  have htimed : (s.emit (.abandon i)).isTimed = s.isTimed := rfl
  have htasks : (s.emit (.abandon i)).tasks = s.tasks := rfl
  have howner : ∀ j, s.isUpdating j = true → ¬ (j = i ∨ .abandon j ∈ s.log) →
      ∃ id, s.entryOf id = some j ∧ f.handed ≠ some id := by
    intro j hj hloose
    apply h4 j hj
    rintro (hj | hj)
    · rw [hclaim] at hj
      exact hloose (.inl (Option.some.inj hj).symm)
    · exact hloose (.inr hj)
  simp only [Focus.Loose, hclaim] at h5
  constructor <;> simp only [Focus.Loose, hlog, hentry, hupd, hqueue, hwaits, hqueued, htimed, htasks] <;>
    grind

theorem push (h : Book s f) (hclaim : f.claim = none) (hupdating : e.updating = true) (htask : e.task = []) :
    Book { s with entries := s.entries ++ [e] } { f with claim := some s.entries.length } := by
  set s' : Resolver := { s with entries := s.entries ++ [e] } with hs'
  have hget : ∀ j, s'.entries[j]? = if j = s.entries.length then some e else s.entries[j]? := by
    intro j
    rw [hs', List.getElem?_append]
    rcases Nat.lt_trichotomy j s.entries.length with hlt | rfl | hgt
    · rw [if_pos hlt, if_neg (Nat.ne_of_lt hlt)]
    · rw [if_neg (Nat.lt_irrefl _), if_pos rfl, Nat.sub_self, List.getElem?_cons_zero]
    · rw [if_neg (Nat.not_lt_of_lt hgt), if_neg (Nat.ne_of_gt hgt), List.getElem?_eq_none (Nat.le_of_lt hgt),
        List.getElem?_eq_none (by rw [List.length_singleton]; omega)]
  have hnew : s.isUpdating s.entries.length = false := by
    rw [isUpdating, List.getElem?_eq_none (Nat.le_refl _), Option.any_none]
  have hupd : ∀ j, s'.isUpdating j = if j = s.entries.length then true else s.isUpdating j := by
    intro j
    rw [isUpdating, hget]
    split
    · exact hupdating
    · rfl
  have hqueue : ∀ j, s'.queueOf j = if j = s.entries.length then [] else s.queueOf j := by
    intro j
    rw [queueOf, hget]
    split
    · exact htask
    · rfl
  have hwaits : ∀ id, s'.waits id = s.waits id := by
    intro id
    rw [Resolver.waits, hs', List.map_append, List.sum_append, List.map_singleton, htask, List.count_nil,
      List.sum_singleton, Nat.add_zero, Resolver.waits]
  have hentry : s'.entryOf = s.entryOf := rfl
  have hqueued : s'.isQueued = s.isQueued := rfl
  have htimed : s'.isTimed = s.isTimed := rfl
  have htasks : s'.tasks = s.tasks := rfl
  have hlog : s'.log = s.log := rfl
  obtain ⟨h1, h11, h2, h3, h4, h5, h6, h7, h8, h9, h10⟩ := h
  simp only [Focus.Loose, hclaim] at h4 h5
  constructor <;> simp only [Focus.Loose, hlog, hentry, hupd, hqueue, hwaits, hqueued, htimed, htasks] <;>
    grind

/-! ### A task is freed -/

theorem views_taskFree (ht : s.tasks id = some t) :
    (∀ id', (taskFree (some id) s).tasks id' = if id' = id then none else s.tasks id') ∧
    (∀ id', (taskFree (some id) s).entryOf id' = if id' = id then none else s.entryOf id') ∧
    (∀ id', (taskFree (some id) s).isQueued id' = if id' = id then false else s.isQueued id') ∧
    (∀ id', (taskFree (some id) s).isTimed id' = if id' = id then false else s.isTimed id') ∧
    (taskFree (some id) s).entries = s.entries ∧
    (taskFree (some id) s).log = .release t.udata :: s.log := by
  have hfree : taskFree (some id) s = { s with
      tasks := Function.update s.tasks id none
      tasksCount := s.tasksCount - 1 }.emit (.release t.udata) := by
    unfold taskFree
    simp only [ht]
  have htasks : ∀ id', (taskFree (some id) s).tasks id' = if id' = id then none else s.tasks id' := by
    intro id'
    rw [hfree]
    exact Function.update_apply ..
  refine ⟨htasks, ?_, ?_, ?_, by rw [hfree]; rfl, by rw [hfree]; rfl⟩
  · intro id'
    unfold entryOf
    rw [htasks]
    split <;> rfl
  · intro id'
    unfold isQueued
    rw [htasks]
    split <;> rfl
  · intro id'
    unfold isTimed
    rw [htasks]
    split <;> rfl

theorem taskFree {f' : Focus} (h : Book s f) (ht : s.tasks id = some t) (hq : s.isQueued id = false)
    (hrest : f'.rest = f.rest) (hhand : f'.hand = none) (hsending : f'.sending = none)
    (hcur : ∀ id' t', f'.cur = some (id', t') → f.cur = some (id', t') ∧ id' ≠ id)
    (hhanded : ∀ id', id' ≠ id → (f'.handed = some id' ↔ f.handed = some id'))
    (hclaim : ∀ j, f'.claim = some j ↔ f.claim = some j ∨ s.entryOf id = some j ∧ f.handed ≠ some id) :
    Book (taskFree (some id) s) f' := by
  obtain ⟨htasks, hentry, hqueued, htimed, hentries, hlog⟩ := views_taskFree ht
  have hupd : (Resolv.taskFree (some id) s).isUpdating = s.isUpdating := by
    funext j
    rw [isUpdating, hentries, isUpdating]
  have hqueue : (Resolv.taskFree (some id) s).queueOf = s.queueOf := by
    funext j
    rw [queueOf, hentries, queueOf]
  have hwaits : (Resolv.taskFree (some id) s).waits = s.waits := by
    funext id'
    rw [Resolver.waits, hentries, Resolver.waits]
  have habandon : ∀ j, .abandon j ∈ (Resolv.taskFree (some id) s).log ↔ .abandon j ∈ s.log := by
    intro j
    rw [hlog, List.mem_cons]
    exact or_iff_right nofun
  obtain ⟨h1, h11, h2, h3, h4, h5, h6, h7, h8, h9, h10⟩ := h
  constructor <;>
    simp only [Focus.Loose, habandon, hentry, hupd, hqueue, hwaits, hqueued, htimed, htasks, hrest, hhand,
      hsending, hclaim] at * <;>
    grind

end Book

end Dns.Resolv

/-!
# What a request has seen

The items of the trace about a request are its history.  A request waits while its task is there, and
it is settled when its history is complete.
-/

namespace Dns.Resolv

/-- The history of a request, the oldest item first. -/
def Resolver.history (s : Resolver) (req : Nat) : List Trace :=
  s.log.reverse.filter fun item => item.about = some req

/-- A request is over: answered at once, answered before its task is freed, or cancelled. -/
def Settled (req : Nat) (history : List Trace) : Prop :=
  (∃ error addrs, history = [.accept req, .callback req error addrs]) ∨
  (∃ error addrs, history = [.accept req, .callback req error addrs, .release req]) ∨
  history = [.accept req, .cancel req, .release req]

/-- The history of a request whose task is there. -/
def Task.history (t : Task) : List Trace :=
  if t.cbFunc then [.accept t.udata] else [.accept t.udata, .cancel t.udata]

/-- The code is at work for the task. -/
def Focus.Holds (f : Focus) (id : TaskId) : Prop :=
  f.hand = some id ∨ f.sending = some id ∨ ∃ t, f.cur = some (id, t)

structure Calls (s : Resolver) (f : Focus) : Prop where
  held : ∀ id t, s.tasks id = some t → t.udata < s.requests ∧ s.history t.udata = t.history
  unique : ∀ id id' t t', s.tasks id = some t → s.tasks id' = some t' → t.udata = t'.udata → id = id'
  settled : ∀ req, req < s.requests → f.asking ≠ some req →
    (∃ id t, s.tasks id = some t ∧ t.udata = req) ∨ Settled req (s.history req)
  asking : ∀ req, f.asking = some req → req < s.requests ∧ s.history req = [.accept req] ∧
    ∀ id t, s.tasks id = some t → t.udata ≠ req
  fresh : ∀ req, s.requests ≤ req → s.history req = []
  placed : ∀ id t, s.tasks id = some t → t.queued = true ∨ t.timer = true ∨ f.Holds id

namespace Resolver

variable {s : Resolver} {item : Trace} {req : Nat}

theorem history_emit (s : Resolver) (item : Trace) (req : Nat) :
    (s.emit item).history req =
      if item.about = some req then s.history req ++ [item] else s.history req := by
  unfold history emit
  rw [List.reverse_cons, List.filter_append]
  by_cases h : item.about = some req
  · rw [if_pos h, List.filter_cons_of_pos (by simpa using h), List.filter_nil]
  · rw [if_neg h, List.filter_cons_of_neg (by simpa using h), List.filter_nil, List.append_nil]

theorem history_of_log {s' : Resolver} (h : s'.log = s.log) (req : Nat) : s'.history req = s.history req := by
  rw [history, h, history]

end Resolver

namespace Calls

open Mem Resolver

variable {s s' : Resolver} {f f' : Focus} {id : TaskId} {t t' : Task} {req : Nat}

theorem frame (h : Calls s f) (htasks : s'.tasks = s.tasks) (hrequests : s'.requests = s.requests)
    (hhistory : ∀ req, s'.history req = s.history req) (hasking : f'.asking = f.asking)
    (hholds : ∀ id, f.Holds id → f'.Holds id) : Calls s' f' := by
  obtain ⟨h1, h2, h3, h4, h5, h6⟩ := h
  constructor <;> simp only [htasks, hrequests, hhistory, hasking] <;> grind

theorem setTask (h : Calls s f) (ht : s.tasks id = some t) (hcb : t'.cbFunc = t.cbFunc)
    (hudata : t'.udata = t.udata) (hasking : f'.asking = f.asking)
    (hholds : ∀ id', id' ≠ id → f.Holds id' → f'.Holds id')
    (hplaced : t'.queued = true ∨ t'.timer = true ∨ f'.Holds id) : Calls (s.setTask id t') f' := by
  have hhistory : t'.history = t.history := by rw [Task.history, hcb, hudata, Task.history]
  have hreq : (s.setTask id t').requests = s.requests := rfl
  have hlog : ∀ req, (s.setTask id t').history req = s.history req := fun _ => rfl
  obtain ⟨h1, h2, h3, h4, h5, h6⟩ := h
  constructor <;> simp only [hreq, hlog, hasking, tasks_setTask] <;> grind

theorem accept (h : Calls s f) (hasking : f.asking = none) :
    Calls ({ s with requests := s.requests + 1 }.emit (.accept s.requests))
      { f with asking := some s.requests } := by
  have hlog : ∀ req, ({ s with requests := s.requests + 1 }.emit (.accept s.requests)).history req =
      if s.requests = req then s.history req ++ [.accept s.requests] else s.history req := by
    intro req
    rw [history_emit]
    simp only [Trace.about, Option.some.injEq]
    rfl
  have hfresh := h.fresh s.requests (Nat.le_refl _)
  have hreq : ({ s with requests := s.requests + 1 }.emit (.accept s.requests)).requests = s.requests + 1 :=
    rfl
  have htasks : ({ s with requests := s.requests + 1 }.emit (.accept s.requests)).tasks = s.tasks := rfl
  obtain ⟨h1, h2, h3, h4, h5, h6⟩ := h
  simp only [Focus.Holds] at *
  constructor <;> simp only [hreq, hlog, htasks, Focus.Holds]
  all_goals grind

theorem alloc (h : Calls s f) (hasking : f.asking = some t.udata) (hhand : f.hand = none)
    (hnone : s.tasks id = none) (hcb : t.cbFunc = true) :
    Calls (s.setTask id t) { f with hand := some id, asking := none } := by
  obtain ⟨hlt, hhistory, hnew⟩ := h.asking _ hasking
  have hreq : (s.setTask id t).requests = s.requests := rfl
  have hlog : ∀ req, (s.setTask id t).history req = s.history req := fun _ => rfl
  have hself : t.history = [.accept t.udata] := by rw [Task.history, hcb, if_pos rfl]
  have hsettled : ∀ req, req < s.requests →
      (∃ id' t', (if id' = id then some t else s.tasks id') = some t' ∧ t'.udata = req) ∨
        Settled req (s.history req) := by
    intro req hreq
    by_cases heq : t.udata = req
    · exact .inl ⟨id, t, if_pos rfl, heq⟩
    · have hne : f.asking ≠ some req := by
        rw [hasking]
        exact fun h => heq (Option.some.inj h)
      rcases h.settled req hreq hne with ⟨id', t', ht', rfl⟩ | hsettled
      · have hid : id' ≠ id := by
          rintro rfl
          rw [hnone] at ht'
          cases ht'
        exact .inl ⟨id', t', by rw [if_neg hid, ht'], rfl⟩
      · exact .inr hsettled
  obtain ⟨h1, h2, h3, h4, h5, h6⟩ := h
  simp only [Focus.Holds] at *
  constructor <;> simp only [hreq, hlog, tasks_setTask, Focus.Holds]
  all_goals grind

theorem cancel (h : Calls s f) (ht : s.tasks id = some t) (hcb : t.cbFunc = true)
    (hcur : f.cur = none) :
    Calls ((s.setTask id { t with cbFunc := false }).emit (.cancel t.udata)) f := by
  have hheld := (h.held id t ht).2
  rw [Task.history, hcb, if_pos rfl] at hheld
  have hlog : ∀ req, ((s.setTask id { t with cbFunc := false }).emit (.cancel t.udata)).history req =
      if t.udata = req then s.history req ++ [.cancel t.udata] else s.history req := by
    intro req
    rw [history_emit]
    simp only [Trace.about, Option.some.injEq]
    rfl
  have hself : Task.history { t with cbFunc := false } = [.accept t.udata, .cancel t.udata] := rfl
  have htasks : ∀ id', ((s.setTask id { t with cbFunc := false }).emit (.cancel t.udata)).tasks id' =
      if id' = id then some { t with cbFunc := false } else s.tasks id' := tasks_setTask s id _
  have hreq : ((s.setTask id { t with cbFunc := false }).emit (.cancel t.udata)).requests = s.requests := rfl
  obtain ⟨h1, h2, h3, h4, h5, h6⟩ := h
  simp only [Focus.Holds] at *
  constructor <;> simp only [hreq, hlog, htasks, Focus.Holds]
  all_goals grind

theorem answer (h : Calls s f) (hasking : f.asking = some req) (error : Option Errno)
    (addrs : List (Family × List Byte)) :
    Calls (s.emit (.callback req error addrs)) { f with asking := none } := by
  obtain ⟨hlt, hhistory, hnew⟩ := h.asking _ hasking
  have hlog : ∀ req', (s.emit (.callback req error addrs)).history req' =
      if req = req' then s.history req' ++ [.callback req error addrs] else s.history req' := by
    intro req'
    rw [history_emit]
    simp only [Trace.about, Option.some.injEq]
  have hsettled : Settled req ([.accept req] ++ [.callback req error addrs]) := .inl ⟨error, addrs, rfl⟩
  have hreq : (s.emit (.callback req error addrs)).requests = s.requests := rfl
  have htasks : (s.emit (.callback req error addrs)).tasks = s.tasks := rfl
  obtain ⟨h1, h2, h3, h4, h5, h6⟩ := h
  simp only [hasking, Focus.Holds, ne_eq, Option.some.injEq] at h3 h6
  constructor <;> simp only [hreq, hlog, htasks, Focus.Holds] <;> grind

theorem taskFree (h : Calls s f) (ht : s.tasks id = some t) (htasks : s'.tasks = s.tasks)
    (hrequests : s'.requests = s.requests)
    (hothers : ∀ req, req ≠ t.udata → s'.history req = s.history req)
    (hsettled : Settled t.udata (s'.history t.udata ++ [.release t.udata])) (hasking : f'.asking = f.asking)
    (hholds : ∀ id', id' ≠ id → f.Holds id' → f'.Holds id') : Calls (taskFree (some id) s') f' := by
  have ht' : s'.tasks id = some t := by rw [htasks, ht]
  obtain ⟨htasks', -, -, -, -, hlog⟩ := Book.views_taskFree ht'
  have hhistory : ∀ req, (Resolv.taskFree (some id) s').history req =
      if t.udata = req then s'.history req ++ [.release t.udata] else s'.history req := by
    intro req
    have hemit : (Resolv.taskFree (some id) s').history req = (s'.emit (.release t.udata)).history req :=
      history_of_log hlog req
    rw [hemit, history_emit]
    simp only [Trace.about, Option.some.injEq]
  have hreq : (Resolv.taskFree (some id) s').requests = s.requests := by
    rw [← hrequests]
    unfold Resolv.taskFree
    simp only [ht']
    rfl
  obtain ⟨h1, h2, h3, h4, h5, h6⟩ := h
  constructor <;> simp only [hreq, hhistory, htasks', htasks, hasking] at * <;> grind

theorem callback (h : Calls s f) (ht : s.tasks id = some t) (hcb : t.cbFunc = true) (error : Option Errno)
    (addrs : List (Family × List Byte)) (hasking : f'.asking = f.asking)
    (hholds : ∀ id', id' ≠ id → f.Holds id' → f'.Holds id') :
    Calls (Resolv.taskFree (some id) (s.emit (.callback t.udata error addrs))) f' := by
  have habout : (Trace.callback t.udata error addrs).about = some t.udata := rfl
  have hhistory := (h.held id t ht).2
  rw [Task.history, hcb, if_pos rfl] at hhistory
  refine h.taskFree ht rfl rfl ?_ ?_ hasking hholds
  · intro req hne
    rw [history_emit, habout, if_neg fun heq => hne (Option.some.inj heq).symm]
  · rw [history_emit, habout, if_pos rfl, hhistory]
    exact .inr (.inl ⟨error, addrs, rfl⟩)

end Calls

end Dns.Resolv
