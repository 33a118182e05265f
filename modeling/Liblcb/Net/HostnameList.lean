import Liblcb.Lib.KeyedList
import Liblcb.Utils.Wire

/-!
# Host name lists

`net/hostname_list.h`.  A name is stored once, whatever the case of its letters; a `*` is not stored
but sets a flag.  `hostname_list_check_any` answers the question the other way round: it succeeds on a
list without the flag.
-/

namespace Net

open Mem KeyedList

def hostnamePrealloc : Nat := 8

/-- `hostname_list_t`. -/
structure HostnameList where
  allocated : Nat
  names : List (List Byte)
  anyName : Bool
  fits : names.length ≤ allocated

def hostnameListInit : HostnameList := ⟨0, [], false, Nat.le_refl 0⟩

/-- The name `*`. -/
def anyHost : List Byte := [chr '*']

def hostnameListCheckAny (l : HostnameList) : Except Errno Unit :=
  if l.anyName then .error .enoent else .ok ()

def hostnameListFind (l : HostnameList) (name : List Byte) : Except Errno Unit :=
  if name.length = 0 then .error .einval
  else if l.names.any (memCmpin · name) then .ok ()
  else .error .enoent

def hostnameListCheck (l : HostnameList) (name : List Byte) : Except Errno Unit :=
  if name.length = 0 then .error .einval
  else if hostnameListCheckAny l = .ok () then .ok ()
  else if l.names.any (memCmpin · name) then .ok ()
  else .error .enoent

theorem length_concat_le {names : List (List Byte)} {n : Nat} (name : List Byte)
    (h : names.length < n) : (names ++ [name]).length ≤ n := by
  rw [List.length_append, List.length_singleton]
  exact h

/-- The list with `name` behind the others. -/
def HostnameList.append (l : HostnameList) (name : List Byte) (allocated : Nat)
    (h : l.names.length < allocated) : HostnameList where
  allocated
  names := l.names ++ [name]
  anyName := l.anyName
  fits := length_concat_le name h

/-- `hostname_list_add`; `realloc` and `malloc` are the answers of the allocator. -/
def hostnameListAdd (l : HostnameList) (name : List Byte) (realloc malloc : Bool) :
    Except Errno Unit × HostnameList :=
  if name.length = 0 then (.error .einval, l)
  else if name = anyHost then (.ok (), { l with anyName := true })
  else if hostnameListFind l name = .ok () then (.ok (), l)
  else
    match h : reallocItems l.allocated hostnamePrealloc l.names.length realloc with
    | none => (.error .enomem, l)
    | some allocated =>
      have hroom := reallocItems_lt (Nat.succ_pos 7) h
      if malloc then (.ok (), l.append name allocated hroom)
      else (.error .enomem, { l with allocated, fits := Nat.le_of_lt hroom })

/-- The list after a run of additions that get their memory. -/
def hostnamesAdded (names : List (List Byte)) : HostnameList :=
  names.foldl (fun l name => (hostnameListAdd l name true true).2) hostnameListInit

/-! ## One addition -/

theorem isKey_memCmpin : IsKey memCmpin where
  symm _ _ h := memCmpin_iff.mpr (memCmpin_iff.mp h).symm
  trans _ _ _ h h' := memCmpin_iff.mpr ((memCmpin_iff.mp h).trans (memCmpin_iff.mp h'))

theorem ne_nil_of_memCmpin {a name : List Byte} (hne : name ≠ []) (h : memCmpin a name = true) :
    a ≠ [] := by
  rintro rfl
  exact hne (List.eq_nil_of_length_eq_zero (length_of_memCmpin h).symm)

theorem length_ne_zero {name : List Byte} (h : name ≠ []) : name.length ≠ 0 := by
  rw [Ne, List.length_eq_zero_iff]
  exact h

theorem hostnameListFind_iff {l : HostnameList} {name : List Byte} (h : name ≠ []) :
    hostnameListFind l name = .ok () ↔ l.names.any (memCmpin · name) = true := by
  rw [hostnameListFind, if_neg (length_ne_zero h)]
  split
  · next hfound => exact iff_of_true rfl hfound
  · next hfound => exact iff_of_false (fun h => by cases h) hfound

theorem hostnameListCheck_iff {l : HostnameList} {name : List Byte} (h : name ≠ []) :
    hostnameListCheck l name = .ok () ↔
      l.anyName = false ∨ l.names.any (memCmpin · name) = true := by
  rw [hostnameListCheck, if_neg (length_ne_zero h), hostnameListCheckAny]
  cases l.anyName with
  | false => simp
  | true =>
    by_cases hfound : l.names.any (memCmpin · name) = true
    · simp [hfound]
    · simp [hfound]

theorem add_nil (l : HostnameList) (realloc malloc : Bool) :
    hostnameListAdd l [] realloc malloc = (.error .einval, l) := rfl

theorem add_any (l : HostnameList) (realloc malloc : Bool) :
    hostnameListAdd l anyHost realloc malloc = (.ok (), { l with anyName := true }) := rfl

theorem add_name (l : HostnameList) {name : List Byte} (hne : name ≠ []) (hany : name ≠ anyHost) :
    (hostnameListAdd l name true true).1 = .ok () ∧
      (hostnameListAdd l name true true).2.names = add memCmpin l.names name ∧
      (hostnameListAdd l name true true).2.anyName = l.anyName := by
  rw [hostnameListAdd, if_neg (length_ne_zero hne), if_neg hany, add]
  by_cases hfind : hostnameListFind l name = .ok ()
  · rw [if_pos hfind, if_pos ((hostnameListFind_iff hne).mp hfind)]
    exact ⟨rfl, rfl, rfl⟩
  · rw [if_neg hfind, if_neg (fun h => hfind ((hostnameListFind_iff hne).mpr h))]
    split
    · next hnone =>
        have hsome := reallocItems_isSome l.allocated hostnamePrealloc l.names.length
        rw [hnone] at hsome
        cases hsome
    · exact ⟨rfl, rfl, rfl⟩

/-! ## Every run -/

/-- What a run of additions leaves: the flag, the names of the list, and no name twice. -/
structure Holds (added : List (List Byte)) (l : HostnameList) : Prop where
  any : l.anyName = true ↔ anyHost ∈ added
  names : ∀ name, (∃ a ∈ l.names, memCmpin a name = true) ↔
    ∃ a ∈ added, a ≠ [] ∧ a ≠ anyHost ∧ memCmpin a name = true
  distinct : Distinct memCmpin l.names

theorem holds_init : Holds [] hostnameListInit where
  any := by simp [hostnameListInit]
  names := by simp [hostnameListInit]
  distinct := distinct_nil

theorem Holds.add {added : List (List Byte)} {l : HostnameList} (h : Holds added l)
    (name : List Byte) : Holds (added ++ [name]) (hostnameListAdd l name true true).2 := by
  by_cases hne : name = []
  · -- the empty name is refused
    subst hne
    rw [add_nil]
    exact {
      any := by simp [h.any, anyHost]
      names := fun name => by simp [h.names]
      distinct := h.distinct }
  · by_cases hany : name = anyHost
    · subst hany
      rw [add_any]
      exact {
        any := by simp
        names := fun name => by simp [h.names]
        distinct := h.distinct }
    · obtain ⟨-, hnames, hflag⟩ := add_name l hne hany
      refine ⟨?_, ?_, ?_⟩
      · rw [hflag, h.any, List.mem_append, List.mem_singleton]
        exact ⟨Or.inl, fun hmem => hmem.resolve_right (Ne.symm hany)⟩
      · intro asked
        rw [hnames, exists_mem_add isKey_memCmpin, h.names]
        simp only [List.mem_append, List.mem_singleton, or_and_right, exists_or,
          exists_eq_left, hne, hany, ne_eq, not_false_eq_true, true_and]
      · rw [hnames]
        exact distinct_add h.distinct

theorem holds_foldl : ∀ {names added : List (List Byte)} {l : HostnameList}, Holds added l →
    Holds (added ++ names) (names.foldl (fun l name => (hostnameListAdd l name true true).2) l)
  | [], added, _, h => by rwa [List.append_nil]
  | name :: names, added, l, h => by
    rw [List.foldl_cons, ← List.singleton_append, ← List.append_assoc]
    exact holds_foldl (h.add name)

theorem holds_hostnamesAdded (names : List (List Byte)) : Holds names (hostnamesAdded names) := by
  have h := @holds_foldl names [] hostnameListInit holds_init
  rwa [List.nil_append] at h

/-- The names a list was given say that the host is its own. -/
def IsOwn (added : List (List Byte)) (name : List Byte) : Prop :=
  anyHost ∈ added ∨ ∃ a ∈ added, memCmpin a name = true

theorem isOwn_iff {names : List (List Byte)} {name : List Byte} (hne : name ≠ []) :
    IsOwn names name ↔ (hostnamesAdded names).anyName = true ∨
      ∃ a ∈ (hostnamesAdded names).names, memCmpin a name = true := by
  have h := holds_hostnamesAdded names
  rw [IsOwn, h.any, h.names]
  constructor
  · intro hown
    rcases hown with hany | ⟨a, ha, hcmp⟩
    · exact .inl hany
    · by_cases hstar : a = anyHost
      · exact .inl (hstar ▸ ha)
      · exact .inr ⟨a, ha, ne_nil_of_memCmpin hne hcmp, hstar, hcmp⟩
  · intro hheld
    rcases hheld with hany | ⟨a, ha, -, -, hcmp⟩
    · exact .inl hany
    · exact .inr ⟨a, ha, hcmp⟩

/-- The stored names differ in more than case, after every run of additions.  The check answers right
exactly for the names that are in the list by themselves: without a `*` it succeeds for any name, and
with one only for a name that was added as well. -/
theorem hostnameListCheck_own_iff (names : List (List Byte)) {name : List Byte} (hne : name ≠ []) :
    Distinct memCmpin (hostnamesAdded names).names ∧
      ((hostnameListCheck (hostnamesAdded names) name = .ok () ↔ IsOwn names name) ↔
        ∃ a ∈ names, a ≠ anyHost ∧ memCmpin a name = true) := by
  have h := holds_hostnamesAdded names
  have hadded : (∃ a ∈ names, a ≠ anyHost ∧ memCmpin a name = true) ↔
      (hostnamesAdded names).names.any (memCmpin · name) = true := by
    rw [List.any_eq_true, h.names]
    constructor
    · intro hname
      rcases hname with ⟨a, ha, hstar, hcmp⟩
      exact ⟨a, ha, ne_nil_of_memCmpin hne hcmp, hstar, hcmp⟩
    · intro hname
      rcases hname with ⟨a, ha, -, hstar, hcmp⟩
      exact ⟨a, ha, hstar, hcmp⟩
  refine ⟨h.distinct, ?_⟩
  rw [hostnameListCheck_iff hne, isOwn_iff hne, hadded, ← List.any_eq_true]
  -- the flag counts the other way round, so the two only agree where the list decides
  cases (hostnamesAdded names).anyName <;>
    cases (hostnamesAdded names).names.any (memCmpin · name) <;> simp

theorem hostnameListCheck_own_localhost :
    [chr 'a'] ≠ [] ∧ Distinct memCmpin (hostnamesAdded [anyHost, [chr 'A']]).names ∧
      ((hostnameListCheck (hostnamesAdded [anyHost, [chr 'A']]) [chr 'a'] = .ok () ↔
        IsOwn [anyHost, [chr 'A']] [chr 'a']) ↔
        ∃ a ∈ [anyHost, [chr 'A']], a ≠ anyHost ∧ memCmpin a [chr 'a'] = true) :=
  ⟨List.cons_ne_nil _ _, hostnameListCheck_own_iff _ (List.cons_ne_nil _ _)⟩

/-- A list with nothing in it takes any name for its own. -/
theorem hostnameListCheck_inverted :
    ¬ (∀ names : List (List Byte), ∀ name : List Byte, name ≠ [] →
      (hostnameListCheck (hostnamesAdded names) name = .ok () ↔ IsOwn names name)) := by
  intro h
  have hempty := (h [] [chr 'a'] (List.cons_ne_nil _ _)).mp rfl
  simp [IsOwn] at hempty

end Net
