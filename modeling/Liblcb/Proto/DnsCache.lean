import Liblcb.Lib.KeyedList
import Liblcb.Lib.Progress
import Liblcb.Proto.DnsResolv

/-!
# Updates of a cache entry

`dns_rslvr_cache_entry_data_add` with its loops: new addresses are merged into the array, and those
that have outlived their time are deleted from it in place.  The resolver's own account of an update
leaves out the second loop.
-/

namespace Dns.Resolv

open Mem Buffer KeyedList
open Progress (Next Lowers)

def cdFCname : BitVec 16 := 1#16 <<< 9

/-- `DNS_R_F_IPV4` or `DNS_R_F_IPV6`. -/
def familyFlag : Family → BitVec 16
  | .inet => 1#16 <<< 0
  | .inet6 => 1#16 <<< 1
  | .other => 0

/-! ## The loop that deletes -/

/-- The variables of the loop over the array. -/
structure Sweep where
  addrs : List CacheAddr
  dataCount : BitVec 64
  j : BitVec 64
  flags : BitVec 16
  validUntil : Int

/-- The address at `j` is deleted, and the index steps back. -/
def Sweep.delete (s : Sweep) : Sweep :=
  let dataCount := s.dataCount - 1#64
  let behind := (s.addrs.drop (s.j.toNat + 1)).take (dataCount.toNat - s.j.toNat)
  { s with addrs := splice s.addrs s.j.toNat behind, dataCount, j := s.j - 1#64 }

/-- The address at `j` stays. -/
def Sweep.keep (s : Sweep) (caddr : CacheAddr) : Sweep :=
  { s with
    flags := s.flags ||| familyFlag caddr.family
    validUntil := min s.validUntil caddr.validUntil }

def Sweep.next (s : Sweep) : Sweep := { s with j := s.j + 1#64 }

def sweepTurn (now : Int) (s : Sweep) : Option (Next Sweep Sweep) :=
  if s.j < s.dataCount then
    match s.addrs[s.j.toNat]? with
    | none => none
    | some caddr =>
      if caddr.validUntil < now then some (.again s.delete.next)
      else some (.again (s.keep caddr).next)
  else some (.done s)

def sweepRank (s : Sweep) : Nat := s.dataCount.toNat - s.j.toNat

/-- The loop over an array of addresses, with the expiry time to begin with. -/
def deleteOutdated (now : Int) (addrs : List CacheAddr) (validUntil : Int) : Option Sweep :=
  Progress.run (sweepTurn now) sweepRank ⟨addrs, BitVec.ofNat 64 addrs.length, 0#64, 0#16, validUntil⟩

/-! ## The update -/

/-- What `dns_rslvr_cache_entry_data_add` leaves, with the number of questions asked. -/
structure Added where
  error : Option Errno
  entry : Entry
  flags : BitVec 16
  tick : Nat

/-- The end of the update: the flags replace those of the entry. -/
def Added.of (error : Option Errno) (e : Entry) (flags : BitVec 16) (tick : Nat) : Added where
  error
  entry := { e with updating := false, cname := flags &&& cdFCname ≠ 0, task := [] }
  flags
  tick

/-- `Cname <-> IP conversion.` -/
def convert (new : Data) (e : Entry) : Entry :=
  if e.cname = new.isAlias then e else { e with data := .addrs [], dataAllocated := 0 }

/-- `dns_rslvr_cache_entry_data_add` up to the notification of the tasks. -/
def cacheEntryAdd (env : Env) (now : Int) (new : Data) (validUntil : Int) (e : Entry) (tick : Nat) :
    Added :=
  let flags := if new.isAlias then cdFCname else 0
  if new.count = 0 then .of none { e with validUntil } flags tick
  else
    let e := convert new e
    match new with
    | .alias name =>
      if memCmpin e.name name then .of (some .eloop) e flags tick
      else if e.dataAllocated = name.length then
        .of none { e with data := .alias (name.take e.data.count), validUntil } flags tick
      else if env.realloc tick then
        .of none { e with data := .alias name, dataAllocated := name.length, validUntil } flags
          (tick + 1)
      else .of (some .enomem) e flags (tick + 1)
    | .addrs addrs =>
      match mergeAddrs env addrs e tick with
      | (some error, e, tick) => .of (some error) e 0 tick
      | (none, e, tick) =>
        let all := e.cacheAddrs env
        match deleteOutdated now all (all.head?.elim validUntil (·.validUntil)) with
        | none => .of (some .noReturn) e 0 tick
        | some s =>
          let data := .addrs (s.addrs.take s.dataCount.toNat)
          .of none { e with data, validUntil := s.validUntil } s.flags tick

/-! ## What the loop leaves -/

section

variable {now : Int} {s : Sweep}

theorem toNat_next (h : s.j < s.dataCount) : (s.j + 1#64).toNat = s.j.toNat + 1 := by
  have hj := BitVec.lt_def.mp h
  have hcount := s.dataCount.isLt
  rw [BitVec.toNat_add, BitVec.toNat_ofNat]
  omega

theorem toNat_less (h : s.j < s.dataCount) : (s.dataCount - 1#64).toNat = s.dataCount.toNat - 1 := by
  have hj := BitVec.lt_def.mp h
  apply BitVec.toNat_sub_of_le
  rw [BitVec.le_def, BitVec.toNat_ofNat]
  omega

theorem delete_next_j : s.delete.next.j = s.j := BitVec.sub_add_cancel _ _

theorem sweepTurn_again {s' : Sweep} (h : sweepTurn now s = some (.again s')) :
    s.j < s.dataCount ∧ ∃ caddr, s.addrs[s.j.toNat]? = some caddr ∧
      (caddr.validUntil < now ∧ s' = s.delete.next ∨
        now ≤ caddr.validUntil ∧ s' = (s.keep caddr).next) := by
  rw [sweepTurn] at h
  split at h
  · next hlt =>
      refine ⟨hlt, ?_⟩
      split at h
      · cases h
      · next caddr hget =>
          refine ⟨caddr, hget, ?_⟩
          split at h
          · next hold =>
              rw [Option.some.injEq, Next.again.injEq] at h
              exact .inl ⟨hold, h.symm⟩
          · next hnew =>
              rw [Option.some.injEq, Next.again.injEq] at h
              exact .inr ⟨Int.not_lt.mp hnew, h.symm⟩
  · cases h

theorem lowers_sweepTurn (now : Int) : Lowers (sweepTurn now) sweepRank := by
  intro s s' h
  obtain ⟨hlt, caddr, -, hs' | hs'⟩ := sweepTurn_again h
  · have hj := BitVec.lt_def.mp hlt
    rw [hs'.2, sweepRank, delete_next_j]
    show (s.dataCount - 1#64).toNat - _ < _
    rw [toNat_less hlt, sweepRank]
    omega
  · have hj := BitVec.lt_def.mp hlt
    rw [hs'.2, sweepRank]
    show s.dataCount.toNat - (s.j + 1#64).toNat < _
    rw [toNat_next hlt, sweepRank]
    omega

/-- The addresses in use. -/
def Sweep.used (s : Sweep) : List CacheAddr := s.addrs.take s.dataCount.toNat

def isFresh (now : Int) (a : CacheAddr) : Bool := decide (now ≤ a.validUntil)

/-- Between two turns: what has been looked at is kept, what has not is as it was. -/
structure Sweeping (now : Int) (addrs : List CacheAddr) (first : Int) (s : Sweep) : Prop where
  le : s.j.toNat ≤ s.dataCount.toNat
  fits : s.dataCount.toNat ≤ s.addrs.length
  used : ∃ seen, seen ++ s.used.drop s.j.toNat = addrs ∧
    s.used.take s.j.toNat = seen.filter (isFresh now) ∧
    s.validUntil = ((seen.filter (isFresh now)).map (·.validUntil)).foldl min first

theorem sweeping_init (now : Int) {addrs : List CacheAddr} (first : Int)
    (h : addrs.length < 2 ^ 64) :
    Sweeping now addrs first ⟨addrs, BitVec.ofNat 64 addrs.length, 0#64, 0#16, first⟩ where
  le := Nat.zero_le _
  fits := by
    rw [BitVec.toNat_ofNat, Nat.mod_eq_of_lt h]
  used := by
    refine ⟨[], ?_, rfl, rfl⟩
    show addrs.take (BitVec.ofNat 64 addrs.length).toNat = addrs
    rw [BitVec.toNat_ofNat, Nat.mod_eq_of_lt h, List.take_length]

theorem and_familyFlag (flags : BitVec 16) (family : Family) :
    (flags ||| familyFlag family) &&& cdFCname = flags &&& cdFCname := by
  have hzero : familyFlag family &&& cdFCname = 0#16 := by
    cases family <;> rfl
  rw [BitVec.and_or_distrib_right, hzero, BitVec.or_zero]

theorem used_delete (hlt : s.j < s.dataCount) (hfits : s.dataCount.toNat ≤ s.addrs.length) :
    s.delete.next.used = s.used.take s.j.toNat ++ s.used.drop (s.j.toNat + 1) ∧
      s.delete.next.addrs.length = s.addrs.length := by
  have hj := BitVec.lt_def.mp hlt
  have hbehind : s.used.drop (s.j.toNat + 1) =
      (s.addrs.drop (s.j.toNat + 1)).take ((s.dataCount - 1#64).toNat - s.j.toNat) := by
    rw [Sweep.used, List.drop_take, toNat_less hlt]
    congr 1
    omega
  have hlen : (s.used.drop (s.j.toNat + 1)).length = (s.dataCount - 1#64).toNat - s.j.toNat := by
    rw [List.length_drop, Sweep.used, List.length_take, toNat_less hlt]
    omega
  have hend : (s.dataCount - 1#64).toNat = s.j.toNat + (s.used.drop (s.j.toNat + 1)).length := by
    rw [hlen, toNat_less hlt]
    omega
  have hroom : s.j.toNat + (s.used.drop (s.j.toNat + 1)).length ≤ s.addrs.length := by
    rw [hlen, toNat_less hlt]
    omega
  constructor
  · show (splice s.addrs s.j.toNat _).take (s.dataCount - 1#64).toNat = _
    rw [← hbehind, hend, take_splice (by omega)]
    congr 1
    rw [Sweep.used, List.take_take, Nat.min_eq_left (Nat.le_of_lt hj)]
  · show (splice s.addrs s.j.toNat _).length = _
    rw [← hbehind]
    exact length_splice hroom

/-- What a turn does to the addresses, whichever way it goes. -/
theorem Sweeping.turn {addrs : List CacheAddr} {first : Int} (h : Sweeping now addrs first s)
    {s' : Sweep} (hturn : sweepTurn now s = some (.again s')) : Sweeping now addrs first s' := by
  obtain ⟨hlt, caddr, hget, hs'⟩ := sweepTurn_again hturn
  obtain ⟨seen, hall, hkept, hmin⟩ := h.used
  have hj := BitVec.lt_def.mp hlt
  have hused : s.used[s.j.toNat]? = some caddr := by
    rw [Sweep.used, List.getElem?_take_of_lt hj]
    exact hget
  have hdrop : s.used.drop s.j.toNat = caddr :: s.used.drop (s.j.toNat + 1) :=
    List.drop_eq_getElem?_toList_append.trans (by rw [hused]; rfl)
  have hprefix : (s.used.take s.j.toNat).length = s.j.toNat := by
    rw [List.length_take, Sweep.used, List.length_take]
    have hfits := h.fits
    omega
  rcases hs' with ⟨hold, rfl⟩ | ⟨hnew, rfl⟩
  -- deleted: the addresses behind move up, and the index stays where it was
  · obtain ⟨huse, hlen⟩ := used_delete hlt h.fits
    have hfresh : isFresh now caddr = false := decide_eq_false (Int.not_le.mpr hold)
    have hcount : s.delete.next.dataCount.toNat = s.dataCount.toNat - 1 := toNat_less hlt
    refine ⟨?_, ?_, ⟨seen ++ [caddr], ?_, ?_, ?_⟩⟩
    · rw [delete_next_j, hcount]
      omega
    · have hfits := h.fits
      rw [hcount, hlen]
      omega
    · rw [delete_next_j, huse, List.drop_left' hprefix, List.append_assoc, List.singleton_append,
        ← hdrop]
      exact hall
    · rw [delete_next_j, huse, List.take_left' hprefix, List.filter_append, hkept]
      simp [hfresh]
    · show s.validUntil = _
      rw [List.filter_append]
      simpa [hfresh] using hmin
  -- kept, and counted for the time of the entry
  · have hfresh : isFresh now caddr = true := decide_eq_true hnew
    have hnext : (s.keep caddr).next.j.toNat = s.j.toNat + 1 := toNat_next hlt
    refine ⟨?_, h.fits, ⟨seen ++ [caddr], ?_, ?_, ?_⟩⟩
    · rw [hnext]
      exact hj
    · rw [hnext, List.append_assoc, List.singleton_append]
      show seen ++ caddr :: s.used.drop _ = _
      rw [← hdrop]
      exact hall
    · rw [hnext, List.filter_append, ← hkept]
      show s.used.take (s.j.toNat + 1) = _
      rw [List.take_add_one, hused]
      simp [hfresh]
    · show min s.validUntil caddr.validUntil = _
      rw [List.filter_append, List.map_append, List.foldl_append, ← hmin]
      simp [hfresh]

theorem Sweeping.turn_ne_none {addrs : List CacheAddr} {first : Int}
    (h : Sweeping now addrs first s) : sweepTurn now s ≠ none := by
  rw [sweepTurn]
  split
  · next hlt =>
      have hj := BitVec.lt_def.mp hlt
      have hfits := h.fits
      rw [List.getElem?_eq_getElem (by omega)]
      dsimp only
      split <;> exact Option.some_ne_none _
  · exact Option.some_ne_none _

theorem sweepTurn_done {s' : Sweep} (h : sweepTurn now s = some (.done s')) :
    ¬ s.j < s.dataCount ∧ s = s' := by
  rw [sweepTurn] at h
  split at h
  · split at h
    · cases h
    · split at h <;> cases h
  · next hge => exact ⟨hge, Next.done.inj (Option.some.inj h)⟩

theorem flags_deleteOutdated {addrs : List CacheAddr} {first : Int}
    (h : deleteOutdated now addrs first = some s) : s.flags &&& cdFCname = 0#16 := by
  have hkeep : ∀ s s', s.flags &&& cdFCname = 0#16 → sweepTurn now s = some (.again s') →
      s'.flags &&& cdFCname = 0#16 := by
    intro s s' hs hturn
    obtain ⟨-, caddr, -, ⟨-, rfl⟩ | ⟨-, rfl⟩⟩ := sweepTurn_again hturn
    · exact hs
    · show (s.flags ||| familyFlag caddr.family) &&& cdFCname = 0#16
      rw [and_familyFlag]
      exact hs
  obtain ⟨last, hlast, hdone⟩ := Progress.run_ends (I := fun s => s.flags &&& cdFCname = 0#16)
    (lowers_sweepTurn now) BitVec.zero_and hkeep h
  rw [← (sweepTurn_done hdone).2]
  exact hlast

theorem deleteOutdated_eq (now : Int) {addrs : List CacheAddr} (first : Int)
    (h : addrs.length < 2 ^ 64) : ∃ s, deleteOutdated now addrs first = some s ∧
      s.used = addrs.filter (isFresh now) ∧
      s.validUntil = ((addrs.filter (isFresh now)).map (·.validUntil)).foldl min first := by
  have hinit := sweeping_init now first h
  have hkeep : ∀ s s', Sweeping now addrs first s → sweepTurn now s = some (.again s') →
      Sweeping now addrs first s' := fun s s' hs hturn => hs.turn hturn
  obtain ⟨s, hs⟩ := (Progress.run_isSome_iff (lowers_sweepTurn now)).mpr fun s hreach =>
    (hreach.invariant hinit hkeep).turn_ne_none
  obtain ⟨last, hlast, hdone⟩ := Progress.run_ends (lowers_sweepTurn now) hinit hkeep hs
  have hends := sweepTurn_done hdone
  obtain ⟨seen, hall, hkept, hmin⟩ := hlast.used
  have hj : last.j.toNat = last.dataCount.toNat :=
    Nat.le_antisymm hlast.le (BitVec.le_def.mp (BitVec.not_lt.mp hends.1))
  have hlen : last.used.length ≤ last.j.toNat := by
    rw [hj]
    exact List.length_take_le _ _
  rw [List.drop_eq_nil_of_le hlen, List.append_nil] at hall
  rw [List.take_of_length_le hlen, hall] at hkept
  rw [hall] at hmin
  exact ⟨s, hs, hends.2 ▸ hkept, hends.2 ▸ hmin⟩

end

/-! ## The merge -/

/-- `Udpate existing.` -/
def renew (a c : CacheAddr) : CacheAddr := { c with validUntil := a.validUntil }

/-- The array after new addresses have been merged into it. -/
def merged (old new : List CacheAddr) : List CacheAddr :=
  new.foldl (fun l a => put cacheAddrCmp renew a l) old

theorem cacheAddrCmp_iff {a b : CacheAddr} :
    cacheAddrCmp a b = true ↔ a.family = b.family ∧ a.family ≠ .other ∧ a.addr = b.addr :=
  decide_eq_true_iff

theorem isKey_cacheAddrCmp : IsKey cacheAddrCmp where
  symm a b h := by
    obtain ⟨hfam, hne, haddr⟩ := cacheAddrCmp_iff.mp h
    exact cacheAddrCmp_iff.mpr ⟨hfam.symm, hfam ▸ hne, haddr.symm⟩
  trans a b c h h' := by
    obtain ⟨hfam, hne, haddr⟩ := cacheAddrCmp_iff.mp h
    obtain ⟨hfam', -, haddr'⟩ := cacheAddrCmp_iff.mp h'
    exact cacheAddrCmp_iff.mpr ⟨hfam.trans hfam', hne, haddr.trans haddr'⟩

theorem renew_cmp (a c d : CacheAddr) : cacheAddrCmp (renew a c) d = cacheAddrCmp c d := rfl

theorem distinct_merged {old : List CacheAddr} (h : Distinct cacheAddrCmp old)
    (new : List CacheAddr) : Distinct cacheAddrCmp (merged old new) :=
  distinct_foldl_put isKey_cacheAddrCmp (fun a c d _ => renew_cmp a c d) h

theorem length_merged_le (old new : List CacheAddr) :
    (merged old new).length ≤ old.length + new.length := length_foldl_put_le

theorem mergeAddrs_eq (env : Env) : ∀ (new : List CacheAddr) {old : List CacheAddr} {e : Entry}
    (tick : Nat), e.cacheAddrs env = old → ∃ n tick' error e',
      mergeAddrs env new e tick = (error, e', tick') ∧
      e'.cacheAddrs env = merged old (new.take n) ∧
      (e'.data = e.data ∨ e'.data.isAlias = false) ∧
      (error = none → n = new.length) ∧ ((∀ k, env.realloc k = true) → error = none)
  | [], old, e, tick, he =>
    ⟨0, tick, none, e, rfl, he, .inl rfl, fun _ => rfl, fun _ => rfl⟩
  | a :: new, old, e, tick, he => by
    rw [mergeAddrs, he]
    dsimp only
    -- the address is renewed where it is, or goes to the end of the array if there is memory
    cases hfind : old.findIdx? (cacheAddrCmp · a) with
    | some j =>
      obtain ⟨n, tick', error, e', heq, haddrs, hdata, hn, herr⟩ :=
        @mergeAddrs_eq env new (put cacheAddrCmp renew a old)
          { e with data := .addrs (put cacheAddrCmp renew a old) } tick rfl
      rw [put_eq_modify hfind] at heq
      refine ⟨n + 1, tick', error, e', heq, ?_, ?_, fun h => congrArg (· + 1) (hn h), herr⟩
      · rw [List.take_succ_cons, merged, List.foldl_cons]
        exact haddrs
      · exact .inr (hdata.elim (fun h => h ▸ rfl) id)
    | none =>
      cases hroom : reallocItems env tick e.dataAllocated old.length with
      | error err =>
        refine ⟨0, tick + 1, some err, e, rfl, he, .inl rfl, (fun h => by cases h), ?_⟩
        intro hmem
        rw [Resolv.reallocItems, hmem tick] at hroom
        split at hroom <;> cases hroom
      | ok room =>
        obtain ⟨n, tick', error, e', heq, haddrs, hdata, hn, herr⟩ :=
          @mergeAddrs_eq env new (put cacheAddrCmp renew a old)
            { e with
              data := .addrs (put cacheAddrCmp renew a old)
              dataAllocated := room } (tick + 1) rfl
        rw [put_eq_concat hfind] at heq
        refine ⟨n + 1, tick', error, e', heq, ?_, ?_, fun h => congrArg (· + 1) (hn h), herr⟩
        · rw [List.take_succ_cons, merged, List.foldl_cons]
          exact haddrs
        · exact .inr (hdata.elim (fun h => h ▸ rfl) id)

/-! ## The resolver's account of an update -/

theorem Added.of_eq (error : Option Errno) (e : Entry) {flags : BitVec 16} {cname : Bool} (tick : Nat)
    (h : decide (flags &&& cdFCname ≠ 0) = cname) :
    (Added.of error e flags tick).entry = { e with updating := false, cname, task := [] } := by
  rw [← h]
  rfl

theorem flags_start (new : Data) :
    decide ((if new.isAlias then cdFCname else 0) &&& cdFCname ≠ 0) = new.isAlias := by
  cases new.isAlias <;> rfl

theorem decide_flags {flags : BitVec 16} (h : flags &&& cdFCname = 0#16) :
    decide (flags &&& cdFCname ≠ 0) = false := by
  rw [h]
  rfl

/-- Filtering the array in one go is what the loops do, as long as its length is a `size_t`. -/
theorem cacheEntryAdd_eq_update (env : Env) (now : Int) (new : Data) (validUntil : Int) (e : Entry)
    (tick : Nat) (h : ((convert new e).cacheAddrs env).length + new.count < 2 ^ 64) :
    (cacheEntryAdd env now new validUntil e tick).error =
        (cacheEntryUpdate env now new validUntil e tick).1 ∧
      (cacheEntryAdd env now new validUntil e tick).entry =
        { (cacheEntryUpdate env now new validUntil e tick).2.1 with
          updating := false
          cname := new.isAlias
          task := [] } ∧
      (cacheEntryAdd env now new validUntil e tick).tick =
        (cacheEntryUpdate env now new validUntil e tick).2.2 := by
  rw [cacheEntryAdd, cacheEntryUpdate]
  dsimp only
  split
  · exact ⟨rfl, Added.of_eq _ _ _ (flags_start new), rfl⟩
  · have hconvert : (if e.cname = new.isAlias then e
        else { e with data := .addrs [], dataAllocated := 0 }) = convert new e := rfl
    rw [hconvert]
    cases new with
    | «alias» name =>
      dsimp only
      split
      · exact ⟨rfl, Added.of_eq _ _ _ (flags_start _), rfl⟩
      · split
        · exact ⟨rfl, Added.of_eq _ _ _ (flags_start _), rfl⟩
        · split
          · exact ⟨rfl, Added.of_eq _ _ _ (flags_start _), rfl⟩
          · exact ⟨rfl, Added.of_eq _ _ _ (flags_start _), rfl⟩
    | addrs new =>
      obtain ⟨n, tick', error, e', heq, haddrs, -⟩ :=
        mergeAddrs_eq env new (e := convert (.addrs new) e) tick rfl
      dsimp only
      rw [heq]
      cases error with
      | some error => exact ⟨rfl, Added.of_eq _ _ _ rfl, rfl⟩
      | none =>
        have hlen : (e'.cacheAddrs env).length < 2 ^ 64 := by
          have hmerged := length_merged_le ((convert (.addrs new) e).cacheAddrs env) (new.take n)
          have htake := List.length_take_le' n new
          rw [haddrs]
          exact Nat.lt_of_le_of_lt (Nat.le_trans hmerged (Nat.add_le_add_left htake _)) h
        obtain ⟨s, hs, hused, hmin⟩ := deleteOutdated_eq now
          ((e'.cacheAddrs env).head?.elim validUntil (·.validUntil)) hlen
        dsimp only
        rw [hs]
        refine ⟨rfl, ?_, rfl⟩
        dsimp only
        rw [Added.of_eq _ _ _ (decide_flags (flags_deleteOutdated hs)), hmin]
        rw [Sweep.used] at hused
        rw [hused]
        rfl

/-! ## What an update can do -/

/-- All that an update can leave in an entry, with the conversion of the data of the other kind. -/
inductive Leaves (env : Env) (now : Int) (new : Data) (e r : Entry) : Prop where
  | unchanged (empty : new.count = 0) (data : r.data = e.data)
  | converted (nonempty : new.count ≠ 0) (data : r.data = (convert new e).data)
  | stored {name name' : List Byte} (nonempty : new.count ≠ 0) (new_eq : new = .alias name)
      (data : r.data = .alias name')
  /-- there was no memory for all of the addresses -/
  | merging {addrs : List CacheAddr} {n : Nat} {e' : Entry} (nonempty : new.count ≠ 0)
      (new_eq : new = .addrs addrs)
      (addrs_eq : e'.cacheAddrs env = merged ((convert new e).cacheAddrs env) (addrs.take n))
      (kind : e'.data = (convert new e).data ∨ e'.data.isAlias = false) (data : r.data = e'.data)
  | swept {addrs : List CacheAddr} {n : Nat} {first : Int} {s : Sweep} (nonempty : new.count ≠ 0)
      (new_eq : new = .addrs addrs)
      (sweep : deleteOutdated now (merged ((convert new e).cacheAddrs env) (addrs.take n)) first = some s)
      (data : r.data = .addrs s.used)

theorem cacheEntryAdd_cname (env : Env) (now : Int) (new : Data) (validUntil : Int) (e : Entry)
    (tick : Nat) : (cacheEntryAdd env now new validUntil e tick).entry.cname = new.isAlias := by
  rw [cacheEntryAdd]
  dsimp only
  split
  · exact flags_start new
  · cases new with
    | «alias» name =>
      dsimp only
      split
      · exact flags_start _
      · split
        · exact flags_start _
        · split <;> exact flags_start _
    | addrs addrs =>
      dsimp only
      split
      · rfl
      · split
        · rfl
        · next s hs => exact decide_flags (flags_deleteOutdated hs)

theorem cacheEntryAdd_leaves (env : Env) (now : Int) (new : Data) (validUntil : Int) (e : Entry)
    (tick : Nat) : Leaves env now new e (cacheEntryAdd env now new validUntil e tick).entry := by
  rw [cacheEntryAdd]
  dsimp only
  split
  · next hzero => exact .unchanged hzero rfl
  next hsome =>
  cases new with
  | «alias» name =>
    dsimp only
    split
    · exact .converted hsome rfl
    · split
      · exact .stored hsome rfl rfl
      · split
        · exact .stored hsome rfl rfl
        · exact .converted hsome rfl
  | addrs addrs =>
    obtain ⟨n, tick', error, e', heq, haddrs, hkind, -⟩ :=
      mergeAddrs_eq env addrs (e := convert (.addrs addrs) e) tick rfl
    dsimp only
    rw [heq]
    cases error with
    | some error => exact .merging hsome rfl haddrs hkind rfl
    | none =>
      dsimp only
      split
      · exact .merging hsome rfl haddrs hkind rfl
      · next s hs =>
          rw [haddrs] at hs
          exact .swept hsome rfl hs rfl

/-! ## The kind of the data -/

/-- The flag says what the data are: an alias name, or addresses, or there are none. -/
def Kind (e : Entry) : Prop := e.data.count = 0 ∨ e.data.isAlias = e.cname

/-- An update without data does not come to an entry with data of the other kind. -/
def Clear (e : Entry) (new : Data) : Prop :=
  new.count = 0 → e.data.count = 0 ∨ e.data.isAlias = new.isAlias

theorem convert_data {e : Entry} (h : Kind e) (new : Data) :
    (convert new e).data.count = 0 ∨ (convert new e).data.isAlias = new.isAlias := by
  rw [convert]
  split
  · next hsame => exact h.imp_right fun hkind => hkind.trans hsame
  · exact .inl rfl

theorem kind_add_iff (env : Env) (now : Int) (new : Data) (validUntil : Int) {e : Entry}
    (tick : Nat) (h : Kind e) :
    Kind (cacheEntryAdd env now new validUntil e tick).entry ↔ Clear e new := by
  rw [Kind, cacheEntryAdd_cname]
  have hdata := convert_data h new
  cases cacheEntryAdd_leaves env now new validUntil e tick with
  | unchanged hzero hr =>
    rw [hr]
    exact ⟨fun hkind _ => hkind, fun hclear => hclear hzero⟩
  | converted hsome hr =>
    rw [hr]
    exact iff_of_true hdata fun hzero => absurd hzero hsome
  | stored hsome hnew hr =>
    rw [hr, hnew]
    exact iff_of_true (.inr rfl) fun hzero => absurd hzero (hnew ▸ hsome)
  | merging hsome hnew _ hkind hr =>
    rw [hr]
    refine iff_of_true ?_ fun hzero => absurd hzero hsome
    -- nothing was merged, or there are addresses
    rcases hkind with hsame | haddrs
    · rw [hsame]
      exact hdata
    · rw [haddrs, hnew]
      exact .inr rfl
  | swept hsome hnew _ hr =>
    rw [hr, hnew]
    exact iff_of_true (.inr rfl) fun hzero => absurd hzero (hnew ▸ hsome)

/-! ## Every sequence of updates -/

/-- An update: when it comes, and with what. -/
structure Update where
  now : Int
  new : Data
  validUntil : Int

/-- The entry after the updates, with the number of questions asked. -/
def addRun (env : Env) : List Update → Entry × Nat → Entry × Nat
  | [], s => s
  | u :: us, (e, tick) =>
    let added := cacheEntryAdd env u.now u.new u.validUntil e tick
    addRun env us (added.entry, added.tick)

theorem addRun_append (env : Env) : ∀ (us vs : List Update) (s : Entry × Nat),
    addRun env (us ++ vs) s = addRun env vs (addRun env us s)
  | [], _, _ => rfl
  | _ :: us, vs, _ => addRun_append env us vs _

/-- Every update comes to an entry it is clear for. -/
def AllClear (env : Env) (us : List Update) (s : Entry × Nat) : Prop :=
  ∀ before u, before ++ [u] <+: us → Clear (addRun env before s).1 u.new

theorem AllClear.append {env : Env} {us vs : List Update} {s : Entry × Nat}
    (h : AllClear env (us ++ vs) s) : AllClear env us s :=
  fun before u hpre => h before u (hpre.trans (List.prefix_append us vs))

theorem cacheEntryAlloc_data {env : Env} {name : List Byte} {s : Resolver} {e : Entry}
    (h : (cacheEntryAlloc env name s).1 = .ok e) : e.data = .addrs [] := by
  rw [cacheEntryAlloc] at h
  split at h
  · cases h
  · split at h
    · cases h
    · rw [← Except.ok.inj h]

section

variable {env : Env} {now validUntil : Int} {e : Entry} {old new kept : List CacheAddr} {tick : Nat}

/-- An entry that holds addresses, none of them twice. -/
structure HoldsAddrs (e : Entry) (old : List CacheAddr) : Prop where
  flag : e.cname = false
  data : e.data = .addrs old
  distinct : Distinct cacheAddrCmp old

/-- The flag says what the data are, and addresses, at most `n` of them, are there once. -/
structure Held (n : Nat) (e : Entry) : Prop where
  kind : Kind e
  distinct : ∀ l, e.data = .addrs l → Distinct cacheAddrCmp l ∧ l.length ≤ n

theorem cacheAddrs_held {n : Nat} (env : Env)
    (h : ∀ l, e.data = .addrs l → Distinct cacheAddrCmp l ∧ l.length ≤ n)
    (hdata : e.data.count = 0 ∨ e.data.isAlias = false) :
    Distinct cacheAddrCmp (e.cacheAddrs env) ∧ (e.cacheAddrs env).length ≤ n := by
  rw [Entry.cacheAddrs]
  cases hd : e.data with
  | addrs l => exact h l hd
  | «alias» name =>
    rw [hd] at hdata
    rcases hdata with hcount | halias
    · have hname : name.length = 0 := hcount
      dsimp only
      rw [hname, List.take_zero]
      exact ⟨distinct_nil, Nat.zero_le n⟩
    · cases halias

theorem held_convert {n : Nat} (h : Held n e) (new : Data) : ∀ l, (convert new e).data = .addrs l →
    Distinct cacheAddrCmp l ∧ l.length ≤ n := by
  rw [convert]
  split
  · exact h.distinct
  · intro l hl
    rw [← Data.addrs.inj hl]
    exact ⟨distinct_nil, Nat.zero_le n⟩

theorem Held.add {n : Nat} (h : Held n e) {new : Data} (hclear : Clear e new)
    (hsize : n + new.count < 2 ^ 64) :
    Held (n + new.count) (cacheEntryAdd env now new validUntil e tick).entry := by
  refine ⟨(kind_add_iff env now new validUntil tick h.kind).mpr hclear, ?_⟩
  have hmono : ∀ l : List CacheAddr, Distinct cacheAddrCmp l ∧ l.length ≤ n →
      Distinct cacheAddrCmp l ∧ l.length ≤ n + new.count :=
    fun l hl => ⟨hl.1, Nat.le_trans hl.2 (Nat.le_add_right _ _)⟩
  have hconv := held_convert h new
  have hdata := convert_data h.kind new
  -- the merged array, wherever the merge stopped
  have hmerged : ∀ addrs k, new = .addrs addrs →
      Distinct cacheAddrCmp (merged ((convert new e).cacheAddrs env) (addrs.take k)) ∧
      (merged ((convert new e).cacheAddrs env) (addrs.take k)).length ≤ n + new.count := by
    intro addrs k hnew
    subst hnew
    obtain ⟨hdistinct, hlen⟩ := cacheAddrs_held env hconv hdata
    have hle := length_merged_le ((convert (.addrs addrs) e).cacheAddrs env) (addrs.take k)
    have htake := List.length_take_le' k addrs
    exact ⟨distinct_merged hdistinct _, Nat.le_trans hle (Nat.add_le_add hlen htake)⟩
  intro l hl
  cases cacheEntryAdd_leaves env now new validUntil e tick with
  | unchanged _ hr => exact hmono l (h.distinct l (hr.symm.trans hl))
  | converted _ hr => exact hmono l (hconv l (hr.symm.trans hl))
  | stored _ _ hr => cases hr.symm.trans hl
  | @merging addrs k e' _ hnew haddrs _ hr =>
    have hl' : l = e'.cacheAddrs env := by rw [Entry.cacheAddrs, hr.symm.trans hl]
    rw [hl', haddrs]
    exact hmerged addrs k hnew
  | @swept addrs k first s _ hnew hs hr =>
    obtain ⟨hdistinct, hlen⟩ := hmerged addrs k hnew
    obtain ⟨s', hs', hused, -⟩ := deleteOutdated_eq now first (Nat.lt_of_le_of_lt hlen hsize)
    have hl' : l = s.used := (Data.addrs.inj (hr.symm.trans hl)).symm
    rw [hl', Option.some.inj (hs.symm.trans hs'), hused]
    exact ⟨hdistinct.filter _, Nat.le_trans (List.length_filter_le _ _) hlen⟩

def brought (us : List Update) : Nat := (us.map (·.new.count)).sum

theorem holdsAddrs_addRun {name : List Byte} {s : Resolver}
    (he : (cacheEntryAlloc env name s).1 = .ok e) {us : List Update}
    (hclear : AllClear env us (e, tick)) (hsize : brought us < 2 ^ 64)
    (hflag : (addRun env us (e, tick)).1.cname = false) :
    (addRun env us (e, tick)).1.data.count = 0 ∨
      ∃ old, HoldsAddrs (addRun env us (e, tick)).1 old := by
  have hheld : Held (brought us) (addRun env us (e, tick)).1 := by
    clear hflag
    induction us using List.reverseRecOn with
    | nil =>
      refine ⟨.inl (by rw [addRun, cacheEntryAlloc_data he]; rfl), ?_⟩
      intro l hl
      rw [addRun, cacheEntryAlloc_data he] at hl
      rw [← Data.addrs.inj hl]
      exact ⟨distinct_nil, Nat.zero_le _⟩
    | append_singleton us u ih =>
      have hsum : brought (us ++ [u]) = brought us + u.new.count := by simp [brought]
      rw [hsum] at hsize ⊢
      rw [addRun_append]
      exact (ih hclear.append (by omega)).add (hclear us u (List.prefix_refl _)) hsize
  rcases hheld.kind with hcount | hkind
  · exact .inl hcount
  · right
    cases hd : (addRun env us (e, tick)).1.data with
    | addrs l => exact ⟨l, hflag, hd, (hheld.distinct l hd).1⟩
    | «alias» name =>
      rw [hd, hflag] at hkind
      cases hkind

end

end Dns.Resolv
