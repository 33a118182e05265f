import Liblcb.Proto.Http
import Liblcb.Utils.MemRead
import Mathlib.Data.List.DropRight

/-!
# Query strings

`http_query_val_get_ex` and `http_query_val_del` of `proto/http.c`.  A query is the list of its
bytes, a pointer into it is an index.  A read outside it has no outcome.
-/

namespace Http

open Mem

/-- What the lookup returns: where the name and the value are. -/
structure QueryVal where
  name : Nat
  val : Nat
  valSize : Nat
  deriving DecidableEq, Repr

/-- The loop that skips `&`. -/
def skipAmps (query : List Byte) (pos : Nat) : Nat :=
  pos + ((query.drop pos).takeWhile (· = chr '&')).length

/-- The loop that goes back over `&`. -/
def backAmps (query : List Byte) (pos : Nat) : Nat :=
  ((query.take pos).rdropWhile (· = chr '&')).length

/-- The loop of `http_query_val_get_ex`: the name is what stands from `val` to the next `=`. -/
def queryLoop (query valName : List Byte) : Nat → Nat → Option (Except Err QueryVal)
  | 0, _ => some (.error .noReturn)
  | fuel + 1, val =>
    match memChrOff (val + 1) query (chr '=') with
    | none => some (.error .espipe)
    | some valEnd => do
      if ← cmpinAt query val (valEnd - val) valName then
        let data := valEnd + 1
        let dataEnd := (memChrOff data query (chr '&')).getD query.length
        return .ok ⟨val, data, dataEnd - data⟩
      else
        match memChrOff valEnd query (chr '&') with
        | none => return .error .espipe
        | some amp => queryLoop query valName fuel (skipAmps query amp)

def httpQueryValGetEx (query valName : List Byte) : Option (Except Err QueryVal) :=
  queryLoop query valName (query.length + 1) (skipAmps query 0)

/-- `http_query_val_get`: where the value is. -/
def httpQueryValGet (query valName : List Byte) : Option (Except Err (Nat × Nat)) :=
  (httpQueryValGetEx query valName).map fun r => r.map fun v => (v.val, v.valSize)

/-- What `http_query_val_del` returns: the count, the buffer and the size of the query in it. -/
structure Deleted where
  delCnt : Nat
  query : List Byte
  querySize : Nat
  deriving DecidableEq, Repr

def delRange (query : List Byte) (v : QueryVal) : Nat × Nat :=
  let namePos := backAmps query v.name
  let dataEnd := skipAmps query (v.val + v.valSize)
  -- one `&` stays between what was before and behind
  (namePos, if namePos ≠ 0 ∧ query.length ≠ dataEnd then dataEnd - 1 else dataEnd)

/-- The loop of `http_query_val_del`. -/
def delLoop (valName : List Byte) : Nat → Deleted → Option (Except Err Deleted)
  | 0, _ => some (.error .noReturn)
  | fuel + 1, d => do
    match ← httpQueryValGetEx (d.query.take d.querySize) valName with
    | .error .noReturn => return .error .noReturn
    | .error .espipe => return .ok d
    | .ok v =>
      let (namePos, dataEnd) := delRange (d.query.take d.querySize) v
      let query ← memmove d.query namePos dataEnd (d.querySize - dataEnd)
      delLoop valName fuel ⟨d.delCnt + 1, query, d.querySize - (dataEnd - namePos)⟩

def httpQueryValDel (query : List Byte) (querySize : Nat) (valName : List Byte) :
    Option (Except Err Deleted) :=
  delLoop valName (querySize + 1) ⟨0, query, querySize⟩

/-!
# What the query lookup finds

The parts of a query between the `&`, each with its position, and the ones that the scanner comes
to.
-/

def amp : Byte := chr '&'

def eqs : Byte := chr '='

def consPart (pos : Nat) (b : Byte) : List (Nat × List Byte) → List (Nat × List Byte)
  | (p, seg) :: ps => if p = pos + 1 then (pos, b :: seg) :: ps else (pos, [b]) :: (p, seg) :: ps
  | [] => [(pos, [b])]

/-- The parts that are not empty, from the position `pos` on. -/
def parts (pos : Nat) : List Byte → List (Nat × List Byte)
  | [] => []
  | b :: s => if b = amp then parts (pos + 1) s else consPart pos b (parts (pos + 1) s)

/-- The part has the name, in any case, before its first `=`. -/
def hasName (valName seg : List Byte) : Bool :=
  (memChr seg eqs).any fun i => memCmpin (seg.take i) valName

variable {s t seg query valName : List Byte} {pos n k : Nat}

/-! ## Parts -/

def Ends (s : List Byte) : Prop := s = [] ∨ s.head? = some amp

theorem parts_le : ∀ {s : List Byte} {pos : Nat} {p : Nat × List Byte}, p ∈ parts pos s → pos ≤ p.1
  | [], _, _, h => absurd h List.not_mem_nil
  | b :: s, pos, p, h => by
    rw [parts] at h
    split_ifs at h with hb
    · exact Nat.le_of_succ_le (parts_le h)
    · cases hps : parts (pos + 1) s with
      | nil =>
        rw [hps, consPart, List.mem_singleton] at h
        rw [h]
      | cons q ps =>
        have hq : pos + 1 ≤ q.1 := parts_le (by rw [hps]; exact List.mem_cons_self)
        have hrest : ∀ r ∈ ps, pos + 1 ≤ r.1 :=
          fun r hr => parts_le (by rw [hps]; exact List.mem_cons_of_mem q hr)
        obtain ⟨i, seg⟩ := q
        rw [hps, consPart] at h
        split_ifs at h with hi
        · rcases List.mem_cons.mp h with rfl | hp
          · exact Nat.le_refl _
          · exact Nat.le_of_succ_le (hrest p hp)
        · rcases List.mem_cons.mp h with rfl | hp
          · exact Nat.le_refl _
          · rcases List.mem_cons.mp hp with rfl | hp
            · exact Nat.le_of_succ_le hq
            · exact Nat.le_of_succ_le (hrest p hp)

theorem parts_amps : ∀ (k pos : Nat), parts pos (List.replicate k amp ++ s) = parts (pos + k) s
  | 0, _ => rfl
  | k + 1, pos => by
    rw [List.replicate_succ, List.cons_append, parts, if_pos rfl, parts_amps k, Nat.add_assoc,
      Nat.add_comm 1]

theorem parts_append : ∀ {seg : List Byte} {pos : Nat}, seg ≠ [] → amp ∉ seg → Ends s →
    parts pos (seg ++ s) = (pos, seg) :: parts (pos + seg.length) s
  | [], _, hne, _, _ => absurd rfl hne
  | [b], pos, _, hamp, hends => by
    have hb : b ≠ amp := fun h => hamp (List.mem_singleton.mpr h.symm)
    rw [List.singleton_append, parts, if_neg hb, List.length_singleton]
    rcases hends with rfl | hhead
    · rfl
    · cases s with
      | nil => rfl
      | cons c s =>
        cases hhead
        rw [parts, if_pos rfl]
        cases hps : parts (pos + 1 + 1) s with
        | nil => rfl
        | cons q ps =>
          have hq : pos + 1 + 1 ≤ q.1 := parts_le (by rw [hps]; exact List.mem_cons_self)
          obtain ⟨i, seg⟩ := q
          rw [consPart, if_neg (by dsimp only at hq; omega)]
  | b :: c :: seg, pos, _, hamp, hends => by
    have hb : b ≠ amp := fun h => hamp (h ▸ List.mem_cons_self)
    have ih := @parts_append (c :: seg) (pos + 1) (List.cons_ne_nil _ _)
      (fun h => hamp (List.mem_cons_of_mem b h)) hends
    have hend : pos + 1 + (c :: seg).length = pos + (b :: c :: seg).length := by
      rw [@List.length_cons _ _ (c :: seg)]
      omega
    rw [List.cons_append, parts, if_neg hb, ih, consPart, if_pos rfl, hend]

/-- The text begins with no `&`. -/
def Clean (s : List Byte) : Prop := s.head? ≠ some amp

/-- A text that begins with a part: the part, the `&` behind it and the rest. -/
structure Begins (s seg : List Byte) (k : Nat) (t : List Byte) : Prop where
  eq : s = seg ++ (List.replicate k amp ++ t)
  ne_nil : seg ≠ []
  amp_notMem : amp ∉ seg
  clean : Clean t
  last : k = 0 → t = []

theorem split_amps : ∀ r : List Byte,
    ∃ k t, r = List.replicate k amp ++ t ∧ Clean t ∧ (Ends r → k = 0 → t = [])
  | [] => ⟨0, [], rfl, fun h => (by cases h), fun _ _ => rfl⟩
  | b :: r => by
    by_cases hb : b = amp
    · obtain ⟨k, t, rfl, hclean, -⟩ := split_amps r
      refine ⟨k + 1, t, ?_, hclean, fun _ h => absurd h (Nat.succ_ne_zero k)⟩
      rw [List.replicate_succ, List.cons_append, hb]
    · refine ⟨0, b :: r, rfl, fun h => hb (Option.some.inj h), ?_⟩
      rintro (h | h)
      · exact fun _ => h
      · exact absurd (Option.some.inj h) hb

theorem split_part : ∀ {s : List Byte}, s ≠ [] → Clean s →
    ∃ seg r, s = seg ++ r ∧ seg ≠ [] ∧ amp ∉ seg ∧ Ends r
  | [], hne, _ => absurd rfl hne
  | b :: s, _, hclean => by
    have hb : b ≠ amp := fun h => hclean (congrArg some h)
    by_cases hends : Ends s
    · refine ⟨[b], s, rfl, List.cons_ne_nil _ _, ?_, hends⟩
      exact fun h => hb (List.mem_singleton.mp h).symm
    · rw [Ends, not_or] at hends
      obtain ⟨seg, r, rfl, -, hamp, hr⟩ := split_part hends.1 hends.2
      refine ⟨b :: seg, r, rfl, List.cons_ne_nil _ _, ?_, hr⟩
      exact fun h => (List.mem_cons.mp h).elim (fun h => hb h.symm) hamp

theorem exists_begins (hne : s ≠ []) (hclean : Clean s) : ∃ seg k t, Begins s seg k t := by
  obtain ⟨seg, r, rfl, hseg, hamp, hends⟩ := split_part hne hclean
  obtain ⟨k, t, rfl, ht, hlast⟩ := split_amps r
  exact ⟨seg, k, t, rfl, hseg, hamp, ht, hlast hends⟩

theorem Begins.ends {t : List Byte} (h : Begins s seg k t) : Ends (List.replicate k amp ++ t) := by
  cases k with
  | zero => exact .inl (by rw [h.last rfl]; rfl)
  | succ k => exact .inr rfl

theorem Begins.parts_eq (h : Begins s seg k t) (pos : Nat) :
    parts pos s = (pos, seg) :: parts (pos + seg.length + k) t := by
  rw [h.eq, parts_append h.ne_nil h.amp_notMem h.ends, parts_amps]

/-! ## Searching -/

theorem memChrOff_drop (off : Nat) (buf : List Byte) (c : Byte) :
    memChrOff off buf c = (memChr (buf.drop off) c).map (off + ·) := rfl

theorem memChrOff_skip {pre mid post : List Byte} {c : Byte} {off off' : Nat}
    (hoff : off = pre.length) (hoff' : off' = pre.length + mid.length) (hmid : c ∉ mid) :
    memChrOff off (pre ++ (mid ++ post)) c = memChrOff off' (pre ++ (mid ++ post)) c := by
  by_cases hpost : c ∈ post
  · obtain ⟨m, r, rfl, hm⟩ := List.eq_append_cons_of_mem hpost
    rw [← List.append_assoc mid, memChrOff_append hoff (by
        rw [List.mem_append]
        exact fun h => h.elim hmid hm), List.append_assoc mid, ← List.append_assoc pre,
      memChrOff_append (by rw [List.length_append]; exact hoff') hm, hoff, hoff',
      List.length_append, Nat.add_assoc]
  · have hnone : ∀ {n : Nat}, pre.length ≤ n → memChrOff n (pre ++ (mid ++ post)) c = none := by
      intro n hn
      apply memChrOff_of_absent
      intro k hk hc
      rw [List.getElem?_append_right (by omega)] at hc
      exact (List.mem_append.mp (List.mem_of_getElem? hc)).elim hmid hpost
    rw [hnone (by omega), hnone (by omega)]

theorem skipAmps_eq {pre t : List Byte} (hclean : Clean t) :
    skipAmps (pre ++ (List.replicate k amp ++ t)) pre.length = pre.length + k := by
  rw [skipAmps, List.drop_left]
  congr 1
  induction k with
  | zero =>
    cases t with
    | nil => rfl
    | cons b t =>
      have hb : b ≠ amp := fun h => hclean (congrArg some h)
      rw [List.replicate_zero, List.nil_append, List.takeWhile_cons_of_neg]
      · rfl
      · intro h
        exact hb (of_decide_eq_true (p := b = amp) h)
  | succ k ih =>
    rw [List.replicate_succ, List.cons_append, List.takeWhile_cons_of_pos, List.length_cons, ih]
    exact decide_eq_true (p := amp = chr '&') rfl

/-- The next place the scanner looks at, when it searches for the `=` from `off` on. -/
def nextFrom (query : List Byte) (off : Nat) : Option Nat := do
  let valEnd ← memChrOff off query eqs
  let a ← memChrOff valEnd query amp
  return skipAmps query a

/-- What the scanner returns for the name at `val`, where it is the one. -/
def lookupAt (query valName : List Byte) (val : Nat) : Option QueryVal :=
  (memChrOff (val + 1) query eqs).bind fun valEnd =>
    if memCmpin ((query.drop val).take (valEnd - val)) valName then
      some ⟨val, valEnd + 1, (memChrOff (valEnd + 1) query amp).getD query.length - (valEnd + 1)⟩
    else none

/-! ## Turns of the loop -/

theorem cmpin_bounds {val valEnd : Nat} (h : memChrOff (val + 1) query eqs = some valEnd) :
    cmpinAt query val (valEnd - val) valName =
      some (memCmpin ((query.drop val).take (valEnd - val)) valName) := by
  have hbounds := memChrOff_bounds h
  apply cmpinAt_eq
  omega

theorem turn_found {fuel val : Nat} {v : QueryVal} (h : lookupAt query valName val = some v) :
    queryLoop query valName (fuel + 1) val = some (.ok v) := by
  rw [lookupAt, Option.bind_eq_some_iff] at h
  obtain ⟨valEnd, hend, hv⟩ := h
  split_ifs at hv with hcmp
  have heqs : memChrOff (val + 1) query (chr '=') = some valEnd := hend
  rw [queryLoop, heqs]
  dsimp only
  rw [cmpin_bounds hend, hcmp]
  exact congrArg some (congrArg Except.ok (Option.some.inj hv))

theorem turn_missed {fuel val valEnd : Nat} (h : lookupAt query valName val = none)
    (hend : memChrOff (val + 1) query eqs = some valEnd) :
    queryLoop query valName (fuel + 1) val =
      ((memChrOff valEnd query amp).map fun a =>
        queryLoop query valName fuel (skipAmps query a)).getD (some (.error .espipe)) := by
  rw [lookupAt, hend, Option.bind_some] at h
  split_ifs at h with hcmp
  have heqs : memChrOff (val + 1) query (chr '=') = some valEnd := hend
  rw [queryLoop, heqs]
  dsimp only
  rw [cmpin_bounds hend, Bool.eq_false_iff.mpr hcmp]
  cases hamp : memChrOff valEnd query amp with
  | none =>
    have hnone : memChrOff valEnd query (chr '&') = none := hamp
    rw [hnone]
    rfl
  | some a =>
    have hsome : memChrOff valEnd query (chr '&') = some a := hamp
    rw [hsome]
    rfl

theorem turn_next {fuel val : Nat} (h : lookupAt query valName val = none) :
    queryLoop query valName (fuel + 1) val =
      ((nextFrom query (val + 1)).map (queryLoop query valName fuel)).getD
        (some (.error .espipe)) := by
  cases hend : memChrOff (val + 1) query eqs with
  | none =>
    have heqs : memChrOff (val + 1) query (chr '=') = none := hend
    rw [queryLoop, heqs, nextFrom, hend]
    rfl
  | some valEnd =>
    rw [turn_missed h hend, nextFrom, hend, Option.bind_eq_bind, Option.bind_some]
    cases memChrOff valEnd query amp with
    | none => rfl
    | some a => rfl

/-! ## The parts the scanner comes to -/

/-- A part without `=` behind its first byte hides the parts that follow it, up to the first one
that has a `=`. -/
def hideStep (hides : Bool) (seg : List Byte) : Bool :=
  if hides then decide (eqs ∉ seg) else decide (eqs ∉ seg.tail)

def reached (hides : Bool) : List (Nat × List Byte) → List (Nat × List Byte)
  | [] => []
  | p :: ps => if hides then reached (hideStep hides p.2) ps
      else p :: reached (hideStep hides p.2) ps

/-- Where the scanner goes on, from a place in front of `n` bytes. -/
structure Next (query : List Byte) (rest : List (Nat × List Byte)) (next : Option Nat)
    (n : Nat) : Prop where
  stop : next = none → rest = []
  go : ∀ v, next = some v → ∃ pre t, query = pre ++ t ∧ v = pre.length ∧ Clean t ∧ t.length < n ∧
    rest = reached false (parts v t)

/-- Behind the `=` the scanner goes on with the next part. -/
theorem next_behind {pre m v t : List Byte} {off : Nat} (hoff : off = pre.length)
    (hquery : query = pre ++ (m ++ eqs :: (v ++ (List.replicate k amp ++ t)))) (hm : eqs ∉ m)
    (hv : amp ∉ v) (hclean : Clean t) (hlast : k = 0 → t = []) :
    Next query (reached false (parts (pre.length + m.length + 1 + v.length + k) t))
      (nextFrom query off) (t.length + 1) := by
  have hend : memChrOff off query eqs = some (pre.length + m.length) := by
    rw [hquery, memChrOff_append hoff hm, hoff]
  have hsplit : query = (pre ++ m) ++ ((eqs :: v) ++ (List.replicate k amp ++ t)) := by
    rw [hquery, List.append_assoc, List.cons_append]
  have hvalEnd : pre.length + m.length = (pre ++ m).length := List.length_append.symm
  -- between the `=` and the `&` behind the value there is no other `&`
  have hskip : amp ∉ eqs :: v := by
    rw [List.mem_cons, not_or]
    exact ⟨by decide, hv⟩
  rw [nextFrom, hend, Option.bind_eq_bind, Option.bind_some]
  cases k with
  | zero =>
    have hnone : memChrOff (pre.length + m.length) query amp = none := by
      apply memChrOff_of_absent
      intro i hi hc
      rw [hsplit, hlast rfl, List.getElem?_append_right (by omega)] at hc
      have hmem := List.mem_of_getElem? hc
      rw [List.replicate_zero, List.append_nil, List.append_nil] at hmem
      exact hskip hmem
    rw [hnone, hlast rfl]
    exact ⟨fun _ => rfl, fun v h => (by cases h)⟩
  | succ k =>
    have hamp : memChrOff (pre.length + m.length) query amp =
        some (pre.length + m.length + (eqs :: v).length) := by
      rw [hsplit, List.replicate_succ, List.cons_append (a := amp),
        memChrOff_append hvalEnd hskip]
    have hpre : query = (pre ++ m ++ eqs :: v) ++ (List.replicate (k + 1) amp ++ t) := by
      rw [hsplit, List.append_assoc, List.append_assoc, List.append_assoc]
    have hpos : pre.length + m.length + (eqs :: v).length = (pre ++ m ++ eqs :: v).length := by
      rw [List.length_append, List.length_append]
    -- all the `&` behind the value are skipped, so the next part has at least one byte
    have hnext : skipAmps query (pre.length + m.length + (eqs :: v).length) =
        pre.length + m.length + 1 + v.length + (k + 1) := by
      rw [hpos, hpre, skipAmps_eq hclean, ← hpos, List.length_cons]
      omega
    rw [hamp, Option.bind_some, hnext]
    refine ⟨fun h => (by cases h), fun w hw => ?_⟩
    refine ⟨pre ++ m ++ eqs :: v ++ List.replicate (k + 1) amp, t, ?_, ?_, hclean,
      Nat.lt_succ_self _, ?_⟩
    · rw [hpre, List.append_assoc _ _ t]
    · rw [← Option.some.inj hw, List.length_append, ← hpos, List.length_replicate,
        List.length_cons]
      omega
    · rw [← Option.some.inj hw]

theorem nextFrom_skip {pre mid post : List Byte} {off off' : Nat} (hoff : off = pre.length)
    (hoff' : off' = pre.length + mid.length) (hmid : eqs ∉ mid) :
    nextFrom (pre ++ (mid ++ post)) off = nextFrom (pre ++ (mid ++ post)) off' := by
  rw [nextFrom, memChrOff_skip hoff hoff' hmid, nextFrom]

theorem nextFrom_end (h : query.length ≤ n) : nextFrom query n = none := by
  rw [nextFrom, memChrOff_drop, List.drop_of_length_le h]
  rfl

theorem eqs_notMem_amps : eqs ∉ List.replicate k amp := by
  intro h
  exact absurd (List.eq_of_mem_replicate h) (by decide)

theorem Next.mono {rest : List (Nat × List Byte)} {next : Option Nat} {n n' : Nat}
    (h : Next query rest next n) (hn : n ≤ n') : Next query rest next n' := by
  refine ⟨h.stop, fun v hv => ?_⟩
  obtain ⟨pre, t, hquery, hpos, hclean, hlt, hrest⟩ := h.go v hv
  exact ⟨pre, t, hquery, hpos, hclean, Nat.lt_of_lt_of_le hlt hn, hrest⟩

/-- While a part without `=` hides the ones behind it. -/
theorem next_pending : ∀ {t pre : List Byte}, query = pre ++ t → Clean t →
    Next query (reached true (parts pre.length t)) (nextFrom query pre.length) (t.length + 1) := by
  intro t
  -- on the text that is left
  induction hn : t.length using Nat.strong_induction_on generalizing t with
  | _ n ih =>
    subst hn
    intro pre hquery hclean
    by_cases hne : t = []
    · subst hne
      rw [nextFrom_end (by rw [hquery, List.append_nil])]
      exact ⟨fun _ => rfl, fun v h => (by cases h)⟩
    · obtain ⟨seg, k, t, hb⟩ := exists_begins hne hclean
      have hlen := congrArg List.length hb.eq
      have hseg := List.length_pos_iff.mpr hb.ne_nil
      rw [List.length_append, List.length_append, List.length_replicate] at hlen
      rw [hb.parts_eq, reached, if_pos rfl, hideStep, if_pos rfl]
      by_cases heqs : eqs ∈ seg
      · obtain ⟨m, v, rfl, hm⟩ := List.eq_append_cons_of_mem heqs
        have hv : amp ∉ v := fun h =>
          hb.amp_notMem (List.mem_append_right m (List.mem_cons_of_mem eqs h))
        have hsplit : query = pre ++ (m ++ eqs :: (v ++ (List.replicate k amp ++ t))) := by
          rw [hquery, hb.eq, List.append_assoc, List.cons_append]
        have hnext := next_behind rfl hsplit hm hv hb.clean hb.last
        rw [decide_eq_false (not_not.mpr heqs)]
        rw [List.length_append, List.length_cons] at hlen
        have hpos : pre.length + (m ++ eqs :: v).length + k =
            pre.length + m.length + 1 + v.length + k := by
          rw [List.length_append, List.length_cons]
          omega
        rw [hpos]
        exact hnext.mono (by omega)
      · have hmid : eqs ∉ seg ++ List.replicate k amp := by
          rw [List.mem_append, not_or]
          exact ⟨heqs, eqs_notMem_amps⟩
        have hskip : query = pre ++ ((seg ++ List.replicate k amp) ++ t) := by
          rw [hquery, hb.eq, List.append_assoc seg]
        have hpos : pre.length + seg.length + k =
            (pre ++ (seg ++ List.replicate k amp)).length := by
          rw [List.length_append, List.length_append, List.length_replicate, Nat.add_assoc]
        have hpos' : pre.length + seg.length + k =
            pre.length + (seg ++ List.replicate k amp).length := by
          rw [hpos, List.length_append]
        rw [decide_eq_true heqs]
        conv in nextFrom _ _ => rw [hskip, nextFrom_skip rfl hpos' hmid, ← hskip]
        rw [hpos]
        have hrest : query = (pre ++ (seg ++ List.replicate k amp)) ++ t := by
          rw [hskip, List.append_assoc pre]
        exact (ih t.length (by omega) rfl hrest hb.clean).mono (by omega)

theorem next_after {pre t r : List Byte} (hquery : query = pre ++ r) (hb : Begins r seg k t) :
    Next query (reached (hideStep false seg) (parts (pre.length + seg.length + k) t))
      (nextFrom query (pre.length + 1)) r.length := by
  obtain ⟨c, seg, rfl⟩ := List.exists_cons_of_ne_nil hb.ne_nil
  have hlen := congrArg List.length hb.eq
  rw [List.length_append, List.length_append, List.length_replicate, List.length_cons] at hlen
  have hcons : query = (pre ++ [c]) ++ (seg ++ (List.replicate k amp ++ t)) := by
    rw [hquery, hb.eq, List.append_assoc pre, List.singleton_append, List.cons_append]
  have hstart : pre.length + 1 = (pre ++ [c]).length := by
    rw [List.length_append, List.length_singleton]
  rw [hideStep, if_neg Bool.false_ne_true, List.tail_cons]
  -- the search for `=` stops in this part, or runs on into the next one and hides it
  by_cases heqs : eqs ∈ seg
  · obtain ⟨m, v, rfl, hm⟩ := List.eq_append_cons_of_mem heqs
    have hv : amp ∉ v := fun h => hb.amp_notMem
      (List.mem_cons_of_mem c (List.mem_append_right m (List.mem_cons_of_mem eqs h)))
    have hsplit : query = (pre ++ [c]) ++ (m ++ eqs :: (v ++ (List.replicate k amp ++ t))) := by
      rw [hcons, List.append_assoc m, List.cons_append]
    have hnext := next_behind hstart hsplit hm hv hb.clean hb.last
    have hpos : pre.length + (c :: (m ++ eqs :: v)).length + k =
        (pre ++ [c]).length + m.length + 1 + v.length + k := by
      rw [← hstart, List.length_cons, List.length_append, List.length_cons]
      omega
    rw [decide_eq_false (not_not.mpr heqs), hpos]
    rw [List.length_append, List.length_cons] at hlen
    exact hnext.mono (by omega)
  · have hmid : eqs ∉ seg ++ List.replicate k amp := by
      rw [List.mem_append, not_or]
      exact ⟨heqs, eqs_notMem_amps⟩
    have hskip : query = (pre ++ [c]) ++ ((seg ++ List.replicate k amp) ++ t) := by
      rw [hcons, List.append_assoc seg]
    have hpos : pre.length + (c :: seg).length + k =
        (pre ++ [c] ++ (seg ++ List.replicate k amp)).length := by
      rw [List.length_append, ← hstart, List.length_append, List.length_replicate,
        List.length_cons]
      omega
    have hpos' : pre.length + (c :: seg).length + k =
        (pre ++ [c]).length + (seg ++ List.replicate k amp).length := by
      rw [hpos, List.length_append]
    rw [decide_eq_true heqs]
    conv in nextFrom _ _ => rw [hskip, nextFrom_skip hstart hpos' hmid, ← hskip]
    rw [hpos]
    exact (next_pending (by rw [hskip, List.append_assoc (pre ++ [c])]) hb.clean).mono (by omega)

/-! ## The whole loop -/

theorem lookupAt_end (h : query.length ≤ n) : lookupAt query valName n = none := by
  rw [lookupAt, memChrOff_drop, List.drop_of_length_le (Nat.le_succ_of_le h)]
  rfl

theorem queryLoop_eq : ∀ {fuel : Nat} {pre t : List Byte}, t.length < fuel → query = pre ++ t →
    Clean t → queryLoop query valName fuel pre.length = some
      (((reached false (parts pre.length t)).findSome? fun p => lookupAt query valName p.1).elim
        (.error .espipe) .ok)
  | 0, _, _, h, _, _ => absurd h (Nat.not_lt_zero _)
  | fuel + 1, pre, t, hfuel, hquery, hclean => by
    by_cases hne : t = []
    · subst hne
      have hend : query.length ≤ pre.length := by rw [hquery, List.append_nil]
      rw [turn_next (lookupAt_end hend), nextFrom_end (Nat.le_succ_of_le hend)]
      rfl
    · obtain ⟨seg, k, r, hb⟩ := exists_begins hne hclean
      have hnext := next_after hquery hb
      rw [hb.parts_eq, reached, if_neg Bool.false_ne_true, List.findSome?_cons]
      cases hv : lookupAt query valName pre.length with
      | some v => exact turn_found hv
      | none =>
        rw [turn_next hv]
        cases hn : nextFrom query (pre.length + 1) with
        | none =>
          rw [hnext.stop hn]
          rfl
        | some v =>
          obtain ⟨pre', t', hquery', hpos, hclean', hlt, hrest⟩ := hnext.go v hn
          rw [Option.map_some, Option.getD_some, hrest, hpos]
          exact queryLoop_eq (by omega) hquery' hclean'

theorem httpQueryValGetEx_eq : httpQueryValGetEx query valName = some
    (((reached false (parts 0 query)).findSome? fun p => lookupAt query valName p.1).elim
      (.error .espipe) .ok) := by
  obtain ⟨k, t, hquery, hclean, -⟩ := split_amps query
  have hlen := congrArg List.length hquery
  rw [List.length_append, List.length_replicate] at hlen
  have hskip : skipAmps query 0 = k := by
    have h := @skipAmps_eq k [] _ hclean
    rwa [List.nil_append, ← hquery, List.length_nil, Nat.zero_add] at h
  have hpre : (List.replicate k amp).length = k := List.length_replicate
  have hparts : parts 0 query = parts k t := by
    rw [hquery, parts_amps, Nat.zero_add]
  rw [httpQueryValGetEx, hskip, hparts]
  conv in queryLoop _ _ _ _ => rw [← hpre]
  rw [queryLoop_eq (by omega) hquery hclean, hpre]

end Http
