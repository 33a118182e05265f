import Liblcb.Proto.HttpQueryFind

/-!
# Deleting from a query

Where every part is a name, a `=` and a value, `http_query_val_del` takes out the parts with the
name, and no others.
-/

namespace Http

open Mem Buffer

variable {query valName seg s t a b pre : List Byte} {pos k : Nat} {p : Nat × List Byte}

/-- The parts, without their positions. -/
def segs (s : List Byte) : List (List Byte) := (parts 0 s).map Prod.snd

/-! ## The parts of a text that is put together -/

theorem parts_add : ∀ {s : List Byte} {pos : Nat} (n : Nat),
    parts (pos + n) s = (parts pos s).map fun p => (p.1 + n, p.2)
  | [], _, _ => rfl
  | b :: s, pos, n => by
    have ih := @parts_add s (pos + 1) n
    rw [Nat.add_right_comm] at ih
    rw [parts, parts, ih]
    by_cases hb : b = amp
    · rw [if_pos hb, if_pos hb]
    · rw [if_neg hb, if_neg hb]
      cases parts (pos + 1) s with
      | nil => rfl
      | cons q ps =>
        obtain ⟨i, seg⟩ := q
        rw [List.map_cons, consPart, consPart]
        by_cases hi : i = pos + 1
        · rw [if_pos hi, if_pos (by omega), List.map_cons]
        · rw [if_neg hi, if_neg (by omega), List.map_cons, List.map_cons]

theorem parts_segs (pos : Nat) (s : List Byte) : (parts pos s).map Prod.snd = segs s := by
  have h := @parts_add s 0 pos
  rw [Nat.zero_add] at h
  rw [h, List.map_map, segs]
  rfl

theorem parts_amp : ∀ {a : List Byte} {pos : Nat},
    parts pos (a ++ amp :: b) = parts pos a ++ parts (pos + a.length + 1) b
  | [], pos => by
    have hnil : parts pos [] = [] := rfl
    rw [List.nil_append, hnil, List.nil_append, parts, if_pos rfl, List.length_nil, Nat.add_zero]
  | c :: a, pos => by
    have ih := @parts_amp a (pos + 1)
    have hpos : pos + (c :: a).length + 1 = pos + 1 + a.length + 1 := by
      rw [List.length_cons]
      omega
    rw [List.cons_append, parts, parts, ih, hpos]
    by_cases hc : c = amp
    · rw [if_pos hc, if_pos hc]
    · rw [if_neg hc, if_neg hc]
      cases parts (pos + 1) a with
      | nil =>
        rw [List.nil_append]
        cases hps : parts (pos + 1 + a.length + 1) b with
        | nil => rfl
        | cons q ps =>
          have hq : pos + 1 + a.length + 1 ≤ q.1 :=
            parts_le (by rw [hps]; exact List.mem_cons_self)
          obtain ⟨i, seg⟩ := q
          rw [consPart, if_neg (by dsimp only at hq; omega)]
          rfl
      | cons q ps =>
        obtain ⟨i, seg⟩ := q
        rw [List.cons_append, consPart, consPart]
        split_ifs with hi
        · rfl
        · rfl

theorem segs_amp : segs (a ++ amp :: b) = segs a ++ segs b := by
  rw [segs, parts_amp, List.map_append, parts_segs, parts_segs]

theorem segs_amps_left (k : Nat) : segs (List.replicate k amp ++ s) = segs s := by
  rw [segs, parts_amps, parts_segs]

theorem segs_amps_right (k : Nat) : segs (s ++ List.replicate k amp) = segs s := by
  cases k with
  | zero => rw [List.replicate_zero, List.append_nil]
  | succ k =>
    have hnil := segs_amps_left (s := []) k
    rw [List.append_nil] at hnil
    rw [List.replicate_succ, segs_amp, hnil, segs]
    exact List.append_nil _

theorem Begins.segs_eq (hb : Begins s seg k t) : segs s = seg :: segs t := by
  rw [segs, hb.parts_eq, List.map_cons, parts_segs]

theorem segs_opens (hopens : Opens pre) : segs (pre ++ s) = segs pre ++ segs s := by
  rcases hopens with rfl | ⟨x, rfl⟩
  · rfl
  · rw [List.append_assoc, List.singleton_append, segs_amp, segs_amp]
    exact congrArg (· ++ segs s) (List.append_nil (segs x)).symm

/-! ## Queries of names and values -/

/-- A part that is a name, which is not empty, a `=` and a value. -/
def IsPair (seg : List Byte) : Prop := ∃ n v, seg = n ++ eqs :: v ∧ n ≠ [] ∧ eqs ∉ n

/-- Every part of the query is a name and a value. -/
def Pairs (query : List Byte) : Prop := ∀ seg ∈ segs query, IsPair seg

theorem IsPair.hideStep (h : IsPair seg) : hideStep false seg = false := by
  obtain ⟨n, v, rfl, hne, -⟩ := h
  obtain ⟨c, m, rfl⟩ := List.exists_cons_of_ne_nil hne
  apply decide_eq_false
  rw [List.cons_append, List.tail_cons, not_not]
  exact List.mem_append_right m List.mem_cons_self

theorem reached_pairs : ∀ {ps : List (Nat × List Byte)}, (∀ p ∈ ps, IsPair p.2) →
    reached false ps = ps
  | [], _ => rfl
  | p :: ps, h => by
    rw [reached, if_neg Bool.false_ne_true, (h p List.mem_cons_self).hideStep,
      reached_pairs fun q hq => h q (List.mem_cons_of_mem p hq)]

theorem Pairs.isPair (h : Pairs query) (hp : p ∈ parts 0 query) : IsPair p.2 :=
  h p.2 (List.mem_map_of_mem hp)

theorem hasName_pair {n v : List Byte} (hn : eqs ∉ n) :
    hasName valName (n ++ eqs :: v) = memCmpin n valName := by
  rw [hasName, memChr_append v hn, Option.any_some, List.take_left]

theorem httpQueryValGetEx_pairs (h : Pairs query) : httpQueryValGetEx query valName =
    some (((firstNamed query valName).map queryVal).elim (.error .espipe) .ok) := by
  have hfind : ((parts 0 query).findSome? fun p => lookupAt query valName p.1) =
      (firstNamed query valName).map queryVal := by
    apply findSome?_ite
    rintro ⟨i, seg⟩ hp
    obtain ⟨pre, r, k, t, hquery, rfl, hb, -⟩ := parts_zero_mem hp
    obtain ⟨n, v, rfl, hne, hn⟩ := h.isPair hp
    rw [hasName_pair hn]
    exact lookupAt_pair hb hquery hne hn
  rw [httpQueryValGetEx_eq, reached_pairs (fun p hp => h.isPair hp), hfind]

/-! ## One deletion -/

theorem amps_split (s : List Byte) :
    ∃ x j, s = x ++ List.replicate j amp ∧ s.rdropWhile (· = chr '&') = x := by
  induction s using List.reverseRecOn with
  | nil => exact ⟨[], 0, rfl, rfl⟩
  | append_singleton s b ih =>
    by_cases hb : b = amp
    · obtain ⟨x, j, hs, hx⟩ := ih
      refine ⟨x, j + 1, ?_, ?_⟩
      · rw [List.replicate_succ', ← List.append_assoc, ← hs, hb]
      · rw [List.rdropWhile_concat, if_pos (decide_eq_true (p := b = chr '&') hb), hx]
    · refine ⟨s ++ [b], 0, (List.append_nil _).symm, ?_⟩
      exact List.rdropWhile_concat_neg _ _ _ fun h => hb (of_decide_eq_true h)

/-- A text around one of its parts: what stands before, the `&` between, the part, the `&` behind it
and the rest. -/
structure Around (text x : List Byte) (j : Nat) (seg : List Byte) (k : Nat) (t : List Byte) :
    Prop where
  eq : text = (x ++ List.replicate j amp) ++ (seg ++ (List.replicate k amp ++ t))
  back : (x ++ List.replicate j amp).rdropWhile (· = chr '&') = x
  opens : Opens (x ++ List.replicate j amp)
  begins : Begins (seg ++ (List.replicate k amp ++ t)) seg k t

theorem exists_around (hp : p ∈ parts 0 query) :
    ∃ x j k t, Around query x j p.2 k t ∧ p.1 = x.length + j := by
  obtain ⟨pre, r, k, t, hquery, hpos, hb, hopens⟩ := parts_zero_mem hp
  obtain ⟨x, j, rfl, hback⟩ := amps_split pre
  have hr := hb.eq
  rw [hr] at hquery hb
  refine ⟨x, j, k, t, ⟨hquery, hback, hopens, hb⟩, ?_⟩
  rw [hpos, List.length_append, List.length_replicate]

variable {text x : List Byte} {j : Nat} {v : QueryVal}

theorem Around.length_eq (h : Around text x j seg k t) :
    text.length = x.length + j + (seg.length + (k + t.length)) := by
  rw [h.eq, List.length_append, List.length_append, List.length_append, List.length_append,
    List.length_replicate, List.length_replicate]

theorem Around.segs_eq (h : Around text x j seg k t) : segs text = segs x ++ seg :: segs t := by
  rw [h.eq, segs_opens h.opens, segs_amps_right, h.begins.segs_eq]

theorem Around.delRange_eq (h : Around text x j seg k t) (hname : v.name = x.length + j)
    (hval : v.val + v.valSize = x.length + j + seg.length) :
    delRange text v = (x.length, if x ≠ [] ∧ t ≠ [] then x.length + j + seg.length + k - 1
      else x.length + j + seg.length + k) := by
  have hpre : (x ++ List.replicate j amp).length = x.length + j := by
    rw [List.length_append, List.length_replicate]
  have hback : backAmps text v.name = x.length := by
    rw [backAmps, hname, ← hpre, h.eq, List.take_left, h.back]
  have hskip : skipAmps text (v.val + v.valSize) = x.length + j + seg.length + k := by
    have hlen : v.val + v.valSize = (x ++ List.replicate j amp ++ seg).length := by
      rw [hval, List.length_append, hpre]
    rw [hlen, h.eq, ← List.append_assoc, skipAmps_eq h.begins.clean, List.length_append, hpre]
  have hx : x.length ≠ 0 ↔ x ≠ [] := not_congr List.length_eq_zero_iff
  have ht : text.length ≠ x.length + j + seg.length + k ↔ t ≠ [] := by
    rw [h.length_eq, not_iff_not, ← List.length_eq_zero_iff]
    omega
  rw [delRange, hback, hskip, if_congr (and_congr hx ht) rfl rfl]

theorem Around.drop_eq (h : Around text x j seg k t) :
    text.drop (x.length + j + seg.length + k) = t ∧
      (k ≠ 0 → text.drop (x.length + j + seg.length + k - 1) = amp :: t) := by
  have hsplit : text = (x ++ List.replicate j amp ++ seg ++ List.replicate k amp) ++ t := by
    rw [h.eq, List.append_assoc, List.append_assoc, List.append_assoc, List.append_assoc]
  have hlen : x.length + j + seg.length + k =
      (x ++ List.replicate j amp ++ seg ++ List.replicate k amp).length := by
    rw [List.length_append, List.length_append, List.length_append, List.length_replicate,
      List.length_replicate]
  refine ⟨?_, fun hk => ?_⟩
  · rw [hlen, hsplit, List.drop_left]
  · obtain ⟨i, rfl⟩ := Nat.exists_eq_succ_of_ne_zero hk
    have hsplit' : text =
        (x ++ List.replicate j amp ++ seg ++ List.replicate i amp) ++ amp :: t := by
      rw [hsplit, List.replicate_succ', ← List.append_assoc, List.append_assoc _ [amp],
        List.singleton_append]
    have hlen' : x.length + j + seg.length + (i + 1) - 1 =
        (x ++ List.replicate j amp ++ seg ++ List.replicate i amp).length := by
      rw [List.length_append, List.length_append, List.length_append, List.length_replicate,
        List.length_replicate]
      omega
    rw [hlen', hsplit', List.drop_left]

theorem Around.take_eq (h : Around text x j seg k t) : text.take x.length = x := by
  rw [h.eq, List.append_assoc, List.take_left]

theorem Around.range_spec {range : Nat × Nat} (h : Around text x j seg k t)
    (hrange : range = (x.length, if x ≠ [] ∧ t ≠ [] then x.length + j + seg.length + k - 1
      else x.length + j + seg.length + k)) :
    range.1 < range.2 ∧ range.2 ≤ text.length ∧
      segs (text.take range.1 ++ text.drop range.2) = segs x ++ segs t := by
  subst hrange
  dsimp only
  have hlen := h.length_eq
  have hseg := List.length_pos_iff.mpr h.begins.ne_nil
  rw [h.take_eq]
  by_cases hboth : x ≠ [] ∧ t ≠ []
  · have hk : k ≠ 0 := fun hk => hboth.2 (h.begins.last hk)
    rw [if_pos hboth, h.drop_eq.2 hk, segs_amp]
    refine ⟨by omega, by omega, rfl⟩
  · rw [if_neg hboth, h.drop_eq.1]
    refine ⟨by omega, by omega, ?_⟩
    rcases not_and_or.mp hboth with hx | ht
    · rw [not_not.mp hx, List.nil_append]
      rfl
    · rw [not_not.mp ht, List.append_nil]
      exact (List.append_nil (segs x)).symm

/-! ## The loop -/

def Deleted.leftText (d : Deleted) : List Byte := d.query.take d.querySize

/-- The parts of the query, without the ones that have the name. -/
def otherSegs (valName : List Byte) (segs : List (List Byte)) : List (List Byte) :=
  segs.filter fun seg => !hasName valName seg

/-- The query that is there for the one that was: the parts with the name are out, and counted. -/
structure DelRight (valName : List Byte) (d d' : Deleted) : Prop where
  cnt : d'.delCnt = d.delCnt + (segs d.leftText).countP (hasName valName)
  segs_eq : segs d'.leftText = otherSegs valName (segs d.leftText)
  length_eq : d'.query.length = d.query.length
  size_le : d'.querySize ≤ d.querySize
  kept : d'.query.drop d.querySize = d.query.drop d.querySize

variable {d d' d'' : Deleted} {fuel : Nat}

theorem segs_firstNamed (h : firstNamed query valName = none) :
    ∀ seg ∈ segs query, hasName valName seg = false := by
  intro seg hseg
  obtain ⟨p, hp, rfl⟩ := List.mem_map.mp hseg
  exact Bool.eq_false_iff.mpr (List.find?_eq_none.mp h p hp)

theorem delRight_none (h : firstNamed d.leftText valName = none) : DelRight valName d d := by
  have hno := segs_firstNamed h
  refine ⟨?_, ?_, rfl, Nat.le_refl _, rfl⟩
  · rw [List.countP_eq_zero.mpr fun seg hseg => Bool.eq_false_iff.mp (hno seg hseg), Nat.add_zero]
  · rw [otherSegs, List.filter_eq_self.mpr]
    intro seg hseg
    rw [hno seg hseg]
    rfl

theorem DelRight.cons {as bs : List (List Byte)} (hcnt : d'.delCnt = d.delCnt + 1)
    (hsegs : segs d.leftText = as ++ seg :: bs) (hsegs' : segs d'.leftText = as ++ bs)
    (hname : hasName valName seg = true) (hlen : d'.query.length = d.query.length)
    (hsize : d'.querySize ≤ d.querySize)
    (hkept : d'.query.drop d.querySize = d.query.drop d.querySize) (h : DelRight valName d' d'') :
    DelRight valName d d'' := by
  refine ⟨?_, ?_, h.length_eq.trans hlen, Nat.le_trans h.size_le hsize, ?_⟩
  · rw [h.cnt, hcnt, hsegs, hsegs', List.countP_append, List.countP_append,
      List.countP_cons_of_pos hname]
    omega
  · rw [h.segs_eq, hsegs, hsegs', otherSegs, otherSegs, List.filter_append, List.filter_append,
      List.filter_cons_of_neg]
    rw [hname]
    exact Bool.false_ne_true
  · have hdrop := congrArg (List.drop (d.querySize - d'.querySize)) h.kept
    rw [List.drop_drop, List.drop_drop, Nat.add_sub_cancel' hsize] at hdrop
    rw [hdrop, hkept]

theorem Pairs.sublist {text text' : List Byte} {as bs : List (List Byte)} (h : Pairs text)
    (hsegs : segs text = as ++ seg :: bs) (hsegs' : segs text' = as ++ bs) : Pairs text' := by
  intro seg' hseg'
  apply h
  rw [hsegs]
  rw [hsegs'] at hseg'
  exact (List.mem_append.mp hseg').elim (fun h => List.mem_append_left _ h)
    fun h => List.mem_append_right _ (List.mem_cons_of_mem _ h)

theorem delLoop_found (hsize : d.querySize ≤ d.query.length) (hpairs : Pairs d.leftText)
    (hp : firstNamed d.leftText valName = some p) :
    ∃ d' as bs, delLoop valName (fuel + 1) d = delLoop valName fuel d' ∧
      d'.delCnt = d.delCnt + 1 ∧ segs d.leftText = as ++ p.2 :: bs ∧ segs d'.leftText = as ++ bs ∧
      d'.query.length = d.query.length ∧ d'.querySize < d.querySize ∧
      d'.query.drop d.querySize = d.query.drop d.querySize := by
  have hmem := List.mem_of_find?_eq_some hp
  obtain ⟨x, j, k, t, haround, hpos⟩ := exists_around hmem
  obtain ⟨n, v, hseg, hne, hn⟩ := hpairs.isPair hmem
  have hget := @httpQueryValGetEx_pairs _ valName hpairs
  rw [hp, Option.map_some, Option.elim_some] at hget
  have hval : queryVal p = ⟨p.1, p.1 + n.length + 1, v.length⟩ := by
    have h := queryVal_eq (v := v) hn p.1
    rwa [← hseg] at h
  have hlen : p.2.length = n.length + 1 + v.length := by
    rw [hseg, List.length_append, List.length_cons]
    omega
  -- the part is taken out with the `&` on one of its sides
  have hrange := haround.delRange_eq (v := queryVal p) (by rw [hval, hpos]) (by
    rw [hval, hlen, ← hpos]
    dsimp only
    omega)
  have hspec := haround.range_spec hrange
  have htext : d.leftText.length = d.querySize := List.length_take_of_le hsize
  obtain ⟨buf, hmove, hbuf, htake, hdrop⟩ := memmove_gap hsize (Nat.le_of_lt hspec.1)
    (by rw [← htext]; exact hspec.2.1)
  let range := delRange d.leftText (queryVal p)
  refine ⟨⟨d.delCnt + 1, buf, d.querySize - (range.2 - range.1)⟩, segs x, segs t, ?_, rfl,
    haround.segs_eq, ?_, hbuf, ?_, hdrop⟩
  · rw [delLoop, ← Deleted.leftText, hget]
    dsimp only [Option.bind_eq_bind, Option.bind_some]
    rw [hmove]
    rfl
  · rw [Deleted.leftText, htake]
    exact hspec.2.2
  · show d.querySize - (range.2 - range.1) < d.querySize
    have hlt : range.1 < range.2 := hspec.1
    omega

theorem delLoop_none (hpairs : Pairs d.leftText) (hnone : firstNamed d.leftText valName = none) :
    delLoop valName (fuel + 1) d = some (.ok d) := by
  rw [delLoop, ← Deleted.leftText, httpQueryValGetEx_pairs hpairs, hnone]
  rfl

theorem delLoop_spec : ∀ {fuel : Nat} {d : Deleted}, d.querySize < fuel →
    d.querySize ≤ d.query.length → Pairs d.leftText →
      ∃ d', delLoop valName fuel d = some (.ok d') ∧ DelRight valName d d'
  | 0, _, h, _, _ => absurd h (Nat.not_lt_zero _)
  | fuel + 1, d, hfuel, hsize, hpairs => by
    cases hp : firstNamed d.leftText valName with
    | none => exact ⟨d, delLoop_none hpairs hp, delRight_none hp⟩
    | some p =>
      obtain ⟨d', as, bs, hloop, hcnt, hsegs, hsegs', hlen, hlt, hkept⟩ :=
        @delLoop_found _ _ _ fuel hsize hpairs hp
      -- every turn makes the query shorter
      obtain ⟨d'', hrest, hright⟩ := @delLoop_spec fuel d' (by omega) (by omega)
        (hpairs.sublist hsegs hsegs')
      exact ⟨d'', hloop.trans hrest, hright.cons hcnt hsegs hsegs' (hasName_of_find hp) hlen
        (Nat.le_of_lt hlt) hkept⟩

theorem firstNamed_other (h : segs query = otherSegs valName (segs s)) :
    firstNamed query valName = none := by
  rw [firstNamed, List.find?_eq_none]
  intro p hp hname
  have hseg : p.2 ∈ otherSegs valName (segs s) := by
    rw [← h]
    exact List.mem_map_of_mem hp
  have hother := (List.mem_filter.mp hseg).2
  rw [hname] at hother
  exact Bool.false_ne_true hother

theorem Pairs.other (h : Pairs s) (heq : segs query = otherSegs valName (segs s)) :
    Pairs query := by
  intro seg hseg
  rw [heq] at hseg
  exact h seg (List.mem_filter.mp hseg).1

/-- The parts with the name are taken out of a query of names and values, in any case and however
many `&` there are, and a second call changes nothing. -/
theorem httpQueryValDel_right (query : List Byte) (querySize : Nat) (valName : List Byte)
    (hsize : querySize ≤ query.length) (hpairs : Pairs (query.take querySize)) :
    ∃ d, httpQueryValDel query querySize valName = some (.ok d) ∧
      d.delCnt = (segs (query.take querySize)).countP (hasName valName) ∧
      segs (d.query.take d.querySize) = otherSegs valName (segs (query.take querySize)) ∧
      d.query.length = query.length ∧ d.querySize ≤ querySize ∧
      d.query.drop querySize = query.drop querySize ∧
      httpQueryValDel d.query d.querySize valName = some (.ok ⟨0, d.query, d.querySize⟩) := by
  obtain ⟨d, hloop, hright⟩ := @delLoop_spec valName (querySize + 1) (⟨0, query, querySize⟩)
    (Nat.lt_succ_self _) hsize hpairs
  refine ⟨d, hloop, hright.cnt.trans (Nat.zero_add _), hright.segs_eq, hright.length_eq,
    hright.size_le, hright.kept, ?_⟩
  exact delLoop_none (d := ⟨0, d.query, d.querySize⟩) (hpairs.other hright.segs_eq)
    (firstNamed_other hright.segs_eq)

/-- `&a=1&&b=2&A=3` without `a`. -/
theorem httpQueryValDel_right_twice :
    Pairs ([amp, chr 'a', eqs, chr '1', amp, amp, chr 'b', eqs, chr '2', amp, chr 'A', eqs,
      chr '3'].take 13) ∧
    ∃ d, httpQueryValDel [amp, chr 'a', eqs, chr '1', amp, amp, chr 'b', eqs, chr '2', amp, chr 'A',
      eqs, chr '3'] 13 [chr 'a'] = some (.ok d) ∧ d.delCnt = 2 := by
  have hpairs : Pairs ([amp, chr 'a', eqs, chr '1', amp, amp, chr 'b', eqs, chr '2', amp, chr 'A',
      eqs, chr '3'].take 13) := by
    intro seg hseg
    have hmem : seg ∈ [[chr 'a', eqs, chr '1'], [chr 'b', eqs, chr '2'], [chr 'A', eqs, chr '3']] :=
      hseg
    rw [List.mem_cons, List.mem_cons, List.mem_singleton] at hmem
    rcases hmem with rfl | rfl | rfl
    · exact ⟨[chr 'a'], [chr '1'], rfl, List.cons_ne_nil _ _, by decide⟩
    · exact ⟨[chr 'b'], [chr '2'], rfl, List.cons_ne_nil _ _, by decide⟩
    · exact ⟨[chr 'A'], [chr '3'], rfl, List.cons_ne_nil _ _, by decide⟩
  obtain ⟨d, hdel, hcnt, -⟩ := httpQueryValDel_right _ 13 [chr 'a'] (Nat.le_refl _) hpairs
  exact ⟨hpairs, d, hdel, hcnt⟩

end Http
