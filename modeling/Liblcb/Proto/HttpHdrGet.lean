import Liblcb.Proto.HttpHdrSpec

/-!
# When the header lookup finds what it should

The lookup goes from record to record.  It is right where the records with the name are the fields
with the name, and none of them is empty at the end of the block.
-/

namespace Http

open Mem

variable {hdr valName : List Byte} {fs : List (List Byte)} {r : Nat × List Byte}
  {separator fuel pos : Nat}

/-! ## One record after the other -/

/-- The records behind a separator. -/
def recordsFrom (separator : Nat) (fs : List (List Byte)) : List (Nat × List Byte) :=
  records (linesAt (separator + 2) fs)

def withName (valName : List Byte) (rs : List (Nat × List Byte)) : List (Nat × List Byte) :=
  rs.filter fun r => named valName r.2

theorem withName_cons (r : Nat × List Byte) (rs : List (Nat × List Byte)) :
    withName valName (r :: rs) =
      if named valName r.2 then r :: withName valName rs else withName valName rs :=
  List.filter_cons

/-- A record stands in the block. -/
def StandsIn (hdr : List Byte) (r : Nat × List Byte) : Prop :=
  ∃ pre name val tail, hdr = pre ++ ((name ++ chr ':' :: val) ++ tail) ∧ chr ':' ∉ name ∧
    r = (pre.length, name ++ chr ':' :: val)

/-- The places that the scanner gives for a record. -/
def placeOf (r : Nat × List Byte) : FieldPlace :=
  ⟨r.1, r.1 + (memChr r.2 (chr ':')).getD 0 + 1, fieldEnd r⟩

instance : Decidable (EndBlank hdr r) := inferInstanceAs (Decidable (_ ∧ _))

theorem storeVal_place (h : StandsIn hdr r) : storeVal hdr (placeOf r) true true =
    if EndBlank hdr r then none else some (.ok (trimmed r)) := by
  obtain ⟨pre, name, val, tail, hhdr, hname, rfl⟩ := h
  have hstore := storeVal_eq hname hhdr
  obtain ⟨hcolon, hval⟩ := @fieldVal_eq _ val hname
  have hend : fieldEnd (pre.length, name ++ chr ':' :: val) = hdr.length ↔ tail = [] := by
    have hlen : hdr.length = pre.length + ((name ++ chr ':' :: val).length + tail.length) := by
      rw [hhdr, List.length_append, List.length_append]
    rw [fieldEnd, hlen, ← List.length_eq_zero_iff]
    dsimp only
    omega
  have hblank : EndBlank hdr (pre.length, name ++ chr ':' :: val) ↔
      tail = [] ∧ val.all isBlank = true := by
    rw [EndBlank, hend, hval]
  rw [placeOf, hcolon, hstore, if_congr hblank rfl rfl]

/-- The next record, and what the scanner makes of it. -/
structure Step (hdr valName : List Byte) (fuel separator : Nat) (fs : List (List Byte))
    (r : Nat × List Byte) (post : List (List Byte)) : Prop where
  stands : StandsIn hdr r
  records_eq : recordsFrom separator fs = r :: recordsFrom (fieldEnd r) post
  at_end : At hdr (fieldEnd r) post
  lt : post.length < fs.length
  run : foundLoop hdr valName (fuel + 1) separator =
    if named valName r.2 then .ok (placeOf r) else foundLoop hdr valName fuel (fieldEnd r)

theorem foundLoop_none (h : chr ':' ∉ hdr.drop (separator + 2)) :
    foundLoop hdr valName (fuel + 1) separator = .error .espipe := by
  rw [foundLoop]
  simp only [memChrOff_none h]

/-- One turn of the outer loop. -/
theorem foundLoop_step (hat : At hdr separator fs) :
    (foundLoop hdr valName (fuel + 1) separator = .error .espipe ∧ recordsFrom separator fs = []) ∨
    ∃ r post, Step hdr valName fuel separator fs r post := by
  rcases hat with ⟨pre, s, rfl, rfl, rfl⟩ | ⟨rfl, rfl⟩
  · have hdrop : (pre ++ cr :: lf :: s).drop (pre.length + 2) = s := by
      rw [← List.drop_drop, List.drop_left]
      rfl
    rcases @records_cases _ s (pre.length + 2) rfl with
      ⟨hcolon, hrs⟩ | ⟨name, val, tail, post, hh, hrs⟩
    · exact .inl ⟨foundLoop_none (by rw [hdrop]; exact hcolon), hrs⟩
    · -- a record: its value goes up to the end of the last folded line
      have hhdr : pre ++ cr :: lf :: s = (pre ++ crlf) ++ ((name ++ chr ':' :: val) ++ tail) := by
        rw [hh.eq, List.append_assoc pre]
        rfl
      have hpre : (pre ++ crlf).length = pre.length + 2 := by
        rw [List.length_append]
        rfl
      have hcolonAt : memChrOff (pre.length + 2) (pre ++ cr :: lf :: s) (chr ':') =
          some (pre.length + 2 + name.length) := by
        rw [hhdr, List.append_assoc name, List.cons_append, memChrOff_append hpre.symm hh.notMem]
      have hval : fields ((pre ++ cr :: lf :: s).drop (pre.length + 2 + name.length + 1)) =
          val :: post := by
        rw [Nat.add_assoc (pre.length + 2), ← List.drop_drop, hdrop, hh.eq, List.append_assoc name,
          ← List.drop_drop, List.drop_left, List.cons_append, List.drop_succ_cons, List.drop_zero]
        exact hh.split
      have hlen : (pre ++ cr :: lf :: s).length =
          pre.length + 2 + (name.length + 1 + val.length + tail.length) := by
        rw [hhdr, List.length_append, hpre, List.length_append, List.length_append,
          List.length_cons]
        omega
      have hsep := separatorLoop_eq ((pre ++ cr :: lf :: s).length + 1) _ hval (by omega) (by omega)
      have hbytes : ((pre ++ cr :: lf :: s).drop (pre.length + 2)).take
          (pre.length + 2 + name.length + 1 - (pre.length + 2) - 1) = name := by
        have hsub : pre.length + 2 + name.length + 1 - (pre.length + 2) - 1 = name.length := by
          omega
        rw [hdrop, hsub, hh.eq, List.append_assoc, List.take_left]
      have hend : fieldEnd (pre.length + 2, name ++ chr ':' :: val) =
          pre.length + 2 + name.length + 1 + val.length := by
        rw [fieldEnd, List.length_append, List.length_cons]
        omega
      refine .inr ⟨(pre.length + 2, name ++ chr ':' :: val), post, ?_⟩
      refine ⟨⟨pre ++ crlf, name, val, tail, hhdr, hh.notMem, by rw [hpre]⟩, hrs, ?_, hh.lt, ?_⟩
      · -- the next search begins at the CRLF behind the record, or at the end of the block
        rcases hh.next with ⟨rfl, rfl⟩ | ⟨rest, rfl, rfl⟩
        · refine .inr ⟨?_, rfl⟩
          rw [hend, hlen, List.length_nil]
          omega
        · refine .inl ⟨pre ++ cr :: lf :: (name ++ chr ':' :: val), rest, ?_, ?_, rfl⟩
          · rw [hh.eq, List.append_assoc pre]
            rfl
          · have hsum : (pre ++ cr :: lf :: (name ++ chr ':' :: val)).length =
                pre.length + ((name ++ chr ':' :: val).length + 1 + 1) := List.length_append
            rw [fieldEnd, hsum]
            dsimp only
            omega
      · rw [foundLoop]
        simp only [hcolonAt, hsep, hbytes]
        rw [named_append hh.notMem, placeOf, (@fieldVal_eq _ val hh.notMem).1, hend]
        rfl
  · refine .inl ⟨foundLoop_none ?_, rfl⟩
    rw [List.drop_eq_nil_of_le (by omega)]
    exact List.not_mem_nil

theorem foundLoop_spec : ∀ {fuel separator : Nat} {fs : List (List Byte)}, At hdr separator fs →
    fs.length < fuel →
      (foundLoop hdr valName fuel separator = .error .espipe ∧
        withName valName (recordsFrom separator fs) = []) ∨
      ∃ r post, foundLoop hdr valName fuel separator = .ok (placeOf r) ∧ StandsIn hdr r ∧
        At hdr (fieldEnd r) post ∧ post.length < fs.length ∧
        withName valName (recordsFrom separator fs) =
          r :: withName valName (recordsFrom (fieldEnd r) post)
  | 0, _, _, _, h => absurd h (Nat.not_lt_zero _)
  | fuel + 1, separator, fs, hat, hfuel => by
    rcases @foundLoop_step _ valName _ _ fuel hat with ⟨hrun, hrs⟩ | ⟨r, post, h⟩
    · rw [hrs]
      exact .inl ⟨hrun, rfl⟩
    · have hlt := h.lt
      by_cases hname : named valName r.2 = true
      · refine .inr ⟨r, post, ?_, h.stands, h.at_end, hlt, ?_⟩
        · rw [h.run, if_pos hname]
        · rw [h.records_eq, withName_cons, if_pos hname]
      · -- a record with another name is passed over
        have hskip : withName valName (recordsFrom separator fs) =
            withName valName (recordsFrom (fieldEnd r) post) := by
          rw [h.records_eq, withName_cons, if_neg hname]
        rw [h.run, if_neg hname, hskip]
        rcases @foundLoop_spec fuel _ _ h.at_end (by omega) with
          hnone | ⟨r', post', hrun, hstands, hat', hlt', hrs⟩
        · exact .inl hnone
        · exact .inr ⟨r', post', hrun, hstands, hat', by omega, hrs⟩

theorem memFindOff_end : memFindOff hdr.length hdr crlf = none := by
  rw [memFindOff, List.drop_length]
  rfl

theorem httpHdrValGetExRet_at (hat : At hdr separator fs) :
    (httpHdrValGetExRet hdr valName separator true true = some (.error .espipe) ∧
      withName valName (recordsFrom separator fs) = []) ∨
    ∃ r post, httpHdrValGetExRet hdr valName separator true true =
        (if EndBlank hdr r then none else some (.ok (trimmed r))) ∧ StandsIn hdr r ∧
      At hdr (fieldEnd r) post ∧ post.length < fs.length ∧
      withName valName (recordsFrom separator fs) =
        r :: withName valName (recordsFrom (fieldEnd r) post) := by
  have hspec := @foundLoop_spec _ valName _ _ _ hat hat.length_le
  rcases hat with ⟨pre, s, rfl, rfl, rfl⟩ | ⟨rfl, rfl⟩
  · rw [httpHdrValGetExRet, memFindOff_at]
    rcases hspec with ⟨hrun, hrs⟩ | ⟨r, post, hrun, hstands, hat', hlt, hrs⟩
    · refine .inl ⟨?_, hrs⟩
      simp only [hrun]
    · refine .inr ⟨r, post, ?_, hstands, hat', hlt, hrs⟩
      simp only [hrun]
      exact storeVal_place hstands
  · refine .inl ⟨?_, rfl⟩
    rw [httpHdrValGetExRet, memFindOff_end]

theorem visitLoop_at : ∀ {fuel separator : Nat} {fs : List (List Byte)}, At hdr separator fs →
    fs.length < fuel → visitLoop hdr valName fuel separator =
      if ∃ r ∈ withName valName (recordsFrom separator fs), EndBlank hdr r then none
      else some (.ok ((withName valName (recordsFrom separator fs)).map trimmed))
  | 0, _, _, _, h => absurd h (Nat.not_lt_zero _)
  | fuel + 1, separator, fs, hat, hfuel => by
    rw [visitLoop]
    rcases @httpHdrValGetExRet_at _ valName _ _ hat with
      ⟨hrun, hrs⟩ | ⟨r, post, hrun, -, hat', hlt, hrs⟩
    · rw [hrun, hrs, if_neg]
      · rfl
      · rintro ⟨r, hr, -⟩
        exact absurd hr List.not_mem_nil
    · have ih := @visitLoop_at fuel _ _ hat' (by omega)
      rw [hrun, hrs]
      by_cases hend : EndBlank hdr r
      · rw [if_pos hend, if_pos ⟨r, List.mem_cons_self, hend⟩]
        rfl
      · rw [if_neg hend]
        -- this value is read without trouble, so any trouble lies behind it
        have hrest : (∃ r' ∈ r :: withName valName (recordsFrom (fieldEnd r) post),
            EndBlank hdr r') ↔ ∃ r' ∈ withName valName (recordsFrom (fieldEnd r) post),
            EndBlank hdr r' := by
          rw [List.exists_mem_cons_iff]
          exact or_iff_right hend
        have hnext : (trimmed r).offsetNext = fieldEnd r := rfl
        simp only [Option.bind_eq_bind, Option.bind_some, hnext, ih, hrest]
        split_ifs
        · rfl
        · rfl

/-! ## Lines and records -/

theorem linesAt_ge : ∀ {fs : List (List Byte)} {pos : Nat}, r ∈ linesAt pos fs → pos ≤ r.1
  | [], _, h => absurd h List.not_mem_nil
  | f :: fs, pos, h => by
    rcases List.mem_cons.mp h with rfl | h
    · exact Nat.le_refl _
    · have hle := linesAt_ge h
      omega

theorem linesAt_pairwise : ∀ {fs : List (List Byte)} {pos : Nat},
    (linesAt pos fs).Pairwise fun l m => fieldEnd l < m.1
  | [], _ => List.Pairwise.nil
  | f :: fs, pos => by
    rw [linesAt, List.pairwise_cons]
    refine ⟨fun m hm => ?_, linesAt_pairwise⟩
    have hle := linesAt_ge hm
    rw [fieldEnd]
    dsimp only
    omega

theorem linesAt_inj {fs : List (List Byte)} {pos : Nat} {l m : Nat × List Byte}
    (hl : l ∈ linesAt pos fs) (hm : m ∈ linesAt pos fs) (h : fieldEnd l = fieldEnd m) : l = m := by
  have hpair := List.pairwise_iff_getElem.mp (@linesAt_pairwise fs pos)
  obtain ⟨i, hi, rfl⟩ := List.getElem_of_mem hl
  obtain ⟨j, hj, rfl⟩ := List.getElem_of_mem hm
  have hstart : ∀ r : Nat × List Byte, r.1 ≤ fieldEnd r := fun r => Nat.le_add_right _ _
  rcases Nat.lt_trichotomy i j with hij | rfl | hij
  · have hlt := hpair i j hi hj hij
    have hle := hstart (linesAt pos fs)[j]
    omega
  · rfl
  · have hlt := hpair j i hj hi hij
    have hle := hstart (linesAt pos fs)[i]
    omega

theorem records_head : ∀ {fs : List (List Byte)} {pos : Nat} {rs : List (Nat × List Byte)},
    records (linesAt pos fs) = r :: rs → r.1 = pos
  | [], _, _, h => by cases h
  | f :: fs, pos, rs, h => by
    rw [linesAt, records] at h
    split_ifs at h with hf
    · rw [← (List.cons.inj h).1]
    · cases hrs : records (linesAt (pos + f.length + 2) fs) with
      | nil =>
        rw [hrs, absorb] at h
        cases h
      | cons q qs =>
        rw [hrs, absorb] at h
        rw [← (List.cons.inj h).1]

theorem records_last : ∀ {r : Nat × List Byte} {fs : List (List Byte)} {pos : Nat},
    r ∈ records (linesAt pos fs) →
      ∃ l ∈ linesAt pos fs, ∃ a, r.2 = a ++ l.2 ∧ l.1 = r.1 + a.length ∧ chr ':' ∉ a
  | _, [], _, h => absurd h List.not_mem_nil
  | r, f :: fs, pos, h => by
    rw [linesAt, records] at h
    split_ifs at h with hf
    · rcases List.mem_cons.mp h with rfl | h
      · exact ⟨(pos, f), List.mem_cons_self, [], rfl, rfl, List.not_mem_nil⟩
      · obtain ⟨l, hl, a, hr⟩ := records_last h
        exact ⟨l, List.mem_cons_of_mem _ hl, a, hr⟩
    · cases hrs : records (linesAt (pos + f.length + 2) fs) with
      | nil =>
        rw [hrs, absorb] at h
        exact absurd h List.not_mem_nil
      | cons q qs =>
        have hq := records_head hrs
        rw [hrs, absorb] at h
        rcases List.mem_cons.mp h with rfl | h
        · obtain ⟨l, hl, a, htext, hpos, ha⟩ :=
            @records_last q fs _ (by rw [hrs]; exact List.mem_cons_self)
          refine ⟨l, List.mem_cons_of_mem _ hl, f ++ (crlf ++ a), ?_, ?_, ?_⟩
          · rw [htext, List.append_assoc, List.append_assoc]
          · have hcrlf : crlf.length = 2 := rfl
            rw [hpos, hq, List.length_append, List.length_append, hcrlf]
            omega
          · rw [List.mem_append, List.mem_append]
            rintro (h | h | h)
            · exact hf h
            · exact absurd h (by decide)
            · exact ha h
        · obtain ⟨l, hl, a, hr⟩ := @records_last r fs _
            (by rw [hrs]; exact List.mem_cons_of_mem q h)
          exact ⟨l, List.mem_cons_of_mem _ hl, a, hr⟩

theorem records_ge (h : r ∈ records (linesAt pos fs)) : pos ≤ r.1 := by
  induction fs generalizing pos with
  | nil => exact absurd h List.not_mem_nil
  | cons f fs ih =>
    rw [linesAt, records] at h
    split_ifs at h with hf
    · rcases List.mem_cons.mp h with rfl | h
      · exact Nat.le_refl _
      · have hle := ih h
        omega
    · cases hrs : records (linesAt (pos + f.length + 2) fs) with
      | nil =>
        rw [hrs, absorb] at h
        exact absurd h List.not_mem_nil
      | cons q qs =>
        rw [hrs, absorb] at h
        rcases List.mem_cons.mp h with rfl | h
        · exact Nat.le_refl _
        · have hle := ih (by rw [hrs]; exact List.mem_cons_of_mem q h)
          omega

theorem records_pairwise : ∀ {fs : List (List Byte)} {pos : Nat},
    (records (linesAt pos fs)).Pairwise fun q r => q.1 < r.1
  | [], _ => List.Pairwise.nil
  | f :: fs, pos => by
    have ih := @records_pairwise fs (pos + f.length + 2)
    rw [linesAt, records]
    split_ifs with hf
    · rw [List.pairwise_cons]
      refine ⟨fun r hr => ?_, ih⟩
      have hle := records_ge hr
      omega
    · cases hrs : records (linesAt (pos + f.length + 2) fs) with
      | nil => exact List.Pairwise.nil
      | cons q qs =>
        have hq := records_head hrs
        rw [hrs, List.pairwise_cons] at ih
        rw [absorb, List.pairwise_cons]
        refine ⟨fun r hr => ?_, ih.2⟩
        have hlt := ih.1 r hr
        dsimp only
        omega

theorem named_iff {f : List Byte} : named valName f = true ↔
    ∃ name val, f = name ++ chr ':' :: val ∧ chr ':' ∉ name ∧ memCmpin name valName = true := by
  constructor
  · intro h
    by_cases hf : chr ':' ∈ f
    · obtain ⟨name, val, rfl, hname⟩ := List.eq_append_cons_of_mem hf
      rw [named_append hname] at h
      exact ⟨name, val, rfl, hname, h⟩
    · rw [named_false hf] at h
      exact absurd h Bool.false_ne_true
  · rintro ⟨name, val, rfl, hname, hcmp⟩
    rw [named_append hname]
    exact hcmp

theorem records_eq_line {m : Nat × List Byte} (hr : r ∈ records (linesAt pos fs))
    (hm : m ∈ linesAt pos fs) (hnr : named valName r.2 = true) (hnm : named valName m.2 = true)
    (h : fieldEnd r = fieldEnd m) : r = m := by
  obtain ⟨l, hl, a, htext, hpos, ha⟩ := records_last hr
  have hend : fieldEnd l = fieldEnd m := by
    rw [← h, fieldEnd, fieldEnd, hpos, htext, List.length_append, Nat.add_assoc]
  have hlm := linesAt_inj hl hm hend
  subst hlm
  obtain ⟨n, v, hrn, hn, hcmp⟩ := named_iff.mp hnr
  obtain ⟨n', v', hln, hn', hcmp'⟩ := named_iff.mp hnm
  have hmem : chr ':' ∉ a ++ n' := by
    rw [List.mem_append, not_or]
    exact ⟨ha, hn'⟩
  have hsame : n = a ++ n' := by
    apply (@append_chr_inj _ _ v v' _ hn hmem _).1
    rw [← hrn, htext, hln, List.append_assoc]
  have hlen := length_of_memCmpin hcmp
  rw [← length_of_memCmpin hcmp', hsame, List.length_append] at hlen
  have hnil : a = [] := List.eq_nil_of_length_eq_zero (by omega)
  subst hnil
  obtain ⟨i, text⟩ := r
  obtain ⟨j, text'⟩ := l
  dsimp only at htext hpos
  rw [htext, hpos]
  rfl

end Http
