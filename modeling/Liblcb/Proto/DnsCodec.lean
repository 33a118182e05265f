import Liblcb.Proto.DnsRead

/-!
# Names there and back

What is stored as a sequence of labels is read back as the name it was, and the two walkers of a
name, one of which only counts, agree on every message.
-/

namespace Dns.Read

open Mem Wire Buffer Progress

variable {buf : List Byte} {msgSize maxPos offset : Nat}

/-! ## A name that was stored -/

/-- Walking over labels copies them, a dot behind each, and takes the last dot back. -/
theorem run_nameTurn_labels : ∀ {ls : List (List Byte)} {s : Walk},
    (∀ l ∈ ls, 0 < l.length ∧ l.length ≤ 63) →
    At buf s.cur (ls.flatMap (fun l => BitVec.ofNat 8 l.length :: l) ++ [0]) →
    s.cur + (dotted ls).length + 1 ≤ maxPos → s.jumps < maxNameCycles →
    s.nameLen + (dotted ls).length < s.name.length →
    run (catching (nameTurn buf msgSize maxPos)) (Walk.rank maxPos) s =
      some (.ok (s.nameLen + (dotted ls).length - 1,
        splice (splice s.name s.nameLen (dotted ls)) (s.nameLen + (dotted ls).length - 1) [0#8]))
  | [], s, _, hat, hpos, hj, hroom => by
    have hl : LabelAt buf s.cur 0 := @labelAt_of_at buf s.cur [] (Nat.zero_le _) hat
    have hturn : nameTurn buf msgSize maxPos s =
        .ok (.done (s.nameLen - 1, splice s.name (s.nameLen - 1) [0#8])) := by
      rw [nameTurn, walkTurn_label hj hl (by omega), copyLabel_zero (by omega)]
    rw [run_done (catching_ok.mpr hturn)]
    simp [dotted]
  | l :: ls, s, hval, hat, hpos, hj, hroom => by
    obtain ⟨hlpos, hlle⟩ := hval l List.mem_cons_self
    have hdotted := dotted_cons l ls
    rw [List.flatMap_cons, List.append_assoc] at hat
    obtain ⟨hhead, hrest⟩ := At.append_iff.mp hat
    have hl : LabelAt buf s.cur l.length := labelAt_of_at hlle hhead
    have hin := hhead.length_le (List.cons_ne_nil _ _)
    rw [List.length_cons] at hin hrest
    have hdata : (buf.drop (s.cur + 1)).take l.length = l := (At.cons_iff.mp hhead).2
    -- one turn copies the label and its dot behind what there is
    have hturn : nameTurn buf msgSize maxPos s = .ok (.again { s with
        cur := s.cur + 1 + l.length, nameLen := s.nameLen + (l.length + 1),
        name := splice s.name s.nameLen (l ++ [dot]) }) := by
      rw [nameTurn, walkTurn_label hj hl (by omega),
        copyLabel_copy (by omega) (by omega) (by omega), hdata]
    have hfit : s.nameLen + (l ++ [dot]).length ≤ s.name.length := by
      rw [List.length_append, List.length_singleton]
      omega
    have ih := @run_nameTurn_labels ls { s with
        cur := s.cur + 1 + l.length, nameLen := s.nameLen + (l.length + 1),
        name := splice s.name s.nameLen (l ++ [dot]) }
      (fun m hm => hval m (List.mem_cons_of_mem l hm))
      (by rwa [show s.cur + 1 + l.length = s.cur + (l.length + 1) by omega])
      (show s.cur + 1 + l.length + (dotted ls).length + 1 ≤ maxPos by omega) hj
      (show s.nameLen + (l.length + 1) + (dotted ls).length <
          (splice s.name s.nameLen (l ++ [dot])).length by
        rw [length_splice hfit]
        omega)
    have hlen : (l ++ [dot]).length = l.length + 1 := by
      rw [List.length_append, List.length_singleton]
    have hjoin := @splice_splice _ s.name (l ++ [dot]) (dotted ls) s.nameLen hfit
    rw [hlen] at hjoin
    have hall : dotted (l :: ls) = l ++ [dot] ++ dotted ls := rfl
    rw [run_again (nameTurn_lowers buf msgSize maxPos) (catching_again.mpr hturn), ih]
    simp only
    rw [hjoin, hall, List.length_append, hlen, Nat.add_assoc]

/-- The name buffer holds the text and its terminating zero. -/
structure Holds (name text : List Byte) : Prop where
  text_eq : name.take text.length = text
  zero_eq : name[text.length]? = some 0#8

theorem sequenceOfLabels2name_stored {name : DomainName} {nameBuf : List Byte}
    (hoff : hdrSize ≤ offset) (hat : At buf offset name.bytes)
    (hmsg : offset + name.bytes.length ≤ msgSize) (hroom : name.text.length + 1 < nameBuf.length) :
    ∃ nameBuf', sequenceOfLabels2name buf msgSize offset nameBuf =
      .ok (name.text.length, nameBuf') ∧ Holds nameBuf' name.text := by
  have hbytes : name.bytes.length = (dotted name.labels).length + 1 := by
    rw [DomainName.bytes, List.length_append, length_bytes, List.length_singleton]
  have hdot := name.length_dotted_le
  have htext : (dotted name.labels).length - 1 = name.text.length := by
    rw [← dropLast_dotted, List.length_dropLast]
  have hrun := @run_nameTurn_labels buf msgSize (offset + msgSize) name.labels
    ⟨0, offset, 0, nameBuf⟩ (fun l hl => ⟨(name.valid l hl).1, (name.valid l hl).2.1⟩) hat
    (show offset + (dotted name.labels).length + 1 ≤ offset + msgSize by omega)
    (show 0 < maxNameCycles by decide)
    (show 0 + (dotted name.labels).length < nameBuf.length by omega)
  simp only [Nat.zero_add, htext] at hrun
  have hfit : 0 + (dotted name.labels).length ≤ nameBuf.length := by omega
  have hlast : name.text.length + [0#8].length ≤ (splice nameBuf 0 (dotted name.labels)).length := by
    rw [length_splice hfit, List.length_singleton]
    omega
  -- the zero goes over the last dot
  refine ⟨splice (splice nameBuf 0 (dotted name.labels)) name.text.length [0#8], ?_, ?_, ?_⟩
  · rw [sequenceOfLabels2name, if_neg (by omega), if_neg (by omega), hrun]
    rfl
  · have hfront : (splice nameBuf 0 (dotted name.labels)).take name.text.length = name.text := by
      rw [← htext, splice, List.take_zero, List.nil_append,
        List.take_append_of_le_length (Nat.sub_le _ _), ← List.dropLast_eq_take, dropLast_dotted]
    have htake := @take_splice _ (splice nameBuf 0 (dotted name.labels)) [0#8] name.text.length
      (by omega)
    rw [hfront] at htake
    have hcut := congrArg (List.take name.text.length) htake
    rwa [List.take_take, Nat.min_eq_left (Nat.le_add_right _ _), List.take_left] at hcut
  · exact getElem?_splice_of_mem hlast (Nat.zero_lt_one)

/-! ## The two walkers -/

/-- At the same place. -/
structure SamePlace (s t : Walk) : Prop where
  jumps : s.jumps = t.jumps
  cur : s.cur = t.cur
  nameLen : s.nameLen = t.nameLen

theorem SamePlace.jumped {s t : Walk} (h : SamePlace s t) (offset : Nat) :
    SamePlace (s.jumped offset) (t.jumped offset) :=
  ⟨congrArg (· + 1) h.jumps, rfl, h.nameLen⟩

theorem SamePlace.copied {s t : Walk} (h : SamePlace s t) (buf : List Byte) (len : Nat) :
    SamePlace (s.copied buf len) (t.counted len) :=
  ⟨h.jumps, congrArg (· + 1 + len) h.cur, congrArg (· + (len + 1)) h.nameLen⟩

theorem SamePlace.counts {s t : Walk} {len : Nat} (h : SamePlace s t) (hl : Counts buf maxPos s len) :
    Counts buf maxPos t len :=
  ⟨h.cur ▸ hl.toLabelAt, hl.ne, h.cur ▸ hl.pos⟩

theorem nameLenTurn_again {s s' t : Walk} (hst : SamePlace s t ∧ s.Room)
    (h : catching (nameTurn buf msgSize maxPos) s = some (.again s')) :
    ∃ t', catching (nameLenTurn buf msgSize maxPos) t = some (.again t') ∧
      SamePlace s' t' ∧ s'.Room := by
  obtain ⟨hst, hs⟩ := hst
  have hturn := catching_again.mp h
  have hkeep := (nameTurn_keeps hs hturn).1
  rcases nameTurn_cases hs hturn with ⟨e, -, he⟩ | ⟨hj, ⟨he, -⟩ | ⟨len, -, -, he⟩ | ⟨offset, hp, hs'⟩ |
    ⟨-, -, he⟩ | ⟨len, hl, hin, hs'⟩⟩
  · cases he
  · cases he
  · cases he
  · cases hs'
    refine ⟨t.jumped offset, ?_, hst.jumped offset, hkeep⟩
    exact catching_again.mpr (nameLenTurn_pointer (hst.jumps ▸ hj) (hst.cur ▸ hp))
  · cases he
  · cases hs'
    refine ⟨t.counted len, ?_, hst.copied buf len, hkeep⟩
    exact catching_again.mpr (nameLenTurn_counts (hst.jumps ▸ hj) (hst.counts hl.toCounts))

theorem sequenceOfLabelsGetNameLen_of_2name {name name' : List Byte} {n : Nat}
    (h : sequenceOfLabels2name buf msgSize offset name = .ok (n, name')) :
    sequenceOfLabelsGetNameLen buf msgSize offset = .ok n := by
  rw [sequenceOfLabels2name] at h
  split at h
  · cases h
  next hargs =>
  split at h
  · cases h
  next hhdr =>
  rw [not_or] at hargs
  obtain ⟨s', hreach, hdone⟩ := (ended_ok_iff (nameTurn_lowers buf msgSize (offset + msgSize))).mp h
  -- turn by turn, the counting walker is where the copying one is
  obtain ⟨t', hreach', hst, hs⟩ := hreach.simulated
    (R := fun s t => SamePlace s t ∧ s.Room) (t := ⟨0, offset, 0, []⟩)
    (fun _ _ _ => nameLenTurn_again) ⟨⟨rfl, rfl, rfl⟩, Nat.pos_of_ne_zero hargs.1⟩
  have hend : nameLenTurn buf msgSize (offset + msgSize) t' = .ok (.done (n, t'.name)) := by
    rcases nameTurn_cases hs hdone with ⟨e, -, he⟩ | ⟨hj, ⟨he, -⟩ | ⟨len, -, -, he⟩ | ⟨offset, -, he⟩ |
      ⟨hl, hpos, he⟩ | ⟨len, -, -, he⟩⟩
    · cases he
    · cases he
    · cases he
    · cases he
    · cases he
      rw [nameLenTurn_end (hst.jumps ▸ hj) (hst.cur ▸ hl) (hst.cur ▸ hpos), hst.nameLen]
    · cases he
  rw [sequenceOfLabelsGetNameLen, if_neg hargs.2, if_neg hhdr,
    (ended_ok_iff (nameLenTurn_lowers buf msgSize (offset + msgSize))).mpr ⟨t', hreach', hend⟩]
  rfl

theorem nameTurn_reaches (name : List Byte) {t t' : Walk}
    (h : Reaches (catching (nameLenTurn buf msgSize maxPos)) t t') :
    t'.cur < buf.length → t'.nameLen < name.length →
    ∃ s', Reaches (catching (nameTurn buf msgSize maxPos)) { t with name := name } s' ∧
      SamePlace s' t' ∧ s'.name.length = name.length := by
  induction h with
  | refl => exact fun _ _ => ⟨{ t with name := name }, .refl, ⟨rfl, rfl, rfl⟩, rfl⟩
  | @tail t1 t2 _ hstep ih =>
    intro hin hroom
    rcases nameLenTurn_cases (catching_again.mp hstep) with ⟨e, -, he⟩ | ⟨hj, ⟨he, -⟩ |
      ⟨offset, hp, he⟩ | ⟨-, -, he⟩ | ⟨len, hl, he⟩⟩
    · cases he
    · cases he
    · cases he
      obtain ⟨s1, hreach, hst, hlen⟩ := ih (Nat.lt_of_succ_lt hp.inside) hroom
      refine ⟨s1.jumped offset, hreach.tail ?_, hst.jumped offset, hlen⟩
      exact catching_again.mpr (nameTurn_pointer (hst.jumps ▸ hj) (hst.cur ▸ hp))
    · cases he
    · cases he
      have hroom1 : t1.nameLen + (len + 1) < name.length := hroom
      have hin1 : t1.cur + 1 + len < buf.length := hin
      -- the label was counted, so it starts inside, and there was room for what is in front of it
      obtain ⟨s1, hreach, hst, hlen⟩ := ih hl.inside (by omega)
      have hfits : Fits buf maxPos s1 len :=
        ⟨⟨hst.cur ▸ hl.toLabelAt, hl.ne, hst.cur ▸ hl.pos⟩, by rw [hst.nameLen, hlen]; exact hroom1⟩
      refine ⟨s1.copied buf len, hreach.tail ?_, hst.copied buf len, ?_⟩
      · refine catching_again.mpr (nameTurn_copies (hst.jumps ▸ hj) hfits ?_)
        rw [hst.cur]
        exact Nat.le_of_lt hin1
      · exact hfits.copied_length.trans hlen

theorem sequenceOfLabels2name_of_getNameLen {name : List Byte} {n : Nat}
    (hroom : n + 1 < name.length) (h : sequenceOfLabelsGetNameLen buf msgSize offset = .ok n) :
    ∃ name', sequenceOfLabels2name buf msgSize offset name = .ok (n, name') := by
  rw [sequenceOfLabelsGetNameLen] at h
  split at h
  · cases h
  next hargs =>
  split at h
  · cases h
  next hhdr =>
  cases hended : ended (run (catching (nameLenTurn buf msgSize (offset + msgSize)))
      (Walk.rank (offset + msgSize)) ⟨0, offset, 0, []⟩) with
  | error e =>
    rw [hended] at h
    cases h
  | ok r =>
    rw [hended] at h
    have hn : r.1 = n := Except.ok.inj h
    obtain ⟨t', hreach, hdone⟩ :=
      (ended_ok_iff (nameLenTurn_lowers buf msgSize (offset + msgSize))).mp hended
    rcases nameLenTurn_cases hdone with ⟨e, -, he⟩ | ⟨hj, ⟨he, -⟩ | ⟨offset, -, he⟩ |
      ⟨hl, hpos, he⟩ | ⟨len, -, he⟩⟩
    · cases he
    · cases he
    · cases he
    · cases he
      have hsmall : t'.nameLen < name.length := by
        simp only at hn
        omega
      -- the end label is there, and there is room for the name up to it
      obtain ⟨s', hreach', hst, hlen⟩ := nameTurn_reaches name hreach hl.inside hsmall
      have hs : s'.Room := by
        rw [Walk.Room, hst.nameLen, hlen]
        exact hsmall
      have hend : nameTurn buf msgSize (offset + msgSize) s' = .ok (.done (t'.nameLen - 1,
          splice s'.name (t'.nameLen - 1) [0#8])) := by
        rw [nameTurn_end (hst.jumps ▸ hj) hs (hst.cur ▸ hl) (hst.cur ▸ hpos), hst.nameLen]
      have hname : ¬ (name.length = 0 ∨ offset < hdrSize ∨ msgSize < offset) :=
        not_or.mpr ⟨by omega, hargs⟩
      rw [sequenceOfLabels2name, if_neg hname, if_neg hhdr]
      have hok := (ended_ok_iff (nameTurn_lowers buf msgSize (offset + msgSize))).mpr
        ⟨s', hreach', hend⟩
      rw [show t'.nameLen - 1 = n from hn] at hok
      exact ⟨_, hok⟩
    · cases he

/-! ## The codec -/

/-- A name is stored at `offset` and read back, whatever the message size is and wherever the name
buffer ends behind it. -/
def StoredBack (buf : List Byte) (offset : Nat) (name : DomainName) : Prop :=
  ∃ buf', name2sequenceOfLabels buf offset name.text false = .ok (buf', name.bytes.length) ∧
    ∀ (msgSize : Nat) (nameBuf : List Byte), offset + name.bytes.length ≤ msgSize →
      name.text.length + 1 < nameBuf.length →
      ∃ nameBuf', sequenceOfLabels2name buf' msgSize offset nameBuf =
        .ok (name.text.length, nameBuf') ∧ Holds nameBuf' name.text

/-- The walkers agree on the name at `offset`. -/
structure WalkersAgree (buf : List Byte) (msgSize offset : Nat) : Prop where
  counted : ∀ (n : Nat) (name : List Byte), n + 1 < name.length →
    (sequenceOfLabelsGetNameLen buf msgSize offset = .ok n ↔
      ∃ name', sequenceOfLabels2name buf msgSize offset name = .ok (n, name'))
  /-- whatever the size of the name buffer is -/
  copied : ∀ (n : Nat) (name name' : List Byte),
    sequenceOfLabels2name buf msgSize offset name = .ok (n, name') →
    sequenceOfLabelsGetNameLen buf msgSize offset = .ok n

theorem storedBack {name : DomainName} (hoff : hdrSize ≤ offset)
    (hroom : offset + name.bytes.length ≤ buf.length) : StoredBack buf offset name := by
  have hpos : 0 < name.bytes.length := by
    rw [DomainName.bytes, List.length_append]
    exact Nat.lt_of_lt_of_le Nat.zero_lt_one (Nat.le_add_left _ _)
  have hdrop : name.bytes.length ≤ (buf.drop offset).length := by
    rw [List.length_drop]
    omega
  refine ⟨splice buf offset name.bytes, ?_, fun msgSize nameBuf hmsg hname => ?_⟩
  · rw [name2sequenceOfLabels, if_neg (by omega), if_neg Bool.false_ne_true,
      domainNameToSequenceOfLabels_eq name hdrop]
    change Except.ok (buf.take offset ++ splice (buf.drop offset) 0 name.bytes, _) = _
    rw [splice, splice, List.take_zero, List.nil_append, Nat.zero_add, List.drop_drop,
      List.append_assoc]
  · exact sequenceOfLabels2name_stored hoff (At.splice hroom) hmsg hname

/-- Names of labels of up to 63 bytes are stored and read back; a text with an empty or too long
label is refused with `EINVAL` where there is room for it; and the walkers agree at every offset of
every message. -/
theorem nameCodec (buf : List Byte) :
    (∀ (name : DomainName) (offset : Nat), hdrSize ≤ offset →
      offset + name.bytes.length ≤ buf.length → StoredBack buf offset name) ∧
    (∀ (l : List Byte) (ls : List (List Byte)), (∀ l' ∈ l :: ls, dot ∉ l') →
      (∃ l' ∈ l :: ls, l'.length = 0 ∨ 63 < l'.length) →
      ([dot].intercalate (l :: ls)).length ≠ 0 →
      domainNameToSequenceOfLabels ([dot].intercalate (l :: ls)) buf =
        .error (if ([dot].intercalate (l :: ls)).length + 2 ≤ buf.length then .einval
          else .eoverflow)) ∧
    (∀ msgSize offset : Nat, WalkersAgree buf msgSize offset) := by
  refine ⟨fun name offset => storedBack, fun l ls hdot hbad hne => ?_, fun msgSize offset => ?_⟩
  · split
    · next hroom => exact domainNameToSequenceOfLabels_error hdot hbad hne hroom
    · next hroom =>
      rw [domainNameToSequenceOfLabels]
      simp only
      rw [if_neg hne, if_pos (Nat.lt_of_not_le hroom)]
  · refine ⟨fun n name hroom => ⟨sequenceOfLabels2name_of_getNameLen hroom, ?_⟩,
      fun n name name' => sequenceOfLabelsGetNameLen_of_2name⟩
    rintro ⟨name', h⟩
    exact sequenceOfLabelsGetNameLen_of_2name h

def nameCom : DomainName := { labels := [[0x63#8, 0x6f#8, 0x6d#8]], valid := by decide }

/-- The name `com` is stored behind the header; and a text of two dots, with an empty label between
them, is refused where there is room. -/
theorem nameCodec_com :
    StoredBack (List.replicate 20 0#8) hdrSize nameCom ∧
    domainNameToSequenceOfLabels [dot, dot] (List.replicate 20 0#8) = .error .einval := by
  obtain ⟨hstored, hrefused, -⟩ := nameCodec (List.replicate 20 0#8)
  refine ⟨hstored nameCom hdrSize (Nat.le_refl _) (by decide), ?_⟩
  exact hrefused [] [[], []] (by decide) ⟨[], .head _, .inl rfl⟩ (by decide)

/-- The text `.` has two empty labels, but a buffer of one byte is too small to find that. -/
theorem nameCodec_small :
    (∃ l ∈ [dot].splitOn dot, l.length = 0) ∧
    domainNameToSequenceOfLabels [dot] [0#8] = .error .eoverflow := by
  decide

end Dns.Read
