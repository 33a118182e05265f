import Liblcb.Proto.DnsRead

/-!
# Where reading a DNS message stays inside

When the readers of a message that fills the memory they may read leave it: which runs of labels,
pointers and items lead out is said of the bytes of the message.
-/

namespace Dns.Read

open Mem Wire Buffer Progress

/-- The call returns, and writes only where it may. -/
structure Contained {α : Type} (r : Except Stop α) : Prop where
  write : r ≠ .error .write
  returns : r ≠ .error (.errno .noReturn)

/-- Nor does it read outside of the message. -/
structure Safe {α : Type} (r : Except Stop α) : Prop extends Contained r where
  read : r ≠ .error .read

section Contained

variable {α β : Type} {x : Except Stop α} {f : α → Except Stop β}

theorem Contained.safe_iff_inside (h : Contained x) : Safe x ↔ x ≠ .error .read :=
  ⟨fun hs => hs.read, fun hr => ⟨h, hr⟩⟩

theorem contained_ok (a : α) : Contained (.ok a : Except Stop α) :=
  ⟨(fun h => by cases h), (fun h => by cases h)⟩

theorem contained_errno {e : Errno} (he : e ≠ .noReturn) :
    Contained (.error (.errno e) : Except Stop α) :=
  ⟨(fun h => by cases h), fun h => he (Stop.errno.inj (Except.error.inj h))⟩

theorem contained_read : Contained (.error .read : Except Stop α) :=
  ⟨(fun h => by cases h), (fun h => by cases h)⟩

theorem Contained.bind (hx : Contained x) (hf : ∀ a, x = .ok a → Contained (f a)) :
    Contained (x >>= f) := by
  cases hr : x with
  | error e =>
    rw [hr] at hx
    exact ⟨fun h => hx.write (congrArg Except.error (Except.error.inj h)),
      fun h => hx.returns (congrArg Except.error (Except.error.inj h))⟩
  | ok a => exact hf a hr

theorem Contained.map (hx : Contained x) (g : α → β) : Contained (x.map g) := by
  cases x with
  | error e =>
    exact ⟨fun h => hx.write (congrArg Except.error (Except.error.inj h)),
      fun h => hx.returns (congrArg Except.error (Except.error.inj h))⟩
  | ok a => exact contained_ok _

theorem bind_read : (x >>= f) = .error .read ↔
    x = .error .read ∨ ∃ a, x = .ok a ∧ f a = .error .read := by
  cases x with
  | error e =>
    constructor
    · intro h
      exact .inl (congrArg Except.error (Except.error.inj h))
    · rintro (h | ⟨a, ha, -⟩)
      · exact congrArg Except.error (Except.error.inj h)
      · cases ha
  | ok a =>
    constructor
    · exact fun h => .inr ⟨a, rfl, h⟩
    · rintro (h | ⟨b, hb, h⟩)
      · cases h
      · cases hb
        exact h

theorem bind_pure_read (g : α → β) : (x >>= fun a => pure (g a)) = .error .read ↔
    x = .error .read := by
  rw [bind_read]
  refine ⟨?_, .inl⟩
  rintro (h | ⟨a, -, h⟩)
  · exact h
  · cases h

theorem guarded_read {p q : Prop} [Decidable p] [Decidable q] {e e' : Errno} :
    (if p then .error (.errno e) else if q then .error (.errno e') else x) = .error .read ↔
      ¬ p ∧ ¬ q ∧ x = .error .read := by
  by_cases hp : p
  · rw [if_pos hp]
    exact iff_of_false (fun h => by cases h) fun h => h.1 hp
  by_cases hq : q
  · rw [if_neg hp, if_pos hq]
    exact iff_of_false (fun h => by cases h) fun h => h.2.1 hq
  · rw [if_neg hp, if_neg hq]
    exact ⟨fun h => ⟨hp, hq, h⟩, fun h => h.2.2⟩

theorem map_ok {g : α → β} {b : β} (h : x.map g = .ok b) : ∃ a, x = .ok a ∧ g a = b := by
  cases x with
  | error e => cases h
  | ok a => exact ⟨a, rfl, Except.ok.inj h⟩

theorem map_read (g : α → β) : x.map g = .error .read ↔ x = .error .read := by
  cases x with
  | error e => exact ⟨fun h => congrArg Except.error (Except.error.inj h),
      fun h => congrArg Except.error (Except.error.inj h)⟩
  | ok a => exact ⟨(fun h => by cases h), (fun h => by cases h)⟩

theorem ended_contained {σ α : Type} {turn : σ → Except Stop (Next σ α)} {rank : σ → Nat} {t : σ}
    (hlow : Lowers (catching turn) rank)
    (h : ∀ t', Reaches (catching turn) t t' → Contained (turn t')) :
    Contained (ended (run (catching turn) rank t)) := by
  constructor
  · intro hw
    obtain ⟨t', hreach, he⟩ := (ended_error_iff hlow).mp hw
    exact (h t' hreach).write he
  · intro hr
    obtain ⟨t', hreach, he⟩ := (ended_error_iff hlow).mp hr
    exact (h t' hreach).returns he

end Contained

variable {msg : List Byte} {offset room : Nat}

/-! ## Names -/

/-- A place in a name: how many pointers led there, and the length of the name so far. -/
structure Place where
  jumps : Nat
  pos : Nat
  len : Nat

/-- From one label or pointer to the next; `room` is the size of the name buffer. -/
inductive NameStep (msg : List Byte) (room : Nat) : Place → Place → Prop where
  | label {p : Place} {len : Nat} (budget : p.jumps < maxNameCycles)
      (label : LabelAt msg p.pos len) (ne : len ≠ 0) (whole : p.pos + 1 + len ≤ msg.length)
      (fits : p.len + (len + 1) < room) :
      NameStep msg room p ⟨p.jumps, p.pos + 1 + len, p.len + (len + 1)⟩
  | pointer {p : Place} {target : Nat} (budget : p.jumps < maxNameCycles)
      (follows : Follows msg msg.length p.pos target) :
      NameStep msg room p ⟨p.jumps + 1, target, p.len⟩

/-- The message ends in front of `p`, in the pointer there or in the label there; `maxPos` is as far
as a label may go. -/
inductive RunsOut (msg : List Byte) (maxPos room : Nat) (p : Place) : Prop where
  | cut (budget : p.jumps < maxNameCycles) (cut : CutAt msg p.pos)
  | label {len : Nat} (budget : p.jumps < maxNameCycles) (label : LabelAt msg p.pos len)
      (ne : len ≠ 0) (cut : msg.length < p.pos + 1 + len) (pos : p.pos + 1 + len ≤ maxPos)
      (fits : p.len + (len + 1) < room)

/-- The name at `offset` leads out of the message. -/
structure NameLeaves (msg : List Byte) (offset room : Nat) : Prop where
  room_pos : 0 < room
  header : hdrSize ≤ offset
  le : offset ≤ msg.length
  leaves : ∃ p, Relation.ReflTransGen (NameStep msg room) ⟨0, offset, 0⟩ p ∧
    RunsOut msg (offset + msg.length) room p

def Walk.place (s : Walk) : Place := ⟨s.jumps, s.cur, s.nameLen⟩

theorem nameStep_of_turn {maxPos : Nat} {s s' : Walk} (hs : s.Room) (hlen : s.name.length = room)
    (h : nameTurn msg msg.length maxPos s = .ok (.again s')) :
    NameStep msg room s.place s'.place := by
  rcases nameTurn_cases hs h with ⟨e, -, he⟩ | ⟨hj, ⟨he, -⟩ | ⟨len, -, -, he⟩ | ⟨target, hp, he⟩ |
    ⟨-, -, he⟩ | ⟨len, hl, hin, he⟩⟩
  · cases he
  · cases he
  · cases he
  · cases he
    exact .pointer hj hp
  · cases he
  · cases he
    exact .label hj hl.toLabelAt hl.ne hin (hlen ▸ hl.room)

theorem turn_of_nameStep {maxPos : Nat} {s : Walk} {p : Place} (hmax : msg.length ≤ maxPos)
    (hlen : s.name.length = room) (h : NameStep msg room s.place p) :
    ∃ s', nameTurn msg msg.length maxPos s = .ok (.again s') ∧ s'.place = p := by
  cases h with
  | @label len hj hl hne hin hroom =>
    have hfits : Fits msg maxPos s len :=
      ⟨⟨hl, hne, Nat.le_trans hin hmax⟩, by rw [hlen]; exact hroom⟩
    exact ⟨_, nameTurn_copies hj hfits hin, rfl⟩
  | @pointer target hj hp => exact ⟨_, nameTurn_pointer hj hp, rfl⟩

theorem reaches_place {maxPos : Nat} {s s' : Walk} (hs : s.Room)
    (h : Reaches (catching (nameTurn msg msg.length maxPos)) s s') :
    (s'.Room ∧ s'.name.length = s.name.length) ∧
      Relation.ReflTransGen (NameStep msg s.name.length) s.place s'.place := by
  induction h with
  | refl => exact ⟨⟨hs, rfl⟩, .refl⟩
  | tail _ hstep ih =>
    obtain ⟨⟨hroom, hlen⟩, hpath⟩ := ih
    have hturn := catching_again.mp hstep
    obtain ⟨hroom', hlen'⟩ := nameTurn_keeps hroom hturn
    exact ⟨⟨hroom', hlen'.trans hlen⟩, hpath.tail (nameStep_of_turn hroom hlen hturn)⟩

theorem place_reaches {maxPos : Nat} {s : Walk} {p : Place} (hmax : msg.length ≤ maxPos)
    (hs : s.Room) (h : Relation.ReflTransGen (NameStep msg s.name.length) s.place p) :
    ∃ s', Reaches (catching (nameTurn msg msg.length maxPos)) s s' ∧ s'.place = p := by
  induction h with
  | refl => exact ⟨s, .refl, rfl⟩
  | tail _ hstep ih =>
    obtain ⟨s1, hreach, rfl⟩ := ih
    obtain ⟨⟨-, hlen⟩, -⟩ := reaches_place hs hreach
    obtain ⟨s2, hturn, hplace⟩ := turn_of_nameStep hmax hlen hstep
    exact ⟨s2, hreach.tail (catching_again.mpr hturn), hplace⟩

theorem nameTurn_read_iff {maxPos : Nat} {s : Walk} (hs : s.Room) :
    nameTurn msg msg.length maxPos s = .error .read ↔ RunsOut msg maxPos s.name.length s.place := by
  constructor
  · intro h
    rcases nameTurn_cases hs h with ⟨e, -, he⟩ | ⟨hj, ⟨-, hcut⟩ | ⟨len, hl, hcut, -⟩ |
      ⟨target, -, he⟩ | ⟨-, -, he⟩ | ⟨len, -, -, he⟩⟩
    · cases he
    · exact .cut hj hcut
    · exact .label hj hl.toLabelAt hl.ne hcut hl.pos hl.room
    · cases he
    · cases he
    · cases he
  · rintro (⟨hj, hcut⟩ | ⟨hj, hl, hne, hcut, hpos, hroom⟩)
    · exact nameTurn_cut hj hcut
    · exact nameTurn_cut_label hj ⟨⟨hl, hne, hpos⟩, hroom⟩ hcut

theorem nameTurn_contained {maxPos : Nat} {s : Walk} (hs : s.Room) :
    Contained (nameTurn msg msg.length maxPos s) := by
  rcases nameTurn_cases hs rfl with ⟨e, hne, he⟩ | ⟨-, ⟨he, -⟩ | ⟨len, -, -, he⟩ |
    ⟨target, -, he⟩ | ⟨-, -, he⟩ | ⟨len, -, -, he⟩⟩
  · exact he ▸ contained_errno hne
  · exact he ▸ contained_read
  · exact he ▸ contained_read
  · exact he ▸ contained_ok _
  · exact he ▸ contained_ok _
  · exact he ▸ contained_ok _

theorem sequenceOfLabels2name_read_iff (name : List Byte) :
    sequenceOfLabels2name msg msg.length offset name = .error .read ↔
      NameLeaves msg offset name.length := by
  rw [sequenceOfLabels2name]
  by_cases hargs : name.length = 0 ∨ offset < hdrSize ∨ msg.length < offset
  · rw [if_pos hargs]
    refine iff_of_false (fun h => by cases h) fun h => ?_
    have := h.room_pos
    have := h.header
    have := h.le
    omega
  rw [if_neg hargs]
  rw [not_or, not_or, Nat.not_lt, Nat.not_lt] at hargs
  obtain ⟨hname, hoff, hle⟩ := hargs
  have hs : (⟨0, offset, 0, name⟩ : Walk).Room := Nat.pos_of_ne_zero hname
  rw [if_neg (by omega), ended_error_iff (nameTurn_lowers msg msg.length (offset + msg.length))]
  -- the turns that go on are the steps of the path, and the one that reads outside ends it
  constructor
  · rintro ⟨s', hreach, hread⟩
    obtain ⟨⟨hroom, hlen⟩, hpath⟩ := reaches_place hs hreach
    exact ⟨hs, hoff, hle, s'.place, hpath, hlen ▸ (nameTurn_read_iff hroom).mp hread⟩
  · rintro ⟨-, -, -, p, hpath, hout⟩
    obtain ⟨s', hreach, rfl⟩ := place_reaches (Nat.le_add_left _ offset) hs hpath
    obtain ⟨⟨hroom, hlen⟩, -⟩ := reaches_place hs hreach
    exact ⟨s', hreach, (nameTurn_read_iff hroom).mpr (hlen ▸ hout)⟩

theorem sequenceOfLabels2name_contained (name : List Byte) :
    Contained (sequenceOfLabels2name msg msg.length offset name) := by
  rw [sequenceOfLabels2name]
  split
  · exact contained_errno (by decide)
  next hargs =>
  split
  · exact contained_errno (by decide)
  -- the place for the zero is there in every turn
  have hs : (⟨0, offset, 0, name⟩ : Walk).Room := Nat.pos_of_ne_zero (not_or.mp hargs).1
  apply ended_contained (nameTurn_lowers msg msg.length (offset + msg.length))
  intro s' hreach
  exact nameTurn_contained (reaches_place hs hreach).1.1

/-! ## Sizes of names -/

def labelBytes (ls : List (List Byte)) : List Byte := ls.flatMap fun l => BitVec.ofNat 8 l.length :: l

def ValidLabels (ls : List (List Byte)) : Prop := ∀ l ∈ ls, 0 < l.length ∧ l.length ≤ 63

/-- What ends a sequence of labels, and how many bytes it is counted for. -/
inductive NameEnd : Byte → Nat → Prop where
  | root : NameEnd 0#8 1
  | pointer {b : Byte} (ctrl : b &&& labelCtrlMask = 0xc0#8) : NameEnd b 2
  | other {b : Byte} (len : b &&& labelCtrlMask ≠ 0x00#8) (pointer : b &&& labelCtrlMask ≠ 0xc0#8) :
      NameEnd b 1

/-- The name at `off` is `size` bytes long. -/
def SizedAt (msg : List Byte) (off size : Nat) : Prop :=
  ∃ ls b k, ValidLabels ls ∧ At msg off (labelBytes ls ++ [b]) ∧ NameEnd b k ∧
    size = (labelBytes ls).length + k

/-- Whole labels up to the end of the message, and nothing that ends the name. -/
def Unended (msg : List Byte) (off : Nat) : Prop :=
  off < msg.length ∧ ∃ ls, ValidLabels ls ∧ msg.drop off = labelBytes ls

theorem labelBytes_append (ls : List (List Byte)) (l : List Byte) :
    labelBytes (ls ++ [l]) = labelBytes ls ++ (BitVec.ofNat 8 l.length :: l) := by
  rw [labelBytes, List.flatMap_append, List.flatMap_singleton, ← labelBytes]

theorem byte_of_label : ∀ b : Byte, b &&& labelCtrlMask = 0x00#8 →
    b = BitVec.ofNat 8 (b &&& labelDataMask).toNat ∧ (b &&& labelDataMask).toNat ≤ 63 := by
  decide

theorem byte_eq_zero {b : Byte} (hctrl : b &&& labelCtrlMask = 0x00#8)
    (hlen : (b &&& labelDataMask).toNat = 0) : b = 0#8 := by
  rw [(byte_of_label b hctrl).1, hlen]

theorem ValidLabels.concat {ls : List (List Byte)} {l : List Byte} (h : ValidLabels ls)
    (hl : 0 < l.length ∧ l.length ≤ 63) : ValidLabels (ls ++ [l]) := by
  intro m hm
  rcases List.mem_append.mp hm with hm | hm
  · exact h m hm
  · rw [List.mem_singleton.mp hm]
    exact hl

theorem label_of_labelAt {cur len : Nat} (hl : LabelAt msg cur len) (hin : cur + 1 + len ≤ msg.length) :
    ∃ l : List Byte, l.length = len ∧ len ≤ 63 ∧ At msg cur (BitVec.ofNat 8 l.length :: l) := by
  have hlen : ((msg.drop (cur + 1)).take len).length = len := by
    rw [List.length_take, List.length_drop]
    omega
  obtain ⟨hbyte, hle⟩ := byte_of_label _ hl.ctrl
  rw [hl.len_eq] at hbyte hle
  refine ⟨(msg.drop (cur + 1)).take len, hlen, hle, ?_⟩
  rw [At.cons_iff, hlen]
  refine ⟨?_, ?_⟩
  · rw [← hbyte, byteAt, List.getD_eq_getElem?_getD, List.getElem?_eq_getElem hl.inside]
    rfl
  · rw [At, hlen]

variable {off n cur : Nat}

theorem sizeTurn_cases {r : Except Stop (Next Nat Nat)} (h : sizeTurn msg off n cur = r) :
    Refused r ∨ (r = .error .read ∧ msg.length ≤ off + cur) ∨
    (∃ len, LabelAt msg (off + cur) len ∧ len ≠ 0 ∧ cur + 1 + len ≤ n ∧
      r = .ok (.again (cur + 1 + len))) ∨
    (∃ k, off + cur < msg.length ∧ NameEnd (byteAt msg (off + cur)) k ∧ r = .ok (.done (cur + k))) := by
  by_cases hin : off + cur < msg.length
  case neg =>
    rw [sizeTurn, readByte_error (Nat.le_of_not_lt hin)] at h
    exact .inr (.inl ⟨h.symm, Nat.le_of_not_lt hin⟩)
  rw [sizeTurn, readByte_ok hin] at h
  change (if byteAt msg (off + cur) &&& labelCtrlMask = 0x00#8 then _ else _) = _ at h
  split at h
  · next hctrl =>
    split at h
    · exact .inl ⟨_, by decide, h.symm⟩
    next hfit =>
    split at h
    · next hzero =>
      refine .inr (.inr (.inr ⟨1, hin, ?_, h.symm⟩))
      rw [byte_eq_zero hctrl hzero]
      exact .root
    · next hne =>
      exact .inr (.inr (.inl ⟨_, ⟨hin, hctrl, rfl⟩, hne, Nat.le_of_not_lt hfit, h.symm⟩))
  · next hctrl =>
    split at h
    · next hptr => exact .inr (.inr (.inr ⟨2, hin, .pointer hptr, h.symm⟩))
    · next hptr => exact .inr (.inr (.inr ⟨1, hin, .other hctrl hptr, h.symm⟩))

theorem sizeTurn_lowers (msg : List Byte) (off n : Nat) :
    Lowers (catching (sizeTurn msg off n)) (n + 1 - ·) := by
  intro cur cur' h
  rcases sizeTurn_cases (catching_again.mp h) with ⟨e, -, he⟩ | ⟨he, -⟩ | ⟨len, -, hne, hle, he⟩ |
    ⟨k, -, -, he⟩
  · cases he
  · cases he
  · cases he
    simp only
    omega
  · cases he

theorem sizeTurn_label {len : Nat} (hl : LabelAt msg (off + cur) len) (hne : len ≠ 0)
    (hle : cur + 1 + len ≤ n) : sizeTurn msg off n cur = .ok (.again (cur + 1 + len)) := by
  rw [sizeTurn, readByte_ok hl.inside]
  change (if byteAt msg (off + cur) &&& labelCtrlMask = 0x00#8 then _ else _) = _
  rw [if_pos hl.ctrl]
  simp only [hl.len_eq]
  rw [if_neg (Nat.not_lt_of_le hle), if_neg hne]

theorem sizeTurn_end {b : Byte} {k : Nat} (hin : off + cur < msg.length)
    (hb : byteAt msg (off + cur) = b) (hend : NameEnd b k) (hle : cur + 1 ≤ n) :
    sizeTurn msg off n cur = .ok (.done (cur + k)) := by
  rw [sizeTurn, readByte_ok hin, hb]
  change (if b &&& labelCtrlMask = 0x00#8 then _ else _) = _
  cases hend with
  | root =>
    rw [if_pos (by decide)]
    exact (if_neg (Nat.not_lt_of_le hle)).trans (if_pos rfl)
  | pointer hctrl =>
    rw [if_neg (by rw [hctrl]; decide), if_pos hctrl]
  | other hctrl hptr => rw [if_neg hctrl, if_neg hptr]

theorem size_reaches_iff (hoff : off + n = msg.length) :
    Reaches (catching (sizeTurn msg off n)) 0 cur ↔
      ∃ ls, ValidLabels ls ∧ At msg off (labelBytes ls) ∧ (labelBytes ls).length = cur := by
  constructor
  · intro h
    -- every turn adds a label behind
    induction h with
    | refl => exact ⟨[], fun _ hl => (List.not_mem_nil hl).elim, At.nil _ _, rfl⟩
    | @tail cur cur' _ hstep ih =>
      obtain ⟨ls, hval, hat, rfl⟩ := ih
      rcases sizeTurn_cases (catching_again.mp hstep) with ⟨e, -, he⟩ | ⟨he, -⟩ |
        ⟨len, hl, hne, hle, he⟩ | ⟨k, -, -, he⟩
      · cases he
      · cases he
      · cases he
        obtain ⟨l, rfl, hle63, hatl⟩ := label_of_labelAt hl (by omega)
        refine ⟨ls ++ [l], hval.concat ⟨Nat.pos_of_ne_zero hne, hle63⟩, ?_, ?_⟩
        · rw [labelBytes_append]
          exact At.append_iff.mpr ⟨hat, hatl⟩
        · rw [labelBytes_append, List.length_append, List.length_cons]
          omega
      · cases he
  · rintro ⟨ls, hval, hat, rfl⟩
    induction ls using List.reverseRecOn with
    | nil => exact .refl
    | append_singleton ls l ih =>
      have hl := hval l (List.mem_append_right ls List.mem_cons_self)
      rw [labelBytes_append] at hat ⊢
      obtain ⟨hats, hatl⟩ := At.append_iff.mp hat
      have hin := hatl.length_le (List.cons_ne_nil _ _)
      rw [List.length_cons] at hin
      have hreach := ih (fun m hm => hval m (List.mem_append_left [l] hm)) hats
      have hturn := sizeTurn_label (labelAt_of_at hl.2 hatl) (Nat.ne_of_gt hl.1)
        (show (labelBytes ls).length + 1 + l.length ≤ n by omega)
      rw [List.length_append, List.length_cons,
        show (labelBytes ls).length + (l.length + 1) = (labelBytes ls).length + 1 + l.length by omega]
      exact hreach.tail (catching_again.mpr hturn)

theorem sizeTurn_contained : Contained (sizeTurn msg off n cur) := by
  rcases sizeTurn_cases (rfl : sizeTurn msg off n cur = _) with ⟨e, hne, he⟩ | ⟨he, -⟩ |
    ⟨len, -, -, -, he⟩ | ⟨k, -, -, he⟩
  · exact he ▸ contained_errno hne
  · exact he ▸ contained_read
  · exact he ▸ contained_ok _
  · exact he ▸ contained_ok _

theorem sequenceOfLabelsGetSize_contained : Contained (sequenceOfLabelsGetSize msg off n) := by
  rw [sequenceOfLabelsGetSize]
  split
  · exact contained_errno (by decide)
  · exact ended_contained (sizeTurn_lowers msg off n) fun _ _ => sizeTurn_contained

theorem sequenceOfLabelsGetSize_read_iff :
    sequenceOfLabelsGetSize msg off (msg.length - off) = .error .read ↔ Unended msg off := by
  rw [sequenceOfLabelsGetSize]
  by_cases hoff : off < msg.length
  case neg =>
    rw [if_pos (by omega)]
    exact iff_of_false (fun h => by cases h) fun h => hoff h.1
  rw [if_neg (by omega), ended_error_iff (sizeTurn_lowers msg off (msg.length - off))]
  constructor
  · rintro ⟨cur, hreach, hread⟩
    obtain ⟨ls, hval, hat, hlen⟩ := (size_reaches_iff (by omega)).mp hreach
    rcases sizeTurn_cases hread with ⟨e, -, he⟩ | ⟨-, hcut⟩ | ⟨len, -, -, -, he⟩ | ⟨k, -, -, he⟩
    · cases he
    · -- the labels are as long as the rest of the message
      refine ⟨hoff, ls, hval, ?_⟩
      rw [At, List.take_of_length_le] at hat
      · exact hat
      · rw [List.length_drop]
        omega
    · cases he
    · cases he
  · rintro ⟨-, ls, hval, hrest⟩
    have hlen := congrArg List.length hrest
    rw [List.length_drop] at hlen
    have hat : At msg off (labelBytes ls) := by
      rw [At, hrest, List.take_length]
    refine ⟨_, (size_reaches_iff (by omega)).mpr ⟨ls, hval, hat, rfl⟩, ?_⟩
    rw [sizeTurn, readByte_error (by omega)]
    rfl

theorem sequenceOfLabelsGetSize_ok_iff {size : Nat} :
    sequenceOfLabelsGetSize msg off (msg.length - off) = .ok size ↔ SizedAt msg off size := by
  rw [sequenceOfLabelsGetSize]
  by_cases hoff : off < msg.length
  case neg =>
    rw [if_pos (by omega)]
    refine iff_of_false (fun h => by cases h) ?_
    rintro ⟨ls, b, k, -, hat, -⟩
    have := hat.length_le (by simp)
    rw [List.length_append, List.length_singleton] at this
    omega
  rw [if_neg (by omega), ended_ok_iff (sizeTurn_lowers msg off (msg.length - off))]
  constructor
  · rintro ⟨cur, hreach, hdone⟩
    obtain ⟨ls, hval, hat, rfl⟩ := (size_reaches_iff (by omega)).mp hreach
    rcases sizeTurn_cases hdone with ⟨e, -, he⟩ | ⟨he, -⟩ | ⟨len, -, -, -, he⟩ | ⟨k, hin, hend, he⟩
    · cases he
    · cases he
    · cases he
    · cases he
      refine ⟨ls, _, k, hval, At.append_iff.mpr ⟨hat, ?_⟩, hend, rfl⟩
      rw [At.cons_iff, byteAt, List.getD_eq_getElem?_getD, List.getElem?_eq_getElem hin]
      exact ⟨rfl, At.nil _ _⟩
  · rintro ⟨ls, b, k, hval, hat, hend, rfl⟩
    have hin := hat.length_le (by simp)
    rw [List.length_append, List.length_singleton] at hin
    obtain ⟨hats, hatb⟩ := At.append_iff.mp hat
    exact ⟨_, (size_reaches_iff (by omega)).mpr ⟨ls, hval, hats, rfl⟩,
      sizeTurn_end (by omega) hatb.byteAt_eq hend (by omega)⟩

/-! ## Items -/

/-- A question or a resource record. -/
inductive Item where
  | question
  | record

def Item.fixedSize (msg : List Byte) (fixed : Nat) : Item → Nat
  | .question => questionFixed
  | .record => rrFixed + (getBe16 msg (fixed + 8)).toNat

/-- The item at `off` ends at `next`, inside the message. -/
structure ItemAt (msg : List Byte) (k : Item) (off next : Nat) : Prop where
  header : hdrSize ≤ msg.length
  start : 0 < off
  whole : ∃ size, SizedAt msg off size ∧ next = off + size + k.fixedSize msg (off + size)
  le : next ≤ msg.length

/-- The name of the item at `off` does not end, or the length of a record's data is not inside. -/
structure ItemLeaves (msg : List Byte) (k : Item) (off : Nat) : Prop where
  header : hdrSize ≤ msg.length
  start : 0 < off
  leaves : Unended msg off ∨
    k = .record ∧ ∃ size, SizedAt msg off size ∧ msg.length < off + size + rrFixed

/-- So does the name where the caller has a buffer for it. -/
def NamedLeaves (msg : List Byte) (k : Item) (off : Nat) (name : Option (List Byte)) : Prop :=
  ItemLeaves msg k off ∨
    ∃ next nameBuf, ItemAt msg k off next ∧ name = some nameBuf ∧ NameLeaves msg off nameBuf.length

theorem itemNameSize_contained : Contained (itemNameSize msg n off) := by
  have h := @sequenceOfLabelsGetSize_contained msg off (n - off)
  rw [itemNameSize]
  split
  · exact contained_errno (by decide)
  · exact h

theorem itemNameSize_read_iff : itemNameSize msg msg.length off = .error .read ↔ Unended msg off := by
  rw [itemNameSize, ← sequenceOfLabelsGetSize_read_iff]
  split
  · next e he =>
    rw [he]
    exact iff_of_false (fun h => by cases h) (fun h => by cases h)
  · exact Iff.rfl

theorem itemNameSize_ok_iff {size : Nat} :
    itemNameSize msg msg.length off = .ok size ↔ SizedAt msg off size := by
  rw [itemNameSize, ← sequenceOfLabelsGetSize_ok_iff]
  split
  · next e he =>
    rw [he]
    exact iff_of_false (fun h => by cases h) (fun h => by cases h)
  · exact Iff.rfl

theorem itemName_contained (name : Option (List Byte)) :
    Contained (itemName msg msg.length off name) := by
  cases name with
  | none => exact contained_ok _
  | some name => exact (sequenceOfLabels2name_contained name).map _

theorem itemName_read_iff {name : Option (List Byte)} :
    itemName msg msg.length off name = .error .read ↔
      ∃ nameBuf, name = some nameBuf ∧ NameLeaves msg off nameBuf.length := by
  cases name with
  | none =>
    refine iff_of_false (fun h => by cases h) ?_
    rintro ⟨nameBuf, h, -⟩
    cases h
  | some name =>
    rw [itemName, map_read, sequenceOfLabels2name_read_iff]
    constructor
    · exact fun h => ⟨name, rfl, h⟩
    · rintro ⟨nameBuf, h, hleaves⟩
      cases h
      exact hleaves

theorem SizedAt.lt {size : Nat} (h : SizedAt msg off size) : off < msg.length ∧ 0 < size := by
  obtain ⟨ls, b, k, -, hat, hend, rfl⟩ := h
  have hin := hat.length_le (by simp)
  rw [List.length_append, List.length_singleton] at hin
  cases hend <;> omega

theorem readBe16_contained (i : Nat) : Contained (readBe16 msg i) := by
  rw [readBe16]
  split
  · exact contained_ok _
  · exact contained_read

theorem readBytes_contained (i n : Nat) : Contained (readBytes msg i n) := by
  rw [readBytes]
  split
  · exact contained_ok _
  · exact contained_read

theorem questionGetData_contained (name : Option (List Byte)) :
    Contained (questionGetData msg msg.length off name) := by
  rw [questionGetData]
  split
  · exact contained_errno (by decide)
  split
  · exact contained_errno (by decide)
  refine itemNameSize_contained.bind fun size _ => ?_
  simp only
  split
  · exact contained_errno (by decide)
  · refine (readBe16_contained _).bind fun _ _ => (readBe16_contained _).bind fun _ _ => ?_
    exact (itemName_contained name).bind fun _ _ => contained_ok _

theorem rrGetData_contained (name : Option (List Byte)) :
    Contained (rrGetData msg msg.length off name) := by
  rw [rrGetData]
  split
  · exact contained_errno (by decide)
  split
  · exact contained_errno (by decide)
  refine itemNameSize_contained.bind fun size _ => (readBe16_contained _).bind fun _ _ => ?_
  simp only
  split
  · exact contained_errno (by decide)
  · refine (readBe16_contained _).bind fun _ _ => (readBe16_contained _).bind fun _ _ => ?_
    refine (readBytes_contained _ _).bind fun _ _ => ?_
    exact (itemName_contained name).bind fun _ _ => contained_ok _

theorem NamedLeaves.inside {k : Item} {name : Option (List Byte)} (h : NamedLeaves msg k off name) :
    hdrSize ≤ msg.length ∧ 0 < off ∧ off < msg.length := by
  rcases h with ⟨hhdr, hstart, ⟨hlt, -⟩ | ⟨-, size, hsize, -⟩⟩ | ⟨next, nameBuf, hitem, -⟩
  · exact ⟨hhdr, hstart, hlt⟩
  · exact ⟨hhdr, hstart, hsize.lt.1⟩
  · obtain ⟨size, hsize, -⟩ := hitem.whole
    exact ⟨hitem.header, hitem.start, hsize.lt.1⟩

theorem questionGetData_read_iff {name : Option (List Byte)} :
    questionGetData msg msg.length off name = .error .read ↔ NamedLeaves msg .question off name := by
  rw [questionGetData, guarded_read, bind_read, itemNameSize_read_iff]
  -- behind the check of the bounds only the name can lead out
  have hbody : ∀ size, off + (size + questionFixed) ≤ msg.length →
      ((do
        let type ← readBe16 msg (off + size)
        let cls ← readBe16 msg (off + size + 2)
        let name ← itemName msg msg.length off name
        return { name, type, cls, size := size + questionFixed } : Except Stop QuestionData) =
          .error .read ↔ itemName msg msg.length off name = .error .read) := by
    intro size hle
    unfold questionFixed at hle
    rw [readBe16_ok (by omega), readBe16_ok (by omega)]
    exact bind_pure_read _
  constructor
  · rintro ⟨hargs, hhdr, h | ⟨size, hsize, hread⟩⟩
    · exact .inl ⟨Nat.le_of_not_lt hhdr, by omega, .inl h⟩
    · simp only at hread
      split at hread
      · cases hread
      next hle =>
      rw [hbody size (Nat.le_of_not_lt hle), itemName_read_iff] at hread
      obtain ⟨nameBuf, hname, hleaves⟩ := hread
      rw [itemNameSize_ok_iff] at hsize
      refine .inr ⟨off + size + questionFixed, nameBuf, ⟨?_, ?_, ⟨size, hsize, rfl⟩, ?_⟩, hname,
        hleaves⟩ <;> omega
  · intro hleaves
    have hin := hleaves.inside
    refine ⟨by omega, Nat.not_lt_of_le hin.1, ?_⟩
    rcases hleaves with ⟨-, -, h | ⟨hk, -⟩⟩ |
      ⟨next, nameBuf, ⟨-, -, ⟨size, hsize, rfl⟩, hle⟩, hname, hleaves⟩
    · exact .inl h
    · cases hk
    · have hle' : off + (size + questionFixed) ≤ msg.length := by
        rw [← Nat.add_assoc]
        exact hle
      refine .inr ⟨size, itemNameSize_ok_iff.mpr hsize, ?_⟩
      simp only
      rw [if_neg (Nat.not_lt_of_le hle'), hbody size hle', itemName_read_iff]
      exact ⟨nameBuf, hname, hleaves⟩

/-- A resource record: the length of the data is read before the bounds are checked. -/
theorem rrGetData_read_iff {name : Option (List Byte)} :
    rrGetData msg msg.length off name = .error .read ↔ NamedLeaves msg .record off name := by
  rw [rrGetData, guarded_read, bind_read, itemNameSize_read_iff]
  have hbody : ∀ (size : Nat) (rdlength : BitVec 16),
      off + (size + rrFixed + rdlength.toNat) ≤ msg.length → ((do
        let type ← readBe16 msg (off + size)
        let cls ← readBe16 msg (off + size + 2)
        let _ ← readBytes msg (off + size + 4) 4
        let name ← itemName msg msg.length off name
        return {
          name, type, cls, size := size + rrFixed + rdlength.toNat
          ttl := if type = typeOpt then getLe32 msg (off + size + 4) else getBe32 msg (off + size + 4)
          data := (msg.drop (off + size + rrFixed)).take rdlength.toNat } : Except Stop RrData) =
          .error .read ↔ itemName msg msg.length off name = .error .read) := by
    intro size rdlength hle
    unfold rrFixed at hle
    rw [readBe16_ok (by omega), readBe16_ok (by omega), readBytes_ok (by omega)]
    exact bind_pure_read _
  constructor
  · rintro ⟨hargs, hhdr, h | ⟨size, hsize, hread⟩⟩
    · exact .inl ⟨Nat.le_of_not_lt hhdr, by omega, .inl h⟩
    · rw [itemNameSize_ok_iff] at hsize
      -- where the fixed part is inside, only the name behind the checks is left
      by_cases hfixed : off + size + rrFixed ≤ msg.length
      case neg =>
        exact .inl ⟨Nat.le_of_not_lt hhdr, by omega, .inr ⟨rfl, size, hsize, Nat.lt_of_not_le hfixed⟩⟩
      unfold rrFixed at hfixed
      simp only at hread
      rw [readBe16_ok (by omega)] at hread
      change (if msg.length < _ then _ else _) = _ at hread
      split at hread
      · cases hread
      next hle =>
      rw [hbody size _ (Nat.le_of_not_lt hle), itemName_read_iff] at hread
      obtain ⟨nameBuf, hname, hleaves⟩ := hread
      refine .inr ⟨_, nameBuf, ⟨Nat.le_of_not_lt hhdr, by omega, ⟨size, hsize, rfl⟩, ?_⟩, hname,
        hleaves⟩
      simp only [Item.fixedSize]
      omega
  · intro hleaves
    have hin := hleaves.inside
    refine ⟨by omega, Nat.not_lt_of_le hin.1, ?_⟩
    rcases hleaves with ⟨-, -, h | ⟨-, size, hsize, hcut⟩⟩ |
      ⟨next, nameBuf, ⟨-, -, ⟨size, hsize, rfl⟩, hle⟩, hname, hleaves⟩
    · exact .inl h
    · refine .inr ⟨size, itemNameSize_ok_iff.mpr hsize, ?_⟩
      unfold rrFixed at hcut
      simp only
      rw [readBe16, if_neg (by omega)]
      rfl
    · simp only [Item.fixedSize] at hle
      have hle' : off + (size + rrFixed + (getBe16 msg (off + size + 8)).toNat) ≤ msg.length := by
        omega
      refine .inr ⟨size, itemNameSize_ok_iff.mpr hsize, ?_⟩
      unfold rrFixed at hle
      simp only
      rw [readBe16_ok (by omega)]
      change (if msg.length < _ then _ else _) = _
      rw [if_neg (Nat.not_lt_of_le hle'), hbody size _ hle', itemName_read_iff]
      exact ⟨nameBuf, hname, hleaves⟩

/-! ## Messages -/

/-- `dns_msg_question_get_size` and `dns_msg_rr_get_size`. -/
def Item.getSize (msg : List Byte) (off : Nat) : Item → Except Stop Nat
  | .question => (questionGetData msg msg.length off none).map (·.size)
  | .record => (rrGetData msg msg.length off none).map (·.size)

/-- Item after item, from `off` on. -/
inductive ItemsRun (msg : List Byte) : List Item → Nat → Nat → Prop where
  | nil {off : Nat} : ItemsRun msg [] off off
  | cons {k : Item} {ks : List Item} {off next last : Nat} (item : ItemAt msg k off next)
      (rest : ItemsRun msg ks next last) : ItemsRun msg (k :: ks) off last

/-- One of the items, behind whole ones, leads out of the message. -/
inductive ItemsLeave (msg : List Byte) : List Item → Nat → Prop where
  | here {k : Item} {ks : List Item} {off : Nat} (leaves : ItemLeaves msg k off) :
      ItemsLeave msg (k :: ks) off
  | there {k : Item} {ks : List Item} {off next : Nat} (item : ItemAt msg k off next)
      (rest : ItemsLeave msg ks next) : ItemsLeave msg (k :: ks) off

variable {k : Item} {ks ks' : List Item} {last count : Nat}

theorem ItemAt.lt {next : Nat} (h : ItemAt msg k off next) : off < next := by
  obtain ⟨size, hsize, rfl⟩ := h.whole
  have := hsize.lt
  omega

theorem ItemsRun.le (h : ItemsRun msg ks off last) (hoff : off ≤ msg.length) :
    off ≤ last ∧ last ≤ msg.length := by
  induction h with
  | nil => exact ⟨Nat.le_refl _, hoff⟩
  | cons item _ ih =>
    have := ih item.le
    have := item.lt
    omega

theorem itemsLeave_append : ItemsLeave msg (ks ++ ks') off ↔
    ItemsLeave msg ks off ∨ ∃ next, ItemsRun msg ks off next ∧ ItemsLeave msg ks' next := by
  induction ks generalizing off with
  | nil =>
    constructor
    · exact fun h => .inr ⟨off, .nil, h⟩
    · rintro (h | ⟨next, hrun, h⟩)
      · cases h
      · cases hrun
        exact h
  | cons k ks ih =>
    constructor
    · rintro (hleaves | ⟨hitem, hrest⟩)
      · exact .inl (.here hleaves)
      · rcases ih.mp hrest with h | ⟨next, hrun, h⟩
        · exact .inl (.there hitem h)
        · exact .inr ⟨next, .cons hitem hrun, h⟩
    · rintro ((hleaves | ⟨hitem, hrest⟩) | ⟨next, hrun, h⟩)
      · exact .here hleaves
      · exact .there hitem (ih.mpr (.inl hrest))
      · cases hrun with
        | cons hitem hrun => exact .there hitem (ih.mpr (.inr ⟨next, hrun, h⟩))

theorem getSize_contained (k : Item) : Contained (k.getSize msg off) := by
  cases k with
  | question => exact (questionGetData_contained none).map _
  | record => exact (rrGetData_contained none).map _

theorem namedLeaves_none : NamedLeaves msg k off none ↔ ItemLeaves msg k off := by
  refine ⟨?_, .inl⟩
  rintro (h | ⟨next, nameBuf, -, h, -⟩)
  · exact h
  · cases h

theorem getSize_read_iff : k.getSize msg off = .error .read ↔ ItemLeaves msg k off := by
  cases k with
  | question => rw [Item.getSize, map_read, questionGetData_read_iff, namedLeaves_none]
  | record => rw [Item.getSize, map_read, rrGetData_read_iff, namedLeaves_none]

/-- An item whose size is found is inside. -/
theorem itemAt_of_getSize {n : Nat} (h : k.getSize msg off = .ok n) : ItemAt msg k off (off + n) := by
  cases k with
  | question =>
    obtain ⟨d, hd, rfl⟩ := map_ok h
    rw [questionGetData] at hd
    split at hd
    · cases hd
    next hargs =>
    split at hd
    · cases hd
    next hhdr =>
    obtain ⟨size, hsize, hd⟩ := bind_ok hd
    simp only at hd
    split at hd
    · cases hd
    next hle =>
    obtain ⟨type, -, hd⟩ := bind_ok hd
    obtain ⟨cls, -, hd⟩ := bind_ok hd
    obtain ⟨name, -, hd⟩ := bind_ok hd
    cases hd
    exact ⟨Nat.le_of_not_lt hhdr, by omega,
      ⟨size, itemNameSize_ok_iff.mp hsize, (Nat.add_assoc off size questionFixed).symm⟩,
      Nat.le_of_not_lt hle⟩
  | record =>
    obtain ⟨d, hd, rfl⟩ := map_ok h
    rw [rrGetData] at hd
    split at hd
    · cases hd
    next hargs =>
    split at hd
    · cases hd
    next hhdr =>
    obtain ⟨size, hsize, hd⟩ := bind_ok hd
    obtain ⟨rdlength, hlen, hd⟩ := bind_ok hd
    simp only at hd
    split at hd
    · cases hd
    next hle =>
    obtain ⟨type, -, hd⟩ := bind_ok hd
    obtain ⟨cls, -, hd⟩ := bind_ok hd
    obtain ⟨ttl, -, hd⟩ := bind_ok hd
    obtain ⟨name, -, hd⟩ := bind_ok hd
    cases hd
    rw [readBe16] at hlen
    split at hlen
    · cases hlen
      refine ⟨Nat.le_of_not_lt hhdr, by omega, ⟨size, itemNameSize_ok_iff.mp hsize, ?_⟩,
        Nat.le_of_not_lt hle⟩
      simp only [Item.fixedSize]
      omega
    · cases hlen

theorem getSize_of_itemAt {next : Nat} (h : ItemAt msg k off next) :
    k.getSize msg off = .ok (next - off) := by
  obtain ⟨hhdr, hstart, ⟨size, hsize, rfl⟩, hle⟩ := h
  have hlt := hsize.lt
  have hok := itemNameSize_ok_iff.mpr hsize
  cases k with
  | question =>
    simp only [Item.fixedSize, questionFixed] at hle
    have hdata : questionGetData msg msg.length off none = .ok {
        name := none, size := size + questionFixed, type := getBe16 msg (off + size)
        cls := getBe16 msg (off + size + 2) } := by
      rw [questionGetData, if_neg (by omega), if_neg (by omega), hok]
      change (if _ then _ else _) = _
      rw [if_neg (by simp only [questionFixed]; omega), readBe16_ok (by omega),
        readBe16_ok (by omega)]
      rfl
    rw [Item.getSize, hdata]
    simp only [Except.map, Item.fixedSize]
    congr 1
    omega
  | record =>
    simp only [Item.fixedSize, rrFixed] at hle
    have hdata : rrGetData msg msg.length off none = .ok {
        name := none, type := getBe16 msg (off + size), cls := getBe16 msg (off + size + 2)
        ttl := if getBe16 msg (off + size) = typeOpt then getLe32 msg (off + size + 4)
          else getBe32 msg (off + size + 4)
        data := (msg.drop (off + size + rrFixed)).take (getBe16 msg (off + size + 8)).toNat
        size := size + rrFixed + (getBe16 msg (off + size + 8)).toNat } := by
      rw [rrGetData, if_neg (by omega), if_neg (by omega), hok]
      change (readBe16 msg (off + size + 8) >>= _) = _
      rw [readBe16_ok (by omega)]
      change (if _ then _ else _) = _
      rw [if_neg (by simp only [rrFixed]; omega), readBe16_ok (by omega), readBe16_ok (by omega),
        readBytes_ok (by omega)]
      rfl
    rw [Item.getSize, hdata]
    simp only [Except.map, Item.fixedSize]
    congr 1
    omega

theorem skip_contained : Contained (skip (k.getSize msg ·) count off) := by
  induction count generalizing off with
  | zero => exact contained_ok _
  | succ count ih => exact (getSize_contained k).bind fun _ _ => ih

theorem skip_ok_iff : skip (k.getSize msg ·) count off = .ok last ↔
    ItemsRun msg (List.replicate count k) off last := by
  induction count generalizing off with
  | zero =>
    constructor
    · intro h
      cases h
      exact .nil
    · intro h
      cases h
      rfl
  | succ count ih =>
    rw [List.replicate_succ]
    constructor
    · intro h
      obtain ⟨n, hn, h⟩ := bind_ok h
      exact .cons (itemAt_of_getSize hn) (ih.mp h)
    · intro h
      cases h with
      | cons hitem hrest =>
        have hlt := hitem.lt
        rw [skip, getSize_of_itemAt hitem]
        change skip _ count (off + _) = _
        rw [Nat.add_sub_cancel' (Nat.le_of_lt hlt)]
        exact ih.mpr hrest

theorem skip_read_iff : skip (k.getSize msg ·) count off = .error .read ↔
    ItemsLeave msg (List.replicate count k) off := by
  induction count generalizing off with
  | zero =>
    refine iff_of_false (fun h => by cases h) fun h => ?_
    cases h
  | succ count ih =>
    rw [List.replicate_succ, skip, bind_read, getSize_read_iff]
    constructor
    · rintro (h | ⟨n, hn, h⟩)
      · exact .here h
      · exact .there (itemAt_of_getSize hn) (ih.mp h)
    · rintro (h | ⟨hitem, hrest⟩)
      · exact .inl h
      · refine .inr ⟨_, getSize_of_itemAt hitem, ih.mpr ?_⟩
        rw [Nat.add_sub_cancel' (Nat.le_of_lt hitem.lt)]
        exact hrest

/-- What the header says there is, section after section. -/
def items (msg : List Byte) : List Item :=
  List.replicate (getBe16 msg 4).toNat .question ++ (List.replicate (getBe16 msg 6).toNat .record ++
    (List.replicate (getBe16 msg 8).toNat .record ++ List.replicate (getBe16 msg 10).toNat .record))

theorem msgInfoGet_eq (hhdr : hdrSize ≤ msg.length) : msgInfoGet msg msg.length = (do
    let anOff ← skip (Item.question.getSize msg ·) (getBe16 msg 4).toNat hdrSize
    let nsOff ← skip (Item.record.getSize msg ·) (getBe16 msg 6).toNat anOff
    let arOff ← skip (Item.record.getSize msg ·) (getBe16 msg 8).toNat nsOff
    let msgSize ← skip (Item.record.getSize msg ·) (getBe16 msg 10).toNat arOff
    return {
      anOff, nsOff, arOff, msgSize
      qdOff := hdrSize
      rrCount := (getBe16 msg 6).toNat + (getBe16 msg 8).toNat + (getBe16 msg 10).toNat }) := by
  have hlen : 12 ≤ msg.length := hhdr
  rw [msgInfoGet, if_neg (Nat.not_lt_of_le hhdr)]
  simp only [readBe16_ok (show 4 + 2 ≤ msg.length by omega),
    readBe16_ok (show 6 + 2 ≤ msg.length by omega), readBe16_ok (show 8 + 2 ≤ msg.length by omega),
    readBe16_ok (show 10 + 2 ≤ msg.length by omega)]
  rfl

theorem msgInfoGet_contained : Contained (msgInfoGet msg msg.length) := by
  by_cases hhdr : hdrSize ≤ msg.length
  · rw [msgInfoGet_eq hhdr]
    refine skip_contained.bind fun _ _ => skip_contained.bind fun _ _ => ?_
    exact skip_contained.bind fun _ _ => skip_contained.bind fun _ _ => contained_ok _
  · rw [msgInfoGet, if_pos (Nat.lt_of_not_le hhdr)]
    exact contained_errno (by decide)

theorem msgInfoGet_read_iff : msgInfoGet msg msg.length = .error .read ↔
    hdrSize ≤ msg.length ∧ ItemsLeave msg (items msg) hdrSize := by
  by_cases hhdr : hdrSize ≤ msg.length
  case neg =>
    rw [msgInfoGet, if_pos (Nat.lt_of_not_le hhdr)]
    exact iff_of_false (fun h => by cases h) fun h => hhdr h.1
  rw [msgInfoGet_eq hhdr, items]
  have hend : ∀ info : MsgInfo, ¬ (pure info : Except Stop MsgInfo) = .error .read :=
    fun _ h => by cases h
  simp only [bind_read, skip_read_iff, skip_ok_iff, itemsLeave_append, hend, and_false, exists_false,
    or_false]
  exact ⟨fun h => ⟨hhdr, h⟩, fun h => h.2⟩

theorem msgInfoGet_order {info : MsgInfo} (h : msgInfoGet msg msg.length = .ok info) :
    hdrSize ≤ info.anOff ∧ info.anOff ≤ info.nsOff ∧ info.nsOff ≤ info.arOff ∧
      info.arOff ≤ info.msgSize ∧ info.msgSize ≤ msg.length := by
  by_cases hhdr : hdrSize ≤ msg.length
  case neg =>
    rw [msgInfoGet, if_pos (Nat.lt_of_not_le hhdr)] at h
    cases h
  rw [msgInfoGet_eq hhdr] at h
  obtain ⟨anOff, han, h⟩ := bind_ok h
  obtain ⟨nsOff, hns, h⟩ := bind_ok h
  obtain ⟨arOff, har, h⟩ := bind_ok h
  obtain ⟨msgSize, hmsg, h⟩ := bind_ok h
  cases h
  have h1 := (skip_ok_iff.mp han).le hhdr
  have h2 := (skip_ok_iff.mp hns).le h1.2
  have h3 := (skip_ok_iff.mp har).le h2.2
  have h4 := (skip_ok_iff.mp hmsg).le h3.2
  exact ⟨h1.1, h2.1, h3.1, h4.1, h4.2⟩

/-- Every reader of the message returns, reads only the message and writes only the name buffer, and
the offsets that are found are in order. -/
structure ParsesSafely (msg : List Byte) (offset : Nat) (name : List Byte)
    (itemBuf : Option (List Byte)) : Prop where
  name : Safe (sequenceOfLabels2name msg msg.length offset name)
  size : Safe (sequenceOfLabelsGetSize msg offset (msg.length - offset))
  question : Safe (questionGetData msg msg.length offset itemBuf)
  record : Safe (rrGetData msg msg.length offset itemBuf)
  info : Safe (msgInfoGet msg msg.length)
  order : ∀ info, msgInfoGet msg msg.length = .ok info → hdrSize ≤ info.anOff ∧
    info.anOff ≤ info.nsOff ∧ info.nsOff ≤ info.arOff ∧ info.arOff ≤ info.msgSize ∧
    info.msgSize ≤ msg.length

/-- Nothing leads out of the message: neither the name at `offset` nor the item there, nor one of the
items the header counts. -/
structure LeadsInside (msg : List Byte) (offset : Nat) (name : List Byte)
    (itemBuf : Option (List Byte)) : Prop where
  name : ¬ NameLeaves msg offset name.length
  size : ¬ Unended msg offset
  question : ¬ NamedLeaves msg .question offset itemBuf
  record : ¬ NamedLeaves msg .record offset itemBuf
  info : ¬ (hdrSize ≤ msg.length ∧ ItemsLeave msg (items msg) hdrSize)

/-- Parsing is safe exactly where nothing leads out of the message. -/
theorem parsesSafely_iff (msg : List Byte) (offset : Nat) (name : List Byte)
    (itemBuf : Option (List Byte)) :
    ParsesSafely msg offset name itemBuf ↔ LeadsInside msg offset name itemBuf := by
  have hname := (@sequenceOfLabels2name_contained msg offset name).safe_iff_inside
  have hsize := (@sequenceOfLabelsGetSize_contained msg offset (msg.length - offset)).safe_iff_inside
  have hquestion := (@questionGetData_contained msg offset itemBuf).safe_iff_inside
  have hrecord := (@rrGetData_contained msg offset itemBuf).safe_iff_inside
  have hinfo := (@msgInfoGet_contained msg).safe_iff_inside
  rw [Ne, sequenceOfLabels2name_read_iff] at hname
  rw [Ne, sequenceOfLabelsGetSize_read_iff] at hsize
  rw [Ne, questionGetData_read_iff] at hquestion
  rw [Ne, rrGetData_read_iff] at hrecord
  rw [Ne, msgInfoGet_read_iff] at hinfo
  constructor
  · intro h
    exact ⟨hname.mp h.name, hsize.mp h.size, hquestion.mp h.question, hrecord.mp h.record,
      hinfo.mp h.info⟩
  · intro h
    exact ⟨hname.mpr h.name, hsize.mpr h.size, hquestion.mpr h.question, hrecord.mpr h.record,
      hinfo.mpr h.info, fun _ => msgInfoGet_order⟩

/-- A message with one question whose name has a label of one byte and no end: every reader goes on
behind its 14 bytes. -/
theorem not_parsesSafely_unended :
    ¬ ParsesSafely [0#8, 0#8, 0#8, 0#8, 0#8, 1#8, 0#8, 0#8, 0#8, 0#8, 0#8, 0#8, 1#8, 0x61#8] 12
      (List.replicate 16 0#8) none := by
  intro h
  have hread : msgInfoGet [0#8, 0#8, 0#8, 0#8, 0#8, 1#8, 0#8, 0#8, 0#8, 0#8, 0#8, 0#8, 1#8, 0x61#8]
      14 = .error .read := by decide +kernel
  exact h.info.read hread

end Dns.Read
