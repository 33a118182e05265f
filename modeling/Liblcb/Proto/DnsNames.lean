import Liblcb.Proto.Dns

/-!
# Names of DNS messages

A domain name is the list of its labels.  Its text has a dot between the labels, and its sequence of
labels has the length before each of them and an empty label at the end; the root name has no
labels.
-/

namespace Dns

open Mem Wire Buffer

/-- A domain name. -/
structure DomainName where
  labels : List (List Byte)
  valid : ∀ l ∈ labels, 0 < l.length ∧ l.length ≤ 63 ∧ dot ∉ l
  deriving DecidableEq

namespace DomainName

/-- The name as the callers write it. -/
def text (name : DomainName) : List Byte := [dot].intercalate name.labels

/-- The name as a message holds it. -/
def bytes (name : DomainName) : List Byte :=
  name.labels.flatMap (fun l => BitVec.ofNat 8 l.length :: l) ++ [0]

end DomainName

def root : DomainName := { labels := [], valid := fun _ h => absurd h List.not_mem_nil }

/-! ## Texts -/

/-- The labels with a dot behind each. -/
def dotted (ls : List (List Byte)) : List Byte := ls.flatMap (· ++ [dot])

theorem dotted_eq : ∀ (l : List Byte) (ls : List (List Byte)),
    dotted (l :: ls) = [dot].intercalate (l :: ls) ++ [dot]
  | l, [] => by simp [dotted]
  | l, l' :: ls => by
    have ih := dotted_eq l' ls
    rw [dotted, List.flatMap_cons, ← dotted, ih, List.intercalate_cons_cons]
    simp only [List.append_assoc]

theorem dotted_cons (l : List Byte) (ls : List (List Byte)) :
    (dotted (l :: ls)).length = l.length + 1 + (dotted ls).length := by
  rw [dotted, List.flatMap_cons, ← dotted, List.length_append, List.length_append,
    List.length_singleton]

theorem length_le_dotted (ls : List (List Byte)) : ls.length ≤ (dotted ls).length := by
  induction ls with
  | nil => exact Nat.le_refl 0
  | cons l ls ih =>
    rw [dotted_cons, List.length_cons]
    omega

theorem dropLast_dotted (name : DomainName) : (dotted name.labels).dropLast = name.text := by
  unfold DomainName.text
  cases name.labels with
  | nil => rfl
  | cons l ls => rw [dotted_eq, List.dropLast_concat]

theorem length_bytes (ls : List (List Byte)) :
    (ls.flatMap (fun l => BitVec.ofNat 8 l.length :: l)).length = (dotted ls).length := by
  induction ls with
  | nil => rfl
  | cons l ls ih =>
    rw [dotted, List.flatMap_cons, List.flatMap_cons, ← dotted, List.length_append,
      List.length_append, ih, List.length_append, List.length_cons, List.length_singleton]

theorem DomainName.length_bytes (name : DomainName) :
    name.bytes.length = if name.text.length = 0 then 1 else name.text.length + 2 := by
  rw [bytes, List.length_append, Dns.length_bytes, List.length_singleton, text]
  cases hls : name.labels with
  | nil => rfl
  | cons l ls =>
    have hpos : 0 < l.length := (name.valid l (hls ▸ List.mem_cons_self)).1
    have hne : ([dot].intercalate (l :: ls)).length ≠ 0 := by
      cases ls with
      | nil =>
        rw [List.intercalate_singleton]
        omega
      | cons l' ls =>
        rw [List.intercalate_cons_cons, List.length_append, List.length_append]
        omega
    rw [if_neg hne, dotted_eq, List.length_append, List.length_singleton]

theorem DomainName.length_dotted_le (name : DomainName) :
    (dotted name.labels).length ≤ name.text.length + 1 := by
  rw [← dropLast_dotted, List.length_dropLast]
  omega

theorem DomainName.text_eq_nil {name : DomainName} :
    name.text.length = 0 ↔ name.labels = [] := by
  constructor
  · intro h
    have hlen := name.length_bytes
    rw [if_pos h, bytes, List.length_append, List.length_singleton, Nat.add_eq_right] at hlen
    cases hls : name.labels with
    | nil => rfl
    | cons l ls =>
      rw [hls, List.flatMap_cons, List.length_append, List.length_cons] at hlen
      omega
  · intro h
    rw [text, h]
    rfl

/-! ## The writer -/

theorem label_len {n : Nat} (h : n ≤ 63) : BitVec.ofNat 8 n &&& labelCtrlMask = 0x00#8 ∧
    (BitVec.ofNat 8 n &&& labelDataMask).toNat = n := by
  have hall : ∀ n : Fin 64, BitVec.ofNat 8 n.val &&& labelCtrlMask = 0x00#8 ∧
      (BitVec.ofNat 8 n.val &&& labelDataMask).toNat = n.val := by decide
  exact hall ⟨n, by omega⟩

theorem labelLoop_last (post pre : List Byte) (x : Byte) {l : List Byte} (hdot : dot ∉ l)
    (fuel : Nat) : labelLoop (pre.length + 1 + l.length + 1) (fuel + 1)
        (pre ++ x :: (l ++ 0 :: post)) pre.length (pre.length + 1) =
      if l.length = 0 ∨ 63 < l.length then .error .einval
      else .ok (pre ++ (BitVec.ofNat 8 l.length :: l ++ 0 :: post)) := by
  have htake : (pre ++ x :: (l ++ 0 :: post)).take (pre.length + 1 + l.length + 1) =
      pre ++ x :: (l ++ [0]) := by
    rw [show pre.length + 1 + l.length + 1 = (pre ++ x :: (l ++ [0])).length by simp; omega,
      show pre ++ x :: (l ++ 0 :: post) = (pre ++ x :: (l ++ [0])) ++ post by simp]
    exact List.take_left
  have hnone : memChrOff (pre.length + 1) (pre ++ x :: (l ++ [0])) dot = none := by
    rw [memChrOff, Option.map_eq_none_iff, List.idxOf?_eq_none_iff]
    rw [show pre ++ x :: (l ++ [0]) = (pre ++ [x]) ++ (l ++ [0]) by simp,
      show pre.length + 1 = (pre ++ [x]).length by simp, List.drop_left, List.mem_append]
    rintro (hmem | hmem)
    · exact hdot hmem
    · exact absurd (List.mem_singleton.mp hmem) (by decide)
  rw [labelLoop, htake, hnone]
  simp only
  rw [show pre.length + 1 + l.length + 1 - pre.length - 2 = l.length by omega,
    List.set_append_right _ _ (by omega), Nat.sub_self, List.set_cons_zero]
  rfl

theorem labelLoop_next (post pre : List Byte) (x : Byte) {l : List Byte} (hdot : dot ∉ l)
    (text : List Byte) (fuel : Nat) :
    labelLoop (pre.length + 1 + (l ++ [dot] ++ text).length + 1) (fuel + 1)
        (pre ++ x :: (l ++ [dot] ++ text ++ 0 :: post)) pre.length (pre.length + 1) =
      if l.length = 0 ∨ 63 < l.length then .error .einval
      else labelLoop ((pre ++ BitVec.ofNat 8 l.length :: l).length + 1 + text.length + 1) fuel
        ((pre ++ BitVec.ofNat 8 l.length :: l) ++ dot :: (text ++ 0 :: post))
        (pre ++ BitVec.ofNat 8 l.length :: l).length
        ((pre ++ BitVec.ofNat 8 l.length :: l).length + 1) := by
  have htake : (pre ++ x :: (l ++ [dot] ++ text ++ 0 :: post)).take
      (pre.length + 1 + (l ++ [dot] ++ text).length + 1) =
      (pre ++ [x]) ++ (l ++ dot :: (text ++ [0])) := by
    rw [show pre.length + 1 + (l ++ [dot] ++ text).length + 1 =
      ((pre ++ [x]) ++ (l ++ dot :: (text ++ [0]))).length by simp; omega]
    rw [show pre ++ x :: (l ++ [dot] ++ text ++ 0 :: post) =
      ((pre ++ [x]) ++ (l ++ dot :: (text ++ [0]))) ++ post by simp]
    exact List.take_left
  have hsome : memChrOff (pre.length + 1) ((pre ++ [x]) ++ (l ++ dot :: (text ++ [0]))) dot =
      some (pre.length + 1 + l.length) := memChrOff_append (by simp) hdot
  have hpre : (pre ++ BitVec.ofNat 8 l.length :: l).length = pre.length + 1 + l.length := by
    rw [List.length_append, List.length_cons]
    omega
  have hsize : pre.length + 1 + (l ++ [dot] ++ text).length + 1 =
      pre.length + 1 + l.length + 1 + text.length + 1 := by simp; omega
  have hbuf : pre ++ BitVec.ofNat 8 l.length :: (l ++ [dot] ++ text ++ 0 :: post) =
      pre ++ BitVec.ofNat 8 l.length :: l ++ dot :: (text ++ 0 :: post) := by simp
  rw [labelLoop, htake, hsome]
  simp only
  rw [show pre.length + 1 + l.length - pre.length - 1 = l.length by omega,
    List.set_append_right _ _ (by omega), Nat.sub_self, List.set_cons_zero, hpre, hsize, hbuf]

theorem labelLoop_eq (post : List Byte) : ∀ (ls : List (List Byte)) (l pre : List Byte) (x : Byte)
    (fuel : Nat), (∀ l' ∈ l :: ls, 0 < l'.length ∧ l'.length ≤ 63 ∧ dot ∉ l') →
    ls.length < fuel →
    labelLoop (pre.length + 1 + ([dot].intercalate (l :: ls)).length + 1) fuel
        (pre ++ x :: ([dot].intercalate (l :: ls) ++ 0 :: post)) pre.length (pre.length + 1) =
      .ok (pre ++ ((l :: ls).flatMap (fun l => BitVec.ofNat 8 l.length :: l) ++ 0 :: post))
  | [], l, pre, x, fuel, hval, hfuel => by
    rcases Nat.exists_eq_add_of_lt hfuel with ⟨k, rfl⟩
    have hl := hval l List.mem_cons_self
    rw [List.intercalate_singleton, labelLoop_last post pre x hl.2.2, if_neg (by omega)]
    simp
  | l' :: ls, l, pre, x, fuel, hval, hfuel => by
    rcases Nat.exists_eq_add_of_lt hfuel with ⟨k, rfl⟩
    have hl := hval l List.mem_cons_self
    have ih := labelLoop_eq post ls l' (pre ++ BitVec.ofNat 8 l.length :: l) dot
      ((l' :: ls).length + k) (fun m hm => hval m (List.mem_cons_of_mem l hm))
      (by rw [List.length_cons]; omega)
    rw [List.intercalate_cons_cons, labelLoop_next post pre x hl.2.2, if_neg (by omega), ih]
    simp

theorem labelLoop_error (post : List Byte) : ∀ (ls : List (List Byte)) (l pre : List Byte)
    (x : Byte) (fuel : Nat), (∀ l' ∈ l :: ls, dot ∉ l') →
    (∃ l' ∈ l :: ls, l'.length = 0 ∨ 63 < l'.length) → ls.length < fuel →
    labelLoop (pre.length + 1 + ([dot].intercalate (l :: ls)).length + 1) fuel
        (pre ++ x :: ([dot].intercalate (l :: ls) ++ 0 :: post)) pre.length (pre.length + 1) =
      .error .einval
  | [], l, pre, x, fuel, hdot, hbad, hfuel => by
    rcases Nat.exists_eq_add_of_lt hfuel with ⟨k, rfl⟩
    obtain ⟨l', hl', hbad⟩ := hbad
    rw [List.mem_singleton.mp hl'] at hbad
    rw [List.intercalate_singleton, labelLoop_last post pre x (hdot l List.mem_cons_self),
      if_pos hbad]
  | l' :: ls, l, pre, x, fuel, hdot, hbad, hfuel => by
    rcases Nat.exists_eq_add_of_lt hfuel with ⟨k, rfl⟩
    rw [List.intercalate_cons_cons, labelLoop_next post pre x (hdot l List.mem_cons_self)]
    split
    · rfl
    · next hgood =>
      have hrest : ∃ m ∈ l' :: ls, m.length = 0 ∨ 63 < m.length := by
        obtain ⟨m, hm, hbad⟩ := hbad
        rcases List.mem_cons.mp hm with rfl | hm
        · exact absurd hbad hgood
        · exact ⟨m, hm, hbad⟩
      exact labelLoop_error post ls l' (pre ++ BitVec.ofNat 8 l.length :: l) dot
        ((l' :: ls).length + k) (fun m hm => hdot m (List.mem_cons_of_mem l hm)) hrest
        (by rw [List.length_cons]; omega)

theorem domainNameToSequenceOfLabels_loop {text buf : List Byte} (hne : text.length ≠ 0)
    (hroom : text.length + 2 ≤ buf.length) : domainNameToSequenceOfLabels text buf =
      (labelLoop (text.length + 2) (text.length + 1)
        (buf.headD 0 :: (text ++ 0 :: buf.drop (text.length + 2))) 0 1).map
          fun buf => (buf, text.length + 2) := by
  -- the first byte is left for the length of the first label
  have hcopy : splice (splice buf 1 text) (text.length + 1) [0] =
      (buf.headD 0) :: (text ++ 0 :: buf.drop (text.length + 2)) := by
    rw [show text.length + 1 = 1 + text.length by omega,
      splice_splice (by omega), splice, List.length_append, List.length_singleton]
    cases buf with
    | nil =>
      rw [List.length_nil] at hroom
      omega
    | cons b buf =>
      rw [show 1 + (text.length + 1) = text.length + 2 by omega]
      simp
  rw [domainNameToSequenceOfLabels]
  simp only
  rw [if_neg hne, if_neg (by omega), if_neg hne, hcopy]
  rfl

theorem length_le_intercalate : ∀ (l : List Byte) (ls : List (List Byte)),
    ls.length ≤ ([dot].intercalate (l :: ls)).length
  | _, [] => Nat.zero_le _
  | l, l' :: ls => by
    have ih := length_le_intercalate l' ls
    rw [List.intercalate_cons_cons, List.length_append, List.length_append,
      List.length_singleton, List.length_cons]
    omega

theorem domainNameToSequenceOfLabels_error {l : List Byte} {ls : List (List Byte)} {buf : List Byte}
    (hdot : ∀ l' ∈ l :: ls, dot ∉ l') (hbad : ∃ l' ∈ l :: ls, l'.length = 0 ∨ 63 < l'.length)
    (hne : ([dot].intercalate (l :: ls)).length ≠ 0)
    (hroom : ([dot].intercalate (l :: ls)).length + 2 ≤ buf.length) :
    domainNameToSequenceOfLabels ([dot].intercalate (l :: ls)) buf = .error .einval := by
  have hloop := labelLoop_error (buf.drop (([dot].intercalate (l :: ls)).length + 2)) ls l []
    (buf.headD 0) (([dot].intercalate (l :: ls)).length + 1) hdot hbad
    (Nat.lt_succ_of_le (length_le_intercalate l ls))
  rw [List.nil_append, List.length_nil, Nat.zero_add,
    show 1 + ([dot].intercalate (l :: ls)).length + 1 =
      ([dot].intercalate (l :: ls)).length + 2 by omega] at hloop
  rw [domainNameToSequenceOfLabels_loop hne hroom, hloop]
  rfl

theorem domainNameToSequenceOfLabels_eq (name : DomainName) {buf : List Byte}
    (hroom : name.bytes.length ≤ buf.length) :
    domainNameToSequenceOfLabels name.text buf =
      .ok (splice buf 0 name.bytes, name.bytes.length) := by
  have hlen := name.length_bytes
  cases hls : name.labels with
  | nil =>
    have hnil := DomainName.text_eq_nil.mpr hls
    rw [domainNameToSequenceOfLabels]
    simp only
    rw [← hlen, if_neg (by omega), if_pos hnil, DomainName.bytes, hls]
    rfl
  | cons l ls =>
    have hne : ¬ name.text.length = 0 := by
      rw [DomainName.text_eq_nil, hls]
      exact List.cons_ne_nil l ls
    rw [if_neg hne] at hlen
    have hfuel : ls.length < name.text.length + 1 := by
      rw [DomainName.text, hls]
      exact Nat.lt_succ_of_le (length_le_intercalate l ls)
    have hloop := labelLoop_eq (buf.drop (name.text.length + 2)) ls l [] (buf.headD 0)
      (name.text.length + 1) (fun l' hl' => name.valid l' (hls ▸ hl')) hfuel
    rw [List.nil_append, List.nil_append, List.length_nil, ← hls, ← DomainName.text,
      show 0 + 1 + name.text.length + 1 = name.text.length + 2 by omega] at hloop
    rw [domainNameToSequenceOfLabels_loop hne (hlen ▸ hroom), hloop, hlen, splice, List.take_zero,
      List.nil_append, hlen, DomainName.bytes,
      show 0 + (name.text.length + 2) = name.text.length + 2 by omega]
    simp [Except.map]

/-! ## The readers -/

theorem labelsSizeLoop_eq (buf : List Byte) (off bufSize : Nat) : ∀ (ls : List (List Byte))
    (cur fuel : Nat), (∀ l ∈ ls, 0 < l.length ∧ l.length ≤ 63) →
    At buf (off + cur) (ls.flatMap (fun l => BitVec.ofNat 8 l.length :: l) ++ [0]) →
    cur + (dotted ls).length < bufSize → ls.length < fuel →
    labelsSizeLoop buf off bufSize fuel cur = .ok (cur + (dotted ls).length + 1)
  | [], cur, fuel, _, hat, hsize, hfuel => by
    rcases Nat.exists_eq_add_of_lt hfuel with ⟨k, rfl⟩
    rw [dotted, List.flatMap_nil, List.length_nil] at hsize
    have hbyte : byteAt buf (off + cur) = 0#8 := At.byteAt_eq hat
    rw [labelsSizeLoop, hbyte]
    simp only
    rw [if_pos (by decide), show (0#8 &&& labelDataMask).toNat = 0 by decide, if_neg (by omega),
      if_pos rfl]
    rfl
  | l :: ls, cur, fuel, hval, hat, hsize, hfuel => by
    rcases Nat.exists_eq_add_of_lt hfuel with ⟨k, rfl⟩
    have hl := hval l List.mem_cons_self
    rw [List.flatMap_cons, List.append_assoc, List.cons_append] at hat
    -- the length of the label, and the labels behind it
    have hbyte : byteAt buf (off + cur) = BitVec.ofNat 8 l.length := At.byteAt_eq hat
    have hrest := (At.append_iff.mp (At.cons_iff.mp hat).2).2
    have hdotted := dotted_cons l ls
    have ih := labelsSizeLoop_eq buf off bufSize ls (cur + 1 + l.length) (ls.length + 1 + k)
      (fun m hm => hval m (List.mem_cons_of_mem l hm))
      (by rwa [show off + (cur + 1 + l.length) = off + cur + 1 + l.length by omega])
      (by omega) (by omega)
    rw [List.length_cons, labelsSizeLoop, hbyte]
    simp only
    rw [if_pos (label_len hl.2).1, (label_len hl.2).2, if_neg (by omega), if_neg (by omega), ih,
      hdotted]
    congr 1
    omega

theorem sequenceOfLabelsGetSize_eq {buf : List Byte} {off bufSize : Nat} (name : DomainName)
    (hat : At buf off name.bytes) (hsize : name.bytes.length ≤ bufSize) :
    sequenceOfLabelsGetSize buf off bufSize = .ok name.bytes.length := by
  have hlen : name.bytes.length = (dotted name.labels).length + 1 := by
    rw [DomainName.bytes, List.length_append, length_bytes, List.length_singleton]
  have hfuel := length_le_dotted name.labels
  have hloop := labelsSizeLoop_eq buf off bufSize name.labels 0 (bufSize + 1)
    (fun l hl => ⟨(name.valid l hl).1, (name.valid l hl).2.1⟩) hat (by omega) (by omega)
  rw [sequenceOfLabelsGetSize, if_neg (by omega), hloop, hlen, Nat.zero_add]

theorem labels2nameLoop_eq (buf : List Byte) (msgSize maxPos nameBufSize : Nat) :
    ∀ (ls : List (List Byte)) (cur fuel : Nat) (name : List Byte),
    (∀ l ∈ ls, 0 < l.length ∧ l.length ≤ 63) →
    At buf cur (ls.flatMap (fun l => BitVec.ofNat 8 l.length :: l) ++ [0]) →
    cur + (dotted ls).length < maxPos → name.length + (dotted ls).length < nameBufSize →
    ls.length < fuel →
    labels2nameLoop buf msgSize maxPos nameBufSize fuel 0 cur name =
      .ok (name ++ dotted ls).dropLast
  | [], cur, fuel, name, _, hat, hpos, _, hfuel => by
    rcases Nat.exists_eq_add_of_lt hfuel with ⟨k, rfl⟩
    rw [dotted, List.flatMap_nil, List.length_nil] at hpos
    have hbyte : byteAt buf cur = 0#8 := At.byteAt_eq hat
    rw [labels2nameLoop, if_neg (by decide), hbyte]
    simp only
    rw [if_neg (by decide), if_neg (by decide), show (0#8 &&& labelDataMask).toNat = 0 by decide,
      if_neg (by omega), if_pos rfl, dotted, List.flatMap_nil, List.append_nil]
  | l :: ls, cur, fuel, name, hval, hat, hpos, hbuf, hfuel => by
    rcases Nat.exists_eq_add_of_lt hfuel with ⟨k, rfl⟩
    have hl := hval l List.mem_cons_self
    rw [List.flatMap_cons, List.append_assoc, List.cons_append] at hat
    have hbyte : byteAt buf cur = BitVec.ofNat 8 l.length := At.byteAt_eq hat
    rcases At.append_iff.mp (At.cons_iff.mp hat).2 with ⟨hlabel, hrest⟩
    have hdotted := dotted_cons l ls
    have ih := labels2nameLoop_eq buf msgSize maxPos nameBufSize ls (cur + 1 + l.length)
      (ls.length + 1 + k) (name ++ l ++ [dot]) (fun m hm => hval m (List.mem_cons_of_mem l hm)) hrest
      (by omega) (by
        rw [List.length_append, List.length_append, List.length_singleton]
        omega) (by omega)
    have hctrl := (label_len hl.2).1
    rw [List.length_cons, labels2nameLoop, if_neg (by decide), hbyte]
    simp only
    rw [hctrl, if_neg (by decide), if_neg (by simp), (label_len hl.2).2, if_neg (by omega),
      if_neg (by omega), if_neg (by omega), show (buf.drop (cur + 1)).take l.length = l from hlabel,
      ih, dotted, dotted, List.flatMap_cons]
    simp only [List.append_assoc]

theorem sequenceOfLabels2name_eq {buf : List Byte} {msgSize off nameBufSize : Nat}
    (name : DomainName) (hat : At buf off name.bytes) (hoff : hdrSize ≤ off)
    (hsize : off + name.bytes.length ≤ msgSize) (hbuf : name.text.length + 1 < nameBufSize) :
    sequenceOfLabels2name buf msgSize off nameBufSize = .ok name.text := by
  have hlen : name.bytes.length = (dotted name.labels).length + 1 := by
    rw [DomainName.bytes, List.length_append, length_bytes, List.length_singleton]
  have hdotted := name.length_dotted_le
  have hfuel := length_le_dotted name.labels
  have hloop := labels2nameLoop_eq buf msgSize (off + msgSize) nameBufSize name.labels off (nameBufSize + maxNameCycles + 1) []
    (fun l hl => ⟨(name.valid l hl).1, (name.valid l hl).2.1⟩) hat (by omega)
    (by rw [List.length_nil]; omega) (by omega)
  rw [sequenceOfLabels2name, if_neg (by omega), if_neg (by omega), hloop, List.nil_append,
    dropLast_dotted]

end Dns
