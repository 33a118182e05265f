import Liblcb.Proto.DnsNames

/-!
# What a written DNS message reads as

A message is written record after record, each at the size the call before has returned.
-/

namespace Dns

open Mem Wire Buffer

structure Question where
  name : DomainName
  type : BitVec 16
  cls : BitVec 16
  deriving DecidableEq

/-- A resource record that is no OPT record. -/
structure Record where
  name : DomainName
  type : BitVec 16
  cls : BitVec 16
  ttl : BitVec 32
  data : List Byte
  not_opt : type ≠ typeOpt
  data_size : data.length < 2 ^ 16
  deriving DecidableEq

/-- Items written one after another with `add`: the buffer, the message size and the sizes they were
written at. -/
def addAll {α : Type} (add : List Byte → Nat → α → Except Errno (List Byte × Nat)) :
    List α → List Byte → Nat → Except Errno (List Byte × Nat × List Nat)
  | [], buf, size => .ok (buf, size, [])
  | x :: xs, buf, size => do
    let (buf, next) ← add buf size x
    let (buf, last, offs) ← addAll add xs buf next
    return (buf, last, size :: offs)

/-- Items read one after another with `get`: each with the offset it was read at, and the offset
behind the last. -/
def readAll {α : Type} (get : Nat → Except Errno (α × Nat)) :
    Nat → Nat → Except Errno (List (Nat × α) × Nat)
  | 0, offset => .ok ([], offset)
  | count + 1, offset => do
    let (x, size) ← get offset
    let (xs, last) ← readAll get count (offset + size)
    return ((offset, x) :: xs, last)

def addQuestion (buf : List Byte) (msgSize : Nat) (q : Question) : Except Errno (List Byte × Nat) :=
  questionAdd buf msgSize false q.name.text q.type q.cls

def addRecord (buf : List Byte) (msgSize : Nat) (r : Record) : Except Errno (List Byte × Nat) :=
  rrAdd buf msgSize false r.name.text r.type r.cls r.ttl r.data

structure Sections where
  qd : List Question
  an : List Record
  ns : List Record
  ar : List Record

structure Written where
  buf : List Byte
  /-- the message sizes the items were written at -/
  qdOffs : List Nat
  anOffs : List Nat
  nsOffs : List Nat
  arOffs : List Nat
  anOff : Nat
  nsOff : Nat
  arOff : Nat
  msgSize : Nat

/-- The whole message, with the counts of the records in the header. -/
def writeMsg (id flags : BitVec 16) (buf : List Byte) (s : Sections) : Except Errno Written := do
  let (buf, size) ← hdrCreate id flags buf
  let (buf, anOff, qdOffs) ← addAll addQuestion s.qd buf size
  let (buf, nsOff, anOffs) ← addAll addRecord s.an buf anOff
  let (buf, arOff, nsOffs) ← addAll addRecord s.ns buf nsOff
  let (buf, msgSize, arOffs) ← addAll addRecord s.ar buf arOff
  let buf := hdrAnSet buf (BitVec.ofNat 16 s.an.length)
  let buf := hdrNsSet buf (BitVec.ofNat 16 s.ns.length)
  let buf := hdrArSet buf (BitVec.ofNat 16 s.ar.length)
  return { buf, qdOffs, anOffs, nsOffs, arOffs, anOff, nsOff, arOff, msgSize }

/-- A question with its size, with a name buffer of `nameBuf` bytes. -/
def readQuestion (buf : List Byte) (msgSize nameBuf offset : Nat) :
    Except Errno ((Option (List Byte) × BitVec 16 × BitVec 16) × Nat) := do
  let q ← questionGetData buf msgSize offset (some nameBuf)
  return ((q.name, q.type, q.cls), q.size)

def readRecord (buf : List Byte) (msgSize nameBuf offset : Nat) :
    Except Errno ((Option (List Byte) × BitVec 16 × BitVec 16 × BitVec 32 × List Byte) × Nat) := do
  let r ← rrGetData buf msgSize offset (some nameBuf)
  return ((r.name, r.type, r.cls, r.ttl, r.data), r.size)

def Question.data (q : Question) : Option (List Byte) × BitVec 16 × BitVec 16 :=
  (some q.name.text, q.type, q.cls)

def Record.fields (r : Record) :
    Option (List Byte) × BitVec 16 × BitVec 16 × BitVec 32 × List Byte :=
  (some r.name.text, r.type, r.cls, r.ttl, r.data)

/-- `dns_msg_info_get` finds the sections and the size of the message as they were written, and the
records read at successive offsets are the written ones, at the offsets they were written at. -/
structure ReadsBack (w : Written) (s : Sections) (nameBuf : Nat) : Prop where
  info : msgInfoGet w.buf w.msgSize = .ok {
    qdOff := hdrSize
    anOff := w.anOff
    nsOff := w.nsOff
    arOff := w.arOff
    rrCount := s.an.length + s.ns.length + s.ar.length
    msgSize := w.msgSize }
  qd : readAll (readQuestion w.buf w.msgSize nameBuf) s.qd.length hdrSize =
    .ok (w.qdOffs.zip (s.qd.map Question.data), w.anOff)
  an : readAll (readRecord w.buf w.msgSize nameBuf) s.an.length w.anOff =
    .ok (w.anOffs.zip (s.an.map Record.fields), w.nsOff)
  ns : readAll (readRecord w.buf w.msgSize nameBuf) s.ns.length w.nsOff =
    .ok (w.nsOffs.zip (s.ns.map Record.fields), w.arOff)
  ar : readAll (readRecord w.buf w.msgSize nameBuf) s.ar.length w.arOff =
    .ok (w.arOffs.zip (s.ar.map Record.fields), w.msgSize)

/-! ## The bytes of an item -/

def Question.bytes (q : Question) : List Byte := q.name.bytes ++ (be16 q.type ++ be16 q.cls)

def Record.bytes (r : Record) : List Byte :=
  r.name.bytes ++ (be16 r.type ++ be16 r.cls ++ be32 r.ttl ++
    be16 (BitVec.ofNat 16 r.data.length) ++ r.data)

/-- How much the size `dns_msg_rr_add` returns is ahead of the record. -/
def Record.slip (r : Record) : Nat := if r.name.labels = [] then 1 else 0

theorem Question.length_bytes (q : Question) :
    q.bytes.length = q.name.bytes.length + questionFixed := by
  rw [bytes, List.length_append]
  rfl

theorem Record.length_bytes (r : Record) :
    r.bytes.length = r.name.bytes.length + rrFixed + r.data.length := by
  rw [bytes]
  simp only [List.length_append, length_be16, length_be32, rrFixed]
  omega

theorem DomainName.length_bytes_le (name : DomainName) : name.bytes.length ≤ name.text.length + 2 := by
  rw [name.length_bytes]
  split <;> omega

/-! ## The writers -/

theorem name2sequenceOfLabels_eq (name : DomainName) {buf : List Byte} {off : Nat}
    (hoff : hdrSize ≤ off) (hroom : off + name.bytes.length ≤ buf.length) :
    name2sequenceOfLabels buf off name.text false =
      .ok (splice buf off name.bytes, name.bytes.length) := by
  have hdrop : name.bytes.length ≤ (buf.drop off).length := by
    rw [List.length_drop]
    omega
  rw [name2sequenceOfLabels, if_neg (by omega), if_neg Bool.false_ne_true,
    domainNameToSequenceOfLabels_eq name hdrop]
  simp only [bind, Except.bind, pure, Except.pure, splice, List.take_zero, List.nil_append,
    List.drop_drop, Nat.zero_add, List.append_assoc]

theorem addQuestion_eq {buf buf' : List Byte} {size size' : Nat} {q : Question}
    (h : addQuestion buf size q = .ok (buf', size')) :
    hdrSize ≤ size ∧ size + q.bytes.length ≤ buf.length ∧ size' = size + q.bytes.length ∧
      buf' = hdrQdInc (splice buf size q.bytes) 1 := by
  rw [addQuestion, questionAdd] at h
  split at h
  · cases h
  next hhdr =>
  split at h
  · cases h
  next hroom =>
  have hle := q.name.length_bytes_le
  have hlen := q.length_bytes
  rw [name2sequenceOfLabels_eq q.name (by omega) (by omega)] at h
  simp only [bind, Except.bind, pure, Except.pure, Except.ok.injEq, Prod.mk.injEq] at h
  rcases h with ⟨rfl, rfl⟩
  refine ⟨by omega, by omega, by omega, ?_⟩
  rw [splice_splice (by omega), Question.bytes]

theorem addRecord_eq {buf buf' : List Byte} {size size' : Nat} {r : Record}
    (h : addRecord buf size r = .ok (buf', size')) :
    hdrSize ≤ size ∧ size' ≤ buf.length ∧ size' = size + r.bytes.length + r.slip ∧
      buf' = splice buf size r.bytes := by
  rw [addRecord, rrAdd] at h
  split at h
  · cases h
  next hhdr =>
  simp only at h
  split at h
  · cases h
  next hroom =>
  have hlen := r.length_bytes
  have hname := r.name.length_bytes
  have hslip : r.name.bytes.length + r.slip = 2 + r.name.text.length := by
    rw [Record.slip, hname]
    by_cases hroot : r.name.labels = []
    · rw [if_pos hroot, if_pos (DomainName.text_eq_nil.mpr hroot)]
      rw [DomainName.text_eq_nil.mpr hroot]
    · rw [if_neg hroot, if_neg (fun ht => hroot (DomainName.text_eq_nil.mp ht))]
      omega
  have hfit : size + r.name.bytes.length ≤ buf.length := by omega
  rw [name2sequenceOfLabels_eq r.name (by omega) hfit] at h
  simp only [bind, Except.bind] at h
  rw [length_splice hfit, if_neg (by omega)] at h
  simp only [pure, Except.pure, Except.ok.injEq, Prod.mk.injEq] at h
  rcases h with ⟨rfl, rfl⟩
  refine ⟨by omega, by omega, by omega, ?_⟩
  rw [splice_splice hfit, Record.bytes]

/-! ## The readers -/

theorem questionGetData_eq {buf : List Byte} {msgSize off : Nat} {q : Question}
    (hat : At buf off q.bytes) (hoff : hdrSize ≤ off) (hsize : off + q.bytes.length ≤ msgSize)
    (nameBuf : Option Nat) (hbuf : ∀ n ∈ nameBuf, q.name.text.length + 1 < n) :
    questionGetData buf msgSize off nameBuf =
      .ok { name := nameBuf.map fun _ => q.name.text, type := q.type, cls := q.cls,
            size := q.bytes.length } := by
  rcases At.append_iff.mp hat with ⟨hname, hfixed⟩
  rcases At.append_iff.mp hfixed with ⟨htype, hcls⟩
  rw [length_be16] at hcls
  have hlen := q.length_bytes
  have hhdr : hdrSize = 12 := rfl
  have hread : nameBuf.mapM (sequenceOfLabels2name buf msgSize off) =
      .ok (nameBuf.map fun _ => q.name.text) := by
    cases nameBuf with
    | none => rfl
    | some n =>
      rw [Option.mapM_some, sequenceOfLabels2name_eq q.name hname hoff (by omega) (hbuf n rfl)]
      rfl
  rw [questionGetData, if_neg (by omega), if_neg (by omega),
    sequenceOfLabelsGetSize_eq q.name hname (by omega)]
  simp only
  rw [if_neg (by omega), hread, htype.getBe16_eq, hcls.getBe16_eq, ← hlen]
  rfl

theorem rrGetData_eq {buf : List Byte} {msgSize off : Nat} {r : Record}
    (hat : At buf off r.bytes) (hoff : hdrSize ≤ off) (hsize : off + r.bytes.length ≤ msgSize)
    (nameBuf : Option Nat) (hbuf : ∀ n ∈ nameBuf, r.name.text.length + 1 < n) :
    rrGetData buf msgSize off nameBuf =
      .ok { name := nameBuf.map fun _ => r.name.text, type := r.type, cls := r.cls, ttl := r.ttl,
            data := r.data, size := r.bytes.length } := by
  rcases At.append_iff.mp hat with ⟨hname, hrest⟩
  rcases At.append_iff.mp hrest with ⟨hfixed, hdata⟩
  rcases At.append_iff.mp hfixed with ⟨hfixed, hdlen⟩
  rcases At.append_iff.mp hfixed with ⟨hfixed, httl⟩
  rcases At.append_iff.mp hfixed with ⟨htype, hcls⟩
  simp only [List.length_append, length_be16, length_be32] at hcls httl hdlen hdata
  have hlen := r.length_bytes
  have hhdr : hdrSize = 12 := rfl
  have hread : nameBuf.mapM (sequenceOfLabels2name buf msgSize off) =
      .ok (nameBuf.map fun _ => r.name.text) := by
    cases nameBuf with
    | none => rfl
    | some n =>
      rw [Option.mapM_some, sequenceOfLabels2name_eq r.name hname hoff (by omega) (hbuf n rfl)]
      rfl
  have hcount : (getBe16 buf (off + r.name.bytes.length + 8)).toNat = r.data.length := by
    rw [hdlen.getBe16_eq, BitVec.toNat_ofNat, Nat.mod_eq_of_lt r.data_size]
  rw [rrGetData, if_neg (by omega), if_neg (by omega),
    sequenceOfLabelsGetSize_eq r.name hname (by omega)]
  simp only
  rw [hcount, if_neg (by omega), hread, htype.getBe16_eq, if_neg r.not_opt, hcls.getBe16_eq,
    httl.getBe32_eq, ← hlen, show rrFixed = 2 + 2 + 4 + 2 from rfl,
    show (buf.drop (off + r.name.bytes.length + (2 + 2 + 4 + 2))).take r.data.length = r.data
      from hdata]
  rfl

/-! ## Items in a row -/

section Row

variable {α β : Type} (bytes : α → List Byte) (slip : α → Nat)

/-- The items stand in the buffer from `size` on, at `offs`; each is followed by the bytes it slips
by, and `last` is behind the last. -/
inductive Placed (buf : List Byte) : List α → Nat → List Nat → Nat → Prop
  | nil (size : Nat) : Placed buf [] size [] size
  | cons {x : α} {xs : List α} {size last : Nat} {offs : List Nat} (hat : At buf size (bytes x))
      (hhdr : hdrSize ≤ size)
      (hrest : Placed buf xs (size + (bytes x).length + slip x) offs last) :
      Placed buf (x :: xs) size (size :: offs) last

/-- What stands between the header and `size` is kept. -/
def Keeps (buf buf' : List Byte) (size : Nat) : Prop :=
  buf'.length = buf.length ∧
    ∀ i bs, hdrSize ≤ i → i + bs.length ≤ size → At buf i bs → At buf' i bs

variable {bytes slip}

theorem Keeps.trans {buf buf' buf'' : List Byte} {size size' : Nat} (h : Keeps buf buf' size)
    (h' : Keeps buf' buf'' size') (hle : size ≤ size') : Keeps buf buf'' size :=
  ⟨h'.1.trans h.1, fun i bs hi hbs hat =>
    h'.2 i bs hi (by omega) (h.2 i bs hi hbs hat)⟩

theorem Keeps.splice {buf bs : List Byte} {size : Nat} (h : size + bs.length ≤ buf.length) :
    Keeps buf (splice buf size bs) size :=
  ⟨length_splice h, fun _ _ _ hi hat => hat.frame h (.inl hi)⟩

theorem Keeps.header {buf bs : List Byte} {pos size : Nat} (h : pos + bs.length ≤ hdrSize)
    (hlen : hdrSize ≤ buf.length) : Keeps buf (Buffer.splice buf pos bs) size :=
  ⟨length_splice (by omega), fun _ _ hi _ hat => hat.frame (by omega) (.inr (by omega))⟩

theorem Placed.le {buf : List Byte} {xs : List α} {size last : Nat} {offs : List Nat}
    (h : Placed bytes slip buf xs size offs last) : size ≤ last := by
  induction h with
  | nil size => exact Nat.le_refl size
  | cons hat hhdr hrest ih => omega

theorem Placed.keeps {buf buf' : List Byte} {xs : List α} {size last n : Nat} {offs : List Nat}
    (h : Placed bytes slip buf xs size offs last) (hk : Keeps buf buf' n) (hn : last ≤ n) :
    Placed bytes slip buf' xs size offs last := by
  induction h with
  | nil size => exact .nil size
  | cons hat hhdr hrest ih =>
    have hle := hrest.le
    exact .cons (hk.2 _ _ hhdr (by omega) hat) hhdr (ih hn)

theorem addAll_cons {add : List Byte → Nat → α → Except Errno (List Byte × Nat)} {x : α}
    {xs : List α} {buf buf' : List Byte} {size last : Nat} {offs : List Nat}
    (h : addAll add (x :: xs) buf size = .ok (buf', last, offs)) :
    ∃ buf1 next offs', add buf size x = .ok (buf1, next) ∧
      addAll add xs buf1 next = .ok (buf', last, offs') ∧ offs = size :: offs' := by
  rw [addAll] at h
  cases hx : add buf size x with
  | error e => rw [hx] at h; cases h
  | ok r =>
    rw [hx] at h
    simp only [bind, Except.bind] at h
    cases hxs : addAll add xs r.1 r.2 with
    | error e => rw [hxs] at h; cases h
    | ok r' =>
      rw [hxs] at h
      simp only [pure, Except.pure, Except.ok.injEq, Prod.mk.injEq] at h
      rcases h with ⟨rfl, rfl, rfl⟩
      exact ⟨r.1, r.2, r'.2.2, rfl, hxs, rfl⟩

theorem addAll_placed (bytes : α → List Byte) (slip : α → Nat)
    (add : List Byte → Nat → α → Except Errno (List Byte × Nat))
    (hadd : ∀ buf buf' size size' x, add buf size x = .ok (buf', size') →
      hdrSize ≤ size ∧ size' ≤ buf.length ∧ size' = size + (bytes x).length + slip x ∧
        At buf' size (bytes x) ∧ Keeps buf buf' size) :
    ∀ {xs : List α} {buf buf' : List Byte} {size last : Nat} {offs : List Nat},
      addAll add xs buf size = .ok (buf', last, offs) → size ≤ buf.length →
      Placed bytes slip buf' xs size offs last ∧ Keeps buf buf' size ∧ last ≤ buf.length
  | [], buf, buf', size, last, offs, h, hsize => by
    rw [addAll, Except.ok.injEq, Prod.mk.injEq, Prod.mk.injEq] at h
    rcases h with ⟨rfl, rfl, rfl⟩
    exact ⟨.nil size, ⟨rfl, fun _ _ _ _ hat => hat⟩, hsize⟩
  | x :: xs, buf, buf', size, last, offs, h, hsize => by
    rcases addAll_cons h with ⟨buf1, next, offs', hx, hxs, rfl⟩
    rcases hadd _ _ _ _ _ hx with ⟨hhdr, hnext, hsz, hat, hkeep⟩
    rcases addAll_placed bytes slip add hadd hxs (by rw [hkeep.1]; exact hnext) with ⟨hp, hk, hl⟩
    exact ⟨.cons (hk.2 _ _ hhdr (by omega) hat) hhdr (hsz ▸ hp), hkeep.trans hk (by omega),
      by rw [← hkeep.1]; exact hl⟩

variable {msgSize : Nat}

theorem readAll_head {get : Nat → Except Errno (β × Nat)} {n off last : Nat} {p : Nat × β} {ps : List (Nat × β)}
    (h : readAll get (n + 1) off = .ok (p :: ps, last)) : p.1 = off := by
  rw [readAll] at h
  cases hx : get off with
  | error e => rw [hx] at h; cases h
  | ok r =>
    rw [hx] at h
    simp only [bind, Except.bind] at h
    cases hxs : readAll get n (off + r.2) with
    | error e => rw [hxs] at h; cases h
    | ok r' =>
      rw [hxs] at h
      simp only [pure, Except.pure, Except.ok.injEq, Prod.mk.injEq, List.cons.injEq] at h
      rw [← h.1.1]

/-- Reading a row finds it again exactly when nothing slips. -/
theorem readAll_placed_iff (bytes : α → List Byte) (slip : α → Nat)
    (get : Nat → Except Errno (β × Nat)) (val : α → β) {buf : List Byte} {xs : List α}
    {size last : Nat} {offs : List Nat}
    (hget : ∀ x ∈ xs, ∀ off, At buf off (bytes x) → hdrSize ≤ off →
      off + (bytes x).length ≤ msgSize → get off = .ok (val x, (bytes x).length))
    (h : Placed bytes slip buf xs size offs last) (hlast : last ≤ msgSize) :
    readAll get xs.length size = .ok (offs.zip (xs.map val), last) ↔ ∀ x ∈ xs, slip x = 0 := by
  induction h with
  | nil size => simp [readAll]
  | @cons x xs size last offs hat hhdr hrest ih =>
    have hle := hrest.le
    have hx := hget x List.mem_cons_self size hat hhdr (by omega)
    have ih := ih (fun y hy => hget y (List.mem_cons_of_mem x hy)) hlast
    have hread : readAll get (x :: xs).length size =
        (do let (ys, l) ← readAll get xs.length (size + (bytes x).length)
            return ((size, val x) :: ys, l)) := by
      rw [List.length_cons, readAll, hx]
      rfl
    rw [hread, List.map_cons, List.zip_cons_cons, List.forall_mem_cons]
    constructor
    · intro heq
      have htail : readAll get xs.length (size + (bytes x).length) =
          .ok (offs.zip (xs.map val), last) := by
        cases hxs : readAll get xs.length (size + (bytes x).length) with
        | error e => rw [hxs] at heq; cases heq
        | ok r =>
          rw [hxs] at heq
          simp only [bind, Except.bind, pure, Except.pure, Except.ok.injEq, Prod.mk.injEq,
            List.cons.injEq, true_and] at heq
          rw [← heq.1, ← heq.2]
      have hslip : slip x = 0 := by
        cases hrest with
        | nil =>
          rw [List.length_nil, readAll, Except.ok.injEq, Prod.mk.injEq] at htail
          omega
        | cons hat' hhdr' hrest' =>
          -- the next item was read where this one ends, and written where its slip ends
          rw [List.map_cons, List.zip_cons_cons, List.length_cons] at htail
          have := readAll_head htail
          simp only at this
          omega
      refine ⟨hslip, ih.mp ?_⟩
      rw [hslip, Nat.add_zero]
      exact htail
    · rintro ⟨hslip, hall⟩
      have htail := ih.mpr hall
      rw [hslip, Nat.add_zero] at htail
      rw [htail]
      rfl

theorem skip_placed (bytes : α → List Byte) (slip : α → Nat) (getSize : Nat → Except Errno Nat)
    {buf : List Byte}
    (hget : ∀ off x, At buf off (bytes x) → hdrSize ≤ off → off + (bytes x).length ≤ msgSize →
      getSize off = .ok (bytes x).length)
    {xs : List α} {size last : Nat} {offs : List Nat} (h : Placed bytes slip buf xs size offs last)
    (hlast : last ≤ msgSize) (hslip : ∀ x ∈ xs, slip x = 0) :
    skip getSize xs.length size = .ok last := by
  induction h with
  | nil size => rfl
  | @cons x xs size last offs hat hhdr hrest ih =>
    have hle := hrest.le
    rw [List.forall_mem_cons] at hslip
    have htail := ih hlast hslip.2
    rw [hslip.1, Nat.add_zero] at htail
    rw [List.length_cons, skip, hget size x hat hhdr (by omega)]
    exact htail

end Row

/-! ## The sections of a message -/

theorem addQuestion_placed {buf buf' : List Byte} {size size' : Nat} {q : Question}
    (h : addQuestion buf size q = .ok (buf', size')) :
    hdrSize ≤ size ∧ size' ≤ buf.length ∧ size' = size + q.bytes.length + 0 ∧
      At buf' size q.bytes ∧ Keeps buf buf' size := by
  rcases addQuestion_eq h with ⟨hhdr, hroom, rfl, rfl⟩
  have hlen : hdrSize ≤ (splice buf size q.bytes).length := by
    rw [length_splice hroom]
    omega
  have hheader : Keeps (splice buf size q.bytes) (hdrQdInc (splice buf size q.bytes) 1)
      (size + q.bytes.length) := Keeps.header (by rw [length_be16]; decide) hlen
  exact ⟨hhdr, hroom, rfl, hheader.2 _ _ hhdr (by omega) (At.splice hroom),
    (Keeps.splice hroom).trans hheader (by omega)⟩

theorem addRecord_placed {buf buf' : List Byte} {size size' : Nat} {r : Record}
    (h : addRecord buf size r = .ok (buf', size')) :
    hdrSize ≤ size ∧ size' ≤ buf.length ∧ size' = size + r.bytes.length + r.slip ∧
      At buf' size r.bytes ∧ Keeps buf buf' size := by
  rcases addRecord_eq h with ⟨hhdr, hroom, hsize, rfl⟩
  have hfit : size + r.bytes.length ≤ buf.length := by omega
  exact ⟨hhdr, hroom, hsize, At.splice hfit, Keeps.splice hfit⟩

theorem addQuestions_placed {qs : List Question} {buf buf' : List Byte} {size last : Nat}
    {offs : List Nat} (h : addAll addQuestion qs buf size = .ok (buf', last, offs))
    (hsize : size ≤ buf.length) :
    Placed Question.bytes (fun _ => 0) buf' qs size offs last ∧ Keeps buf buf' size ∧
      last ≤ buf.length :=
  addAll_placed Question.bytes (fun _ => 0) addQuestion (fun _ _ _ _ _ => addQuestion_placed) h hsize

theorem addRecords_placed {rs : List Record} {buf buf' : List Byte} {size last : Nat}
    {offs : List Nat} (h : addAll addRecord rs buf size = .ok (buf', last, offs))
    (hsize : size ≤ buf.length) :
    Placed Record.bytes Record.slip buf' rs size offs last ∧ Keeps buf buf' size ∧
      last ≤ buf.length :=
  addAll_placed Record.bytes Record.slip addRecord (fun _ _ _ _ _ => addRecord_placed) h hsize

theorem addAll_question_count : ∀ {qs : List Question} {buf buf' : List Byte} {size last : Nat}
    {offs : List Nat}, addAll addQuestion qs buf size = .ok (buf', last, offs) →
    getBe16 buf' 4 = getBe16 buf 4 + BitVec.ofNat 16 qs.length
  | [], buf, buf', size, last, offs, h => by
    rw [addAll, Except.ok.injEq, Prod.mk.injEq] at h
    rw [h.1, List.length_nil]
    exact (BitVec.add_zero _).symm
  | q :: qs, buf, buf', size, last, offs, h => by
    rcases addAll_cons h with ⟨buf1, next, offs', hq, hqs, -⟩
    rcases addQuestion_eq hq with ⟨hhdr, hroom, -, rfl⟩
    have hsize : 12 ≤ size := hhdr
    have hfit : 4 + (be16 (getBe16 (splice buf size q.bytes) 4 + 1#16)).length ≤
        (splice buf size q.bytes).length := by
      rw [length_splice hroom, length_be16]
      omega
    have hinc : getBe16 (hdrQdInc (splice buf size q.bytes) 1#16) 4 = getBe16 buf 4 + 1#16 := by
      rw [hdrQdInc, (At.splice hfit).getBe16_eq, getBe16_splice hroom (.inl (by omega))]
    rw [addAll_question_count hqs]
    -- `hdrQdInc` adds one to the count the rest starts from
    change getBe16 (hdrQdInc (splice buf size q.bytes) 1#16) 4 + _ = _
    rw [hinc, List.length_cons, BitVec.add_assoc, BitVec.ofNat_add,
      BitVec.add_comm (BitVec.ofNat 16 qs.length)]

theorem addAll_record_header {i : Nat} (hi : i + 2 ≤ hdrSize) : ∀ {rs : List Record}
    {buf buf' : List Byte} {size last : Nat} {offs : List Nat},
    addAll addRecord rs buf size = .ok (buf', last, offs) → getBe16 buf' i = getBe16 buf i
  | [], buf, buf', size, last, offs, h => by
    rw [addAll, Except.ok.injEq, Prod.mk.injEq] at h
    rw [h.1]
  | r :: rs, buf, buf', size, last, offs, h => by
    rcases addAll_cons h with ⟨buf1, next, offs', hr, hrs, -⟩
    rcases addRecord_eq hr with ⟨hhdr, hroom, hsize, rfl⟩
    rw [addAll_record_header hi hrs, getBe16_splice (by omega) (.inl (by omega))]

def setCounts (buf : List Byte) (an ns ar : BitVec 16) : List Byte :=
  hdrArSet (hdrNsSet (hdrAnSet buf an) ns) ar

theorem setCounts_keeps {buf : List Byte} (an ns ar : BitVec 16) (size : Nat)
    (hlen : hdrSize ≤ buf.length) :
    Keeps buf (setCounts buf an ns ar) size ∧ getBe16 (setCounts buf an ns ar) 4 = getBe16 buf 4 ∧
      getBe16 (setCounts buf an ns ar) 6 = an ∧ getBe16 (setCounts buf an ns ar) 8 = ns ∧
      getBe16 (setCounts buf an ns ar) 10 = ar := by
  have hfit : ∀ (b : List Byte) (v : BitVec 16) (pos : Nat), b.length = buf.length → pos ≤ 10 →
      pos + (be16 v).length ≤ b.length := by
    intro b v pos hb hpos
    rw [length_be16]
    unfold hdrSize at hlen
    omega
  have han : (hdrAnSet buf an).length = buf.length := length_splice (hfit _ _ 6 rfl (by omega))
  have hns : (hdrNsSet (hdrAnSet buf an) ns).length = buf.length :=
    (length_splice (hfit _ _ 8 han (by omega))).trans han
  have kan : Keeps buf (hdrAnSet buf an) size := Keeps.header (by rw [length_be16]; decide) hlen
  have kns : Keeps (hdrAnSet buf an) (hdrNsSet (hdrAnSet buf an) ns) size :=
    Keeps.header (by rw [length_be16]; decide) (by omega)
  have kar : Keeps (hdrNsSet (hdrAnSet buf an) ns) (setCounts buf an ns ar) size :=
    Keeps.header (by rw [length_be16]; decide) (by omega)
  have hread : ∀ i, i + 2 ≤ 10 → getBe16 (setCounts buf an ns ar) i =
      getBe16 (hdrNsSet (hdrAnSet buf an) ns) i := by
    intro i hi
    exact getBe16_splice (hfit _ _ 10 hns (by omega)) (.inl hi)
  refine ⟨(kan.trans kns (Nat.le_refl _)).trans kar (Nat.le_refl _), ?_, ?_, ?_, ?_⟩
  · rw [hread 4 (by omega), hdrNsSet, getBe16_splice (hfit _ _ 8 han (by omega))
      (.inl (by omega)), hdrAnSet, getBe16_splice (hfit _ _ 6 rfl (by omega)) (.inl (by omega))]
  · rw [hread 6 (by omega), hdrNsSet, getBe16_splice (hfit _ _ 8 han (by omega))
      (.inl (by omega)), hdrAnSet, (At.splice (hfit _ _ 6 rfl (by omega))).getBe16_eq]
  · rw [hread 8 (by omega), hdrNsSet, (At.splice (hfit _ _ 8 han (by omega))).getBe16_eq]
  · rw [setCounts, hdrArSet, (At.splice (hfit _ _ 10 hns (by omega))).getBe16_eq]

/-- The message as the readers need it. -/
structure Laid (w : Written) (s : Sections) : Prop where
  qd : Placed Question.bytes (fun _ => 0) w.buf s.qd hdrSize w.qdOffs w.anOff
  an : Placed Record.bytes Record.slip w.buf s.an w.anOff w.anOffs w.nsOff
  ns : Placed Record.bytes Record.slip w.buf s.ns w.nsOff w.nsOffs w.arOff
  ar : Placed Record.bytes Record.slip w.buf s.ar w.arOff w.arOffs w.msgSize
  qdCount : hdrQdGet w.buf = s.qd.length % 2 ^ 16
  anCount : hdrAnGet w.buf = s.an.length % 2 ^ 16
  nsCount : hdrNsGet w.buf = s.ns.length % 2 ^ 16
  arCount : hdrArGet w.buf = s.ar.length % 2 ^ 16

theorem hdrCreate_eq {id flags : BitVec 16} {buf buf' : List Byte} {size : Nat}
    (h : hdrCreate id flags buf = .ok (buf', size)) :
    size = hdrSize ∧ hdrSize ≤ buf'.length ∧ getBe16 buf' 4 = 0#16 := by
  rw [hdrCreate] at h
  split at h
  · cases h
  next hroom =>
  rw [Except.ok.injEq, Prod.mk.injEq] at h
  rcases h with ⟨rfl, rfl⟩
  have hfit : 0 + (le16 id ++ le16 flags ++ List.replicate 8 0).length ≤ buf.length := by
    rw [List.length_append, List.length_append, List.length_replicate, le16, le16,
      List.length_reverse, List.length_reverse, length_be16, length_be16]
    unfold hdrSize at hroom
    omega
  refine ⟨rfl, by rw [length_splice hfit]; omega, ?_⟩
  have hat := (At.append_iff.mp (At.splice hfit)).2
  have hzero : List.replicate 8 (0 : Byte) = be16 0#16 ++ List.replicate 6 0 := rfl
  rw [hzero] at hat
  exact (At.append_iff.mp hat).1.getBe16_eq

theorem writeMsg_laid {id flags : BitVec 16} {buf : List Byte} {s : Sections} {w : Written}
    (h : writeMsg id flags buf s = .ok w) : Laid w s := by
  rw [writeMsg] at h
  replace ⟨⟨buf0, size⟩, hhdr, h⟩ := bind_ok h
  replace ⟨⟨buf1, anOff, qdOffs⟩, hqd, h⟩ := bind_ok h
  replace ⟨⟨buf2, nsOff, anOffs⟩, han, h⟩ := bind_ok h
  replace ⟨⟨buf3, arOff, nsOffs⟩, hns, h⟩ := bind_ok h
  replace ⟨⟨buf4, msgSize, arOffs⟩, har, h⟩ := bind_ok h
  replace h := Except.ok.inj h
  rcases hdrCreate_eq hhdr with ⟨rfl, hlen0, hzero⟩
  rcases addQuestions_placed hqd hlen0 with ⟨pqd, kqd, lqd⟩
  rcases addRecords_placed han (by rw [kqd.1]; exact lqd) with ⟨pan, kan, lan⟩
  rcases addRecords_placed hns (by rw [kan.1]; exact lan) with ⟨pns, kns, lns⟩
  rcases addRecords_placed har (by rw [kns.1]; exact lns) with ⟨par, kar, lar⟩
  have hlen4 : hdrSize ≤ buf4.length := by
    rw [kar.1, kns.1, kan.1, kqd.1]
    exact hlen0
  have hqdle := pqd.le
  have hanle := pan.le
  have hnsle := pns.le
  have harle := par.le
  rcases setCounts_keeps (BitVec.ofNat 16 s.an.length) (BitVec.ofNat 16 s.ns.length)
    (BitVec.ofNat 16 s.ar.length) msgSize hlen4 with ⟨kset, c4, c6, c8, c10⟩
  rw [addAll_record_header (by decide) har, addAll_record_header (by decide) hns,
    addAll_record_header (by decide) han, addAll_question_count hqd, hzero, BitVec.zero_add] at c4
  have hbuf : w.buf = setCounts buf4 (BitVec.ofNat 16 s.an.length) (BitVec.ofNat 16 s.ns.length)
      (BitVec.ofNat 16 s.ar.length) := by
    rw [← h]
    rfl
  rw [← hbuf] at kset c4 c6 c8 c10
  -- what is written later keeps what is there
  have hqdp := ((pqd.keeps kan (Nat.le_refl _)).keeps kns hanle).keeps kar (by omega)
  have hanp := (pan.keeps kns (Nat.le_refl _)).keeps kar (by omega)
  have hnsp := pns.keeps kar (Nat.le_refl _)
  have hoffs : w.qdOffs = qdOffs ∧ w.anOffs = anOffs ∧ w.nsOffs = nsOffs ∧ w.arOffs = arOffs ∧
      w.anOff = anOff ∧ w.nsOff = nsOff ∧ w.arOff = arOff ∧ w.msgSize = msgSize := by
    rw [← h]
    exact ⟨rfl, rfl, rfl, rfl, rfl, rfl, rfl, rfl⟩
  rcases hoffs with ⟨e1, e2, e3, e4, e5, e6, e7, e8⟩
  rw [← e1, ← e5] at hqdp
  rw [← e2, ← e5, ← e6] at hanp
  rw [← e3, ← e6, ← e7] at hnsp
  rw [← e4, ← e7, ← e8] at par
  rw [← e8] at kset
  exact {
    qd := hqdp.keeps kset (by omega)
    an := hanp.keeps kset (by omega)
    ns := hnsp.keeps kset (by omega)
    ar := par.keeps kset (Nat.le_refl _)
    qdCount := by rw [hdrQdGet, c4, BitVec.toNat_ofNat]
    anCount := by rw [hdrAnGet, c6, BitVec.toNat_ofNat]
    nsCount := by rw [hdrNsGet, c8, BitVec.toNat_ofNat]
    arCount := by rw [hdrArGet, c10, BitVec.toNat_ofNat] }

/-! ## The round trip -/

theorem readQuestion_eq {buf : List Byte} {msgSize nameBuf off : Nat} {q : Question}
    (hbuf : q.name.text.length + 1 < nameBuf) (hat : At buf off q.bytes) (hoff : hdrSize ≤ off)
    (hsize : off + q.bytes.length ≤ msgSize) :
    readQuestion buf msgSize nameBuf off = .ok (q.data, q.bytes.length) := by
  have hname : ∀ n ∈ some nameBuf, q.name.text.length + 1 < n := by
    rintro n ⟨⟩
    exact hbuf
  rw [readQuestion, questionGetData_eq hat hoff hsize _ hname]
  rfl

theorem readRecord_eq {buf : List Byte} {msgSize nameBuf off : Nat} {r : Record}
    (hbuf : r.name.text.length + 1 < nameBuf) (hat : At buf off r.bytes) (hoff : hdrSize ≤ off)
    (hsize : off + r.bytes.length ≤ msgSize) :
    readRecord buf msgSize nameBuf off = .ok (r.fields, r.bytes.length) := by
  have hname : ∀ n ∈ some nameBuf, r.name.text.length + 1 < n := by
    rintro n ⟨⟩
    exact hbuf
  rw [readRecord, rrGetData_eq hat hoff hsize _ hname]
  rfl

theorem questionGetSize_eq {buf : List Byte} {msgSize off : Nat} {q : Question}
    (hat : At buf off q.bytes) (hoff : hdrSize ≤ off) (hsize : off + q.bytes.length ≤ msgSize) :
    questionGetSize buf msgSize off = .ok q.bytes.length := by
  rw [questionGetSize, questionGetData_eq hat hoff hsize none nofun]
  rfl

theorem rrGetSize_eq {buf : List Byte} {msgSize off : Nat} {r : Record}
    (hat : At buf off r.bytes) (hoff : hdrSize ≤ off) (hsize : off + r.bytes.length ≤ msgSize) :
    rrGetSize buf msgSize off = .ok r.bytes.length := by
  rw [rrGetSize, rrGetData_eq hat hoff hsize none nofun]
  rfl

theorem readRecords_iff {buf : List Byte} {msgSize nameBuf size last : Nat} {rs : List Record}
    {offs : List Nat} (h : Placed Record.bytes Record.slip buf rs size offs last)
    (hlast : last ≤ msgSize) (hbuf : ∀ r ∈ rs, r.name.text.length + 1 < nameBuf) :
    readAll (readRecord buf msgSize nameBuf) rs.length size =
      .ok (offs.zip (rs.map Record.fields), last) ↔ ∀ r ∈ rs, r.slip = 0 :=
  readAll_placed_iff Record.bytes Record.slip (readRecord buf msgSize nameBuf) Record.fields
    (fun r hr _ hat hoff hsize => readRecord_eq (hbuf r hr) hat hoff hsize) h hlast

theorem Record.slip_eq_zero {r : Record} : r.slip = 0 ↔ r.name.labels ≠ [] := by
  rw [slip]
  split <;> simp_all

/-- A message that was written without an error reads back, whatever it holds, exactly when no
resource record has the root name. -/
theorem writeMsg_reads_back_iff {id flags : BitVec 16} {buf : List Byte} {s : Sections} {w : Written}
    {nameBuf : Nat} (hw : writeMsg id flags buf s = .ok w)
    (hcount : s.qd.length < 2 ^ 16 ∧ s.an.length < 2 ^ 16 ∧ s.ns.length < 2 ^ 16 ∧
      s.ar.length < 2 ^ 16)
    (hqd : ∀ q ∈ s.qd, q.name.text.length + 1 < nameBuf)
    (hrr : ∀ r ∈ s.an ++ s.ns ++ s.ar, r.name.text.length + 1 < nameBuf) :
    ReadsBack w s nameBuf ↔ ∀ r ∈ s.an ++ s.ns ++ s.ar, r.name.labels ≠ [] := by
  have hlaid := writeMsg_laid hw
  have hanle := hlaid.an.le
  have hnsle := hlaid.ns.le
  have harle := hlaid.ar.le
  simp only [List.mem_append, or_imp, forall_and] at hrr ⊢
  have han := readRecords_iff hlaid.an (show w.nsOff ≤ w.msgSize by omega) hrr.1.1
  have hns := readRecords_iff hlaid.ns harle hrr.1.2
  have har := readRecords_iff hlaid.ar (Nat.le_refl w.msgSize) hrr.2
  constructor
  · intro h
    exact ⟨⟨fun r hr => Record.slip_eq_zero.mp (han.mp h.an r hr),
      fun r hr => Record.slip_eq_zero.mp (hns.mp h.ns r hr)⟩,
      fun r hr => Record.slip_eq_zero.mp (har.mp h.ar r hr)⟩
  · rintro ⟨⟨hanr, hnsr⟩, harr⟩
    have hans : ∀ r ∈ s.an, r.slip = 0 := fun r hr => Record.slip_eq_zero.mpr (hanr r hr)
    have hnss : ∀ r ∈ s.ns, r.slip = 0 := fun r hr => Record.slip_eq_zero.mpr (hnsr r hr)
    have hars : ∀ r ∈ s.ar, r.slip = 0 := fun r hr => Record.slip_eq_zero.mpr (harr r hr)
    have hqds : ∀ q ∈ s.qd, (fun _ : Question => 0) q = 0 := fun _ _ => rfl
    refine ⟨?_, ?_, han.mpr hans, hns.mpr hnss, har.mpr hars⟩
    · have hle := hlaid.qd.le
      -- the loops of `dns_msg_info_get` end where the writer ended each section
      have hskip0 := skip_placed Question.bytes (fun _ => 0) (questionGetSize w.buf w.msgSize)
        (fun _ _ => questionGetSize_eq) hlaid.qd (by omega) hqds
      have hskip1 := skip_placed Record.bytes Record.slip (rrGetSize w.buf w.msgSize)
        (fun _ _ => rrGetSize_eq) hlaid.an (by omega) hans
      have hskip2 := skip_placed Record.bytes Record.slip (rrGetSize w.buf w.msgSize)
        (fun _ _ => rrGetSize_eq) hlaid.ns (by omega) hnss
      have hskip3 := skip_placed Record.bytes Record.slip (rrGetSize w.buf w.msgSize)
        (fun _ _ => rrGetSize_eq) hlaid.ar (Nat.le_refl w.msgSize) hars
      rw [msgInfoGet, if_neg (by omega), hlaid.qdCount, hlaid.anCount, hlaid.nsCount, hlaid.arCount,
        Nat.mod_eq_of_lt hcount.1, Nat.mod_eq_of_lt hcount.2.1, Nat.mod_eq_of_lt hcount.2.2.1,
        Nat.mod_eq_of_lt hcount.2.2.2, hskip0]
      simp only [bind, Except.bind, hskip1, hskip2, hskip3]
      rfl
    · exact (readAll_placed_iff Question.bytes (fun _ => 0)
        (readQuestion w.buf w.msgSize nameBuf) Question.data
        (fun q hq _ hat hoff hsize => readQuestion_eq (hqd q hq) hat hoff hsize) hlaid.qd
        (by omega)).mpr hqds

/-- The name `a`. -/
def nameA : DomainName := { labels := [[0x61#8]], valid := by decide }

/-- A record of the root, such as a root server's, before one of `a`. -/
def rootSections : Sections where
  qd := [{ name := root, type := 2#16, cls := 1#16 }]
  an := [{ name := root, type := 2#16, cls := 1#16, ttl := 60#32, data := [1#8], not_opt := by decide
           data_size := by decide },
         { name := nameA, type := typeA, cls := 1#16, ttl := 60#32, data := [127#8, 0#8, 0#8, 1#8]
           not_opt := by decide, data_size := by decide }]
  ns := []
  ar := []

/-- The same without the record of the root. -/
def plainSections : Sections := { rootSections with an := rootSections.an.drop 1 }

theorem writeMsg_reads_back_plain : ∃ w, writeMsg 7#16 1#16 (List.replicate 64 0) plainSections =
    .ok w ∧ ReadsBack w plainSections 16 := by
  have hok : (writeMsg 7#16 1#16 (List.replicate 64 0) plainSections).isOk = true := by
    decide +kernel
  cases hw : writeMsg 7#16 1#16 (List.replicate 64 0) plainSections with
  | error e => rw [hw] at hok; exact absurd hok Bool.false_ne_true
  | ok w =>
    exact ⟨w, rfl, (writeMsg_reads_back_iff hw (by decide) (by decide) (by decide)).mpr (by decide)⟩

/-- The record behind the one of the root is written one byte too far, and is not found. -/
theorem writeMsg_root_shifts : ∃ w, writeMsg 7#16 1#16 (List.replicate 64 0) rootSections = .ok w ∧
    ¬ ReadsBack w rootSections 16 := by
  have hinfo : (match writeMsg 7#16 1#16 (List.replicate 64 0) rootSections with
      | .ok w => decide ((msgInfoGet w.buf w.msgSize).map (·.msgSize) = .ok w.msgSize)
      | .error _ => true) = false := by
    decide +kernel
  cases hw : writeMsg 7#16 1#16 (List.replicate 64 0) rootSections with
  | error e =>
    rw [hw] at hinfo
    exact absurd hinfo Bool.noConfusion
  | ok w =>
    rw [hw] at hinfo
    refine ⟨w, rfl, fun h => of_decide_eq_false hinfo ?_⟩
    rw [h.info]
    rfl

end Dns
