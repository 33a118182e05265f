import Liblcb.Utils.Asn1

/-!
# Where the parser stays inside the buffer

A length in the short form is not compared with what the buffer holds, and a tag of the universal
class is looked up however large it is.  These two are all that goes wrong.
-/

namespace Asn1

open Mem Progress

/-- The length octets are accepted: the length of the long form is one the buffer has. -/
def Accepted (l : Byte) (tail : List Byte) : Prop :=
  l &&& asnLenLong = 0 ∨ ∃ zeros b sig content, LongLength l zeros b sig ∧
    tail = zeros ++ b :: (sig ++ content) ∧ content ≠ [] ∧ sigValue b sig ≤ content.length

/-- What stands there has a universal tag beyond the table and a length that is accepted, or passes
the flags check with a short length beyond the end of the buffer. -/
def Overruns (text : List Byte) : Prop :=
  ∃ id l tail, IdentOctets id ∧ text = id ++ l :: tail ∧
    (idClass id = asnIdClassUniversal ∧ asnClassUniPs.length ≤ idTag id ∧ Accepted l tail ∨
      FlagsOk id ∧ l &&& asnLenLong = 0 ∧ tail.length < l.toNat)

/-- The call reads nothing it must not, and what it accepts lies in the buffer, one part behind the
other. -/
def Safe (buf : List Byte) (offset : Option Nat) : Prop :=
  match asnParse buf offset with
  | .error e => e ≠ .outside
  | .ok p => p.data = offset.getD 0 + p.hdrSize ∧ p.offset = p.data + p.dataSize ∧
      offset.getD 0 < p.offset ∧ p.offset ≤ buf.length

variable {buf id tail : List Byte} {l : Byte} {offset : Option Nat} {off bufSize hSize : Nat}

theorem safe_of_error {e : Err} (h : asnParse buf offset = .error e) :
    Safe buf offset ↔ e ≠ .outside := by
  rw [Safe, h]

theorem safe_of_ok {p : Parsed} (h : asnParse buf offset = .ok p) :
    Safe buf offset ↔ p.data = offset.getD 0 + p.hdrSize ∧ p.offset = p.data + p.dataSize ∧
      offset.getD 0 < p.offset ∧ p.offset ≤ buf.length := by
  rw [Safe, h]

/-! ## The two tables of cases -/

theorem asnFlags_outside (h : idClass id = asnIdClassUniversal)
    (htag : asnClassUniPs.length ≤ idTag id) :
    asnFlags (idClass id) (idFlag id) (idTag id) = .error .outside := by
  rw [asnFlags, if_pos h, List.getElem?_eq_none htag]

theorem asnFlags_ebadmsg (htag : idClass id = asnIdClassUniversal → idTag id < asnClassUniPs.length)
    (h : ¬ FlagsOk id) : asnFlags (idClass id) (idFlag id) (idTag id) = .error .ebadmsg := by
  rw [FlagsOk, Classical.not_imp] at h
  obtain ⟨hcls, hnone⟩ := h
  have hget := List.getElem?_eq_getElem (htag hcls)
  rw [asnFlags, if_pos hcls, hget]
  dsimp only
  rw [if_pos]
  exact ⟨fun hpc => hnone ⟨_, hget, .inl hpc⟩, fun hflag => hnone ⟨_, hget, .inr hflag⟩⟩

theorem asnLength_sig (hsize : off + (hSize + 1) + tail.length = bufSize) (hbuf : bufSize < 2 ^ 64)
    {zeros sig content : List Byte} {b : Byte} (h : LongLength l zeros b sig)
    (heq : tail = zeros ++ b :: (sig ++ content)) :
    asnLength bufSize off hSize (l :: tail) =
        (if content = [] ∨ content.length < sigValue b sig then .error .ebadmsg
        else .ok ⟨hSize + 1 + lenLow l, sigValue b sig, content⟩) ∧
      off + (hSize + 1 + lenLow l) + content.length = bufSize := by
  have hlen := h.length_eq
  have htail := congrArg List.length heq
  rw [List.length_append, List.length_cons, List.length_append] at htail
  have hcontent : off + (hSize + 1 + lenLow l) + content.length = bufSize := by omega
  refine ⟨?_, hcontent⟩
  rw [heq, asnLength_long h, sub64_content hcontent hbuf]

theorem asnLength_accepted (hsize : off + (hSize + 1) + tail.length = bufSize)
    (hbuf : bufSize < 2 ^ 64) (h : Accepted l tail) :
    ∃ len, asnLength bufSize off hSize (l :: tail) = .ok len ∧ 0 < len.hSize ∧
      off + len.hSize + len.cur.length = bufSize ∧
      (len.dtSize ≤ len.cur.length ↔ (l &&& asnLenLong = 0 → l.toNat ≤ tail.length)) := by
  rcases h with hshort | ⟨zeros, b, sig, content, h, heq, hne, hle⟩
  · exact ⟨_, asnLength_short hshort, Nat.succ_pos _, hsize, fun hle _ => hle,
      fun hle => hle hshort⟩
  · obtain ⟨hrun, hcontent⟩ := asnLength_sig hsize hbuf h heq
    rw [if_neg (fun hor => hor.elim hne (Nat.not_lt.mpr hle))] at hrun
    exact ⟨_, hrun, Nat.lt_of_lt_of_le (Nat.succ_pos _) (Nat.le_add_right _ _), hcontent,
      fun _ hshort => absurd hshort h.long, fun _ => hle⟩

theorem asnLength_refused (hsize : off + (hSize + 1) + tail.length = bufSize)
    (hbuf : bufSize < 2 ^ 64) (h : ¬ Accepted l tail) :
    ∃ e, asnLength bufSize off hSize (l :: tail) = .error e ∧ e ≠ .outside := by
  rcases asnLength_or l tail with hshort | ⟨zeros, b, sig, content, hlong, heq⟩ | hrun
  · exact absurd (.inl hshort) h
  · obtain ⟨hrun, -⟩ := asnLength_sig hsize hbuf hlong heq
    refine ⟨.ebadmsg, ?_, by decide⟩
    rw [hrun, if_pos]
    by_contra hor
    rw [not_or, Nat.not_lt] at hor
    exact h (.inr ⟨zeros, b, sig, content, hlong, heq, hor.1, hor.2⟩)
  · exact hrun

/-! ## One call -/

theorem split_unique {id' tail' : List Byte} {l' : Byte} (hid : IdentOctets id)
    (hid' : IdentOctets id') (heq : id ++ l :: tail = id' ++ l' :: tail') :
    id = id' ∧ l = l' ∧ tail = tail' := by
  have hrun := asnIdent_append hid (List.cons_ne_nil l tail)
  rw [heq, asnIdent_append hid' (List.cons_ne_nil l' tail'), Except.ok.injEq,
    Ident.mk.injEq] at hrun
  have hcur := hrun.2.2.2.2
  rw [← hcur] at heq
  rw [List.cons.injEq] at hcur
  exact ⟨List.append_cancel_right heq, hcur.1.symm, hcur.2.symm⟩

theorem asnParse_refused (hbuf : buf.length < 2 ^ 64)
    (h : ∀ id l tail, IdentOctets id → buf.drop (offset.getD 0) ≠ id ++ l :: tail) :
    ∃ e, asnParse buf offset = .error e ∧ e ≠ .outside := by
  by_cases hoff : offset.getD 0 + 2 ≤ buf.length
  · have hlen : 2 ≤ (buf.drop (offset.getD 0)).length := by
      rw [List.length_drop]
      omega
    rcases asnIdent_or hlen with ⟨id, rest, hid, hrest, heq⟩ | hbad
    · cases rest with
      | nil => exact absurd rfl hrest
      | cons l tail => exact absurd heq (h id l tail hid)
    · rw [asnParse_start hbuf hoff, hbad]
      exact ⟨_, rfl, by decide⟩
  · rw [asnParse]
    split_ifs with h1 h2 h3 h4
    · exact ⟨_, rfl, by decide⟩
    · exact ⟨_, rfl, by decide⟩
    · exact ⟨_, rfl, by decide⟩
    · exact ⟨_, rfl, by decide⟩
    · -- fewer than two bytes are left
      exfalso
      have hpos : 0 < buf.length := List.length_pos_iff.mpr h1
      rw [sub64, asnMinOidLen] at h4
      cases offset with
      | none =>
        rw [Option.getD_none] at h4 hoff
        omega
      | some off =>
        rw [Option.getD_some] at h2 h3 h4 hoff
        rw [not_and] at h2 h3
        have h2' := h2 rfl
        have h3' := h3 rfl
        omega

theorem safe_accepted {len : Len} (hbuf : buf.length < 2 ^ 64) (hid : IdentOctets id)
    (heq : buf.drop (offset.getD 0) = id ++ l :: tail)
    (hlen : asnLength buf.length (offset.getD 0) id.length (l :: tail) = .ok len)
    (hpos : 0 < len.hSize) (hcur : offset.getD 0 + len.hSize + len.cur.length = buf.length) :
    Safe buf offset ↔
      (idClass id = asnIdClassUniversal → idTag id < asnClassUniPs.length) ∧
        (FlagsOk id → len.dtSize ≤ len.cur.length) := by
  have hsplit := asnParse_split hbuf hid heq
  rw [hlen] at hsplit
  by_cases htag : idClass id = asnIdClassUniversal ∧ asnClassUniPs.length ≤ idTag id
  · rw [asnFlags_outside htag.1 htag.2] at hsplit
    rw [safe_of_error hsplit]
    exact iff_of_false (fun h => h rfl) (fun h => absurd (h.1 htag.1) (Nat.not_lt.mpr htag.2))
  · rw [not_and, Nat.not_le] at htag
    by_cases hflags : FlagsOk id
    · rw [asnFlags_ok hflags] at hsplit
      rw [safe_of_ok hsplit]
      have hmod := Nat.mod_eq_of_lt (a := offset.getD 0 + len.hSize + len.dtSize) (b := 2 ^ 64)
      -- nothing wraps, so the end is behind the buffer exactly where the content is short
      constructor
      · rintro ⟨-, hend, -, hle⟩
        refine ⟨htag, fun _ => ?_⟩
        have hdata : (parsed buf (offset.getD 0) id len).data = buf.length - len.cur.length := rfl
        have hsize : (parsed buf (offset.getD 0) id len).dataSize = len.dtSize := rfl
        omega
      · rintro ⟨-, hfit⟩
        have hle := hfit hflags
        have hend : (parsed buf (offset.getD 0) id len).offset =
            offset.getD 0 + len.hSize + len.dtSize := hmod (by omega)
        have hdata : (parsed buf (offset.getD 0) id len).data = buf.length - len.cur.length := rfl
        have hhdr : (parsed buf (offset.getD 0) id len).hdrSize = len.hSize := rfl
        have hsize : (parsed buf (offset.getD 0) id len).dataSize = len.dtSize := rfl
        omega
    · rw [asnFlags_ebadmsg htag hflags] at hsplit
      rw [safe_of_error hsplit]
      exact iff_of_true (by decide) ⟨htag, fun h => absurd h hflags⟩

theorem safe_split (hbuf : buf.length < 2 ^ 64) (hid : IdentOctets id)
    (heq : buf.drop (offset.getD 0) = id ++ l :: tail) :
    Safe buf offset ↔ (Accepted l tail →
      (idClass id = asnIdClassUniversal → idTag id < asnClassUniPs.length) ∧
        (FlagsOk id → l &&& asnLenLong = 0 → l.toNat ≤ tail.length)) := by
  obtain ⟨hsize, hpos⟩ := length_split hid heq
  by_cases hacc : Accepted l tail
  · obtain ⟨len, hlen, hpos, hcur, hfit⟩ := asnLength_accepted hsize hbuf hacc
    rw [safe_accepted hbuf hid heq hlen hpos hcur, hfit]
    exact ⟨fun h _ => h, fun h => h hacc⟩
  · obtain ⟨e, hrun, hne⟩ := asnLength_refused hsize hbuf hacc
    have hsplit := asnParse_split hbuf hid heq
    rw [hrun] at hsplit
    rw [safe_of_error hsplit]
    exact iff_of_true hne fun h => absurd h hacc

theorem safe_iff_not_overruns (hbuf : buf.length < 2 ^ 64) :
    Safe buf offset ↔ ¬ Overruns (buf.drop (offset.getD 0)) := by
  by_cases hex : ∃ id l tail, IdentOctets id ∧ buf.drop (offset.getD 0) = id ++ l :: tail
  · obtain ⟨id, l, tail, hid, heq⟩ := hex
    rw [safe_split hbuf hid heq]
    constructor
    · rintro h ⟨id', l', tail', hid', heq', hor⟩
      obtain ⟨rfl, rfl, rfl⟩ := split_unique hid hid' (heq.symm.trans heq')
      rcases hor with ⟨hcls, htag, hacc⟩ | ⟨hflags, hshort, hlt⟩
      · exact absurd ((h hacc).1 hcls) (Nat.not_lt.mpr htag)
      · exact absurd ((h (.inl hshort)).2 hflags hshort) (Nat.not_le.mpr hlt)
    · intro h hacc
      refine ⟨fun hcls => ?_, fun hflags hshort => ?_⟩
      · by_contra htag
        exact h ⟨id, l, tail, hid, heq, .inl ⟨hcls, Nat.not_lt.mp htag, hacc⟩⟩
      · by_contra hlt
        exact h ⟨id, l, tail, hid, heq, .inr ⟨hflags, hshort, Nat.not_le.mp hlt⟩⟩
  · -- no header stands there, so there is none to overrun
    obtain ⟨e, hrun, hne⟩ := @asnParse_refused _ offset hbuf
      fun id l tail hid heq => hex ⟨id, l, tail, hid, heq⟩
    rw [safe_of_error hrun]
    refine iff_of_true hne ?_
    rintro ⟨id, l, tail, hid, heq, -⟩
    exact hex ⟨id, l, tail, hid, heq⟩

/-! ## Call after call -/

theorem walkStep_again {s' : Nat} (h : walkStep buf off = some (.again s'))
    (hsafe : Safe buf (some off)) : off < s' ∧ s' ≤ buf.length := by
  rw [walkStep] at h
  cases hrun : asnParse buf (some off) with
  | error e =>
    rw [hrun] at h
    cases e <;> cases h
  | ok p =>
    rw [safe_of_ok hrun] at hsafe
    rw [hrun, Option.some.injEq, Next.again.injEq] at h
    exact h ▸ hsafe.2.2

theorem walkStep_ne_none (hsafe : Safe buf (some off)) : walkStep buf off ≠ none := by
  cases hrun : asnParse buf (some off) with
  | error e =>
    have hne := (safe_of_error hrun).mp hsafe
    rw [walkStep, hrun]
    cases e with
    | outside => exact absurd rfl hne
    | einval => exact Option.some_ne_none _
    | espipe => exact Option.some_ne_none _
    | ebadmsg => exact Option.some_ne_none _
    | edom => exact Option.some_ne_none _
    | eoverflow => exact Option.some_ne_none _
  | ok p =>
    rw [walkStep, hrun]
    exact Option.some_ne_none _

/-- A call is safe exactly where no header overruns, and a caller that comes to no such header gets
to the end with every call safe. -/
theorem asnParse_safe_iff (buf : List Byte) (hbuf : buf.length < 2 ^ 64) :
    (∀ offset, Safe buf offset ↔ ¬ Overruns (buf.drop (offset.getD 0))) ∧
    ∀ off, (∀ s, Reaches (walkStep buf) off s → ¬ Overruns (buf.drop s)) →
      (∀ s, Reaches (walkStep buf) off s → Safe buf (some s)) ∧
      ∃ e, loop (walkStep buf) (buf.length + 1) off = some e := by
  refine ⟨fun offset => safe_iff_not_overruns hbuf, fun off h => ?_⟩
  have hsafe : ∀ s, Reaches (walkStep buf) off s → Safe buf (some s) :=
    fun s hs => (safe_iff_not_overruns hbuf).mpr (h s hs)
  refine ⟨hsafe, ?_⟩
  have hrank : buf.length - off < buf.length + 1 := Nat.lt_succ_of_le (Nat.sub_le _ _)
  apply @loop_ends _ _ _ (fun s => buf.length - s) _ _ hrank fun s hs =>
    walkStep_ne_none (hsafe s hs)
  intro s s' hs hstep
  have hlt := walkStep_again hstep (hsafe s hs)
  omega

/-- A NULL and nothing behind it: the caller comes to its end and stops there. -/
theorem asnParse_safe_iff_null :
    (∀ s, Reaches (walkStep [0x05#8, 0x00#8]) 0 s → Safe [0x05#8, 0x00#8] (some s)) ∧
      ∃ e, loop (walkStep [0x05#8, 0x00#8]) 3 0 = some e := by
  have h := asnParse_safe_iff [0x05#8, 0x00#8] (by decide)
  refine h.2 0 (fun s hs => ?_)
  have hor : s = 0 ∨ s = 2 := by
    refine hs.invariant (I := fun s => s = 0 ∨ s = 2) (.inl rfl) (fun t t' ht hstep => ?_)
    rcases ht with rfl | rfl
    · have hnext : walkStep [0x05#8, 0x00#8] 0 = some (.again 2) := rfl
      rw [hnext, Option.some.injEq, Next.again.injEq] at hstep
      exact .inr hstep.symm
    · have hlast : walkStep [0x05#8, 0x00#8] 2 = some (.done .espipe) := rfl
      rw [hlast, Option.some.injEq] at hstep
      cases hstep
  rcases hor with rfl | rfl
  · exact (h.1 (some 0)).mp ((safe_of_ok (p := ⟨2, 2, 0, 0, 5, 2, 0⟩) rfl).mpr (by decide))
  · exact (h.1 (some 2)).mp ((safe_of_error (e := .espipe) rfl).mpr (by decide))

/-- Five bytes of content are reported where the buffer ends, and a tag of 32 is looked up in a
table of 32 entries. -/
theorem asnParse_not_safe : ¬ Safe [0x04#8, 0x05#8] (some 0) ∧
    ¬ Safe [0x1f#8, 0x20#8, 0x00#8] (some 0) := by
  refine ⟨fun h => ?_, fun h => ?_⟩
  · have hend := (safe_of_ok (p := ⟨7, 2, 0, 0, 4, 2, 5⟩) rfl).mp h
    exact absurd hend.2.2.2 (by decide)
  · exact (safe_of_error (e := .outside) rfl).mp h rfl

end Asn1
