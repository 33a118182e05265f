import Liblcb.Utils.FindStream

/-!
# The search finds the first occurrence

For the patterns its search in the past works for, `mem_find_stream` scans the stream from one start
to the next and leaves out none.  For every other pattern there are two pieces it goes wrong on.
-/

namespace FindStream

open Mem Matching StateErr

variable {what before buf : List Byte}

/-- `re_search` from `ptr` on. -/
def reSearch (buf what : List Byte) (fuel ptr : Nat) : Except Stop (Ret × Nat) :=
  match memChrOff ptr buf (what.headD 0) with
  | none => .ok (.enoent, 0)
  | some ptr => cmpLoop buf what fuel (ptr + 1) 1

theorem cmpLoop_succ (buf what : List Byte) (fuel ptr : Nat) {off : Nat} (h0 : 0 < off) :
    cmpLoop buf what (fuel + 1) ptr off =
      if ptr + agree (buf.drop ptr) (what.drop off) < buf.length ∧
          off + agree (buf.drop ptr) (what.drop off) < what.length then
        if off ≤ ptr then reSearch buf what fuel (ptr + 1 - off)
        else
          match pastLoop what (off - ptr) (off - ptr) 1 with
          | .error e => .error e
          | .ok none => reSearch buf what fuel 0
          | .ok (some off) => cmpLoop buf what fuel 0 off
      else if off + agree (buf.drop ptr) (what.drop off) = what.length then
        .ok (.found (ptr + agree (buf.drop ptr) (what.drop off)), 0)
      else .ok (.enoent, off + agree (buf.drop ptr) (what.drop off)) := by
  rw [cmpLoop]
  generalize agree (buf.drop ptr) (what.drop off) = n
  have hback : ptr + n - (off + n - 1) = ptr + 1 - off := by omega
  have hpast : off + n - (ptr + n) = off - ptr := by omega
  simp only [hback, hpast, Nat.add_le_add_iff_right]
  split
  · split
    · rfl
    · cases pastLoop what (off - ptr) (off - ptr) 1 with
      | error e => rfl
      | ok o =>
        cases o with
        | none => rfl
        | some off => rfl
  · rfl

/-- What a call that goes on from a scan comes to: the end of the first occurrence, or the end of
the piece with the scan at it. -/
inductive CallSpec (what before buf : List Byte) : Except Stop (Ret × Nat) → Prop
  | found {start offEnd : Nat} (hscan : Scan what (before ++ buf) start what.length)
      (hend : start + what.length = before.length + offEnd) (hle : offEnd ≤ buf.length) :
      CallSpec what before buf (.ok (.found offEnd, 0))
  | enoent {start off : Nat} (hscan : Scan what (before ++ buf) start off)
      (hlt : off < what.length) (hend : start + off = before.length + buf.length) :
      CallSpec what before buf (.ok (.enoent, off))

theorem get_piece (before buf : List Byte) (k : Nat) :
    (before ++ buf)[before.length + k]? = buf[k]? := by
  rw [List.getElem?_append_right (Nat.le_add_right _ _), Nat.add_sub_cancel_left]

theorem clash_of_ne {s : List Byte} {i j : Nat} (hs : i + j < s.length) (hp : j < what.length)
    (hne : s[i + j]? ≠ what[j]?) : Clash what s i := by
  refine ⟨j, s[i + j], what[j], List.getElem?_eq_getElem hs, List.getElem?_eq_getElem hp, ?_⟩
  intro h
  rw [List.getElem?_eq_getElem hs, List.getElem?_eq_getElem hp, h] at hne
  exact hne rfl

theorem clash_of_absent (hne : what ≠ []) {k : Nat} (hk : k < buf.length)
    (h : buf[k]? ≠ some (what.headD 0)) : Clash what (before ++ buf) (before.length + k) := by
  apply clash_of_ne (j := 0)
  · rw [List.length_append]
    omega
  · exact List.length_pos_of_ne_nil hne
  · rw [Nat.add_zero, get_piece, headD_eq hne]
    exact h

theorem reSearch_spec (hne : what ≠ []) {fuel ptr : Nat}
    (hscan : Scan what (before ++ buf) (before.length + ptr) 0)
    (hloop : ∀ p, ptr ≤ p → p < buf.length → Scan what (before ++ buf) (before.length + p) 1 →
      CallSpec what before buf (cmpLoop buf what fuel (p + 1) 1)) :
    CallSpec what before buf (reSearch buf what fuel ptr) := by
  have hpos := List.length_pos_of_ne_nil hne
  rw [reSearch]
  cases hr : memChrOff ptr buf (what.headD 0) with
  | none =>
    have hend : Scan what (before ++ buf) (before.length + buf.length) 0 →
        CallSpec what before buf (.ok (.enoent, 0)) := fun h => .enoent h hpos rfl
    refine hend (hscan.move ?_ ?_ ?_ ?_)
    · intro i hi hlt
      obtain ⟨k, rfl⟩ := Nat.exists_eq_add_of_le (show before.length ≤ i by omega)
      exact clash_of_absent hne (by omega) (memChrOff_eq_none hr (by omega))
    · exact fun j hj => absurd hj (Nat.not_lt_zero j)
    · exact Nat.zero_le _
    · rw [List.length_append]
      omega
  | some p =>
    obtain ⟨hle, hget, hbefore⟩ := memChrOff_eq_some hr
    obtain ⟨hlt, -⟩ := List.getElem?_eq_some_iff.mp hget
    refine hloop p hle hlt (hscan.move ?_ ?_ ?_ ?_)
    · intro i hi hlt'
      obtain ⟨k, rfl⟩ := Nat.exists_eq_add_of_le (show before.length ≤ i by omega)
      exact clash_of_absent hne (by omega) (hbefore k (by omega) (by omega))
    · intro j hj
      rw [show j = 0 by omega, Nat.add_zero, get_piece, hget, headD_eq hne]
    · exact hpos
    · rw [List.length_append]
      omega

theorem cmpLoop_run {n : Nat} (fuel k : Nat) (hk : 0 < k) (hrun : k + n < run what)
    (hsame : ∀ i < n, buf[i]? = some (what.headD 0)) (hn : n < buf.length)
    (hdiff : buf[n]? ≠ some (what.headD 0)) :
    cmpLoop buf what (fuel + k) 0 k = reSearch buf what fuel 0 := by
  have hlen : run what ≤ what.length := run_le
  induction k with
  | zero => omega
  | succ k ih =>
    have hfirst : ∀ j ≤ n, what[k + 1 + j]? = some (what.headD 0) :=
      fun j hj => get_of_lt_run (by omega)
    have hagree : agree (buf.drop 0) (what.drop (k + 1)) = n := by
      apply agree_eq
      · intro j hj
        rw [List.drop_zero, List.getElem?_drop, hsame j hj, hfirst j (by omega)]
      · rwa [List.drop_zero]
      · rw [List.length_drop]
        omega
      · rwa [List.drop_zero, List.getElem?_drop, hfirst n le_rfl]
    rw [← Nat.add_assoc, cmpLoop_succ _ _ _ _ hk, hagree, if_pos (by omega), if_neg (by omega),
      Nat.sub_zero, pastLoop_run hk (by omega)]
    cases k with
    | zero => rfl
    | succ k => exact ih (by omega) (by omega)

theorem cmpLoop_spec (hne : what ≠ []) (hgood : Restarts what) (fuel : Nat) {ptr off start : Nat}
    (h0 : 0 < off) (hscan : Scan what (before ++ buf) start off)
    (hpos : start + off = before.length + ptr) (hptr : ptr ≤ buf.length)
    (hfuel : buf.length + off < ptr + fuel) :
    CallSpec what before buf (cmpLoop buf what fuel ptr off) := by
  -- every round starts at a later place, which is what the fuel counts
  induction fuel using Nat.strong_induction_on generalizing ptr off start with
  | _ fuel ih =>
  obtain ⟨fuel, rfl⟩ : ∃ f, fuel = f + 1 := ⟨fuel - 1, by omega⟩
  rw [cmpLoop_succ _ _ _ _ h0]
  obtain ⟨hnb, hnw⟩ := agree_le (buf.drop ptr) (what.drop off)
  have hsame := get_of_lt_agree (buf.drop ptr) (what.drop off)
  have hdiff := @get_agree_ne (buf.drop ptr) (what.drop off)
  generalize agree (buf.drop ptr) (what.drop off) = n at *
  rw [List.length_drop] at hnb hnw
  have hoff := hscan.le_pattern
  have hextend : Scan what (before ++ buf) start (off + n) := by
    apply hscan.extend
    · intro j hj hlt
      have hget := hsame (j - off) (by omega)
      rw [List.getElem?_drop, List.getElem?_drop, Nat.add_sub_cancel' hj] at hget
      rw [← hget, ← get_piece before buf,
        show before.length + (ptr + (j - off)) = start + j by omega]
    · omega
    · rw [List.length_append]
      omega
  by_cases hmis : ptr + n < buf.length ∧ off + n < what.length
  · rw [if_pos hmis]
    have hne' : buf[ptr + n]? ≠ what[off + n]? := by
      have := hdiff (by rw [List.length_drop]; omega) (by rw [List.length_drop]; omega)
      rwa [List.getElem?_drop, List.getElem?_drop] at this
    have hclash : Clash what (before ++ buf) start := by
      apply clash_of_ne (j := off + n)
      · rw [List.length_append]
        omega
      · exact hmis.2
      · rwa [show start + (off + n) = before.length + (ptr + n) by omega, get_piece]
    by_cases hin : off ≤ ptr
    · -- the start was in this piece
      rw [if_pos hin]
      apply reSearch_spec hne
      · refine hscan.move ?_ (fun j hj => absurd hj (Nat.not_lt_zero j)) (Nat.zero_le _) ?_
        · intro i hi hlt
          rwa [show i = start by omega]
        · rw [List.length_append]
          omega
      · intro p hp hlt hscan'
        exact ih fuel (by omega) (by omega) hscan' (by omega) (by omega) (by omega)
    · -- the start was in the past
      rw [if_neg hin]
      have hstream : ∀ j < off + n, (before ++ buf)[start + j]? = what[j]? := hextend.agree
      -- from the start of the piece on, behind places that clash
      have hrestart : ∀ f, buf.length < f → f ≤ fuel →
          (∀ d, 1 ≤ d → d < off - ptr → Clash what (before ++ buf) (start + d)) →
          CallSpec what before buf (reSearch buf what f 0) := by
        intro f hf hle hbetween
        apply reSearch_spec hne
        · refine hscan.move ?_ (fun j hj => absurd hj (Nat.not_lt_zero j)) (Nat.zero_le _) ?_
          · intro i hi hlt
            obtain ⟨d, rfl⟩ := Nat.exists_eq_add_of_le hi
            cases d with
            | zero => exact hclash
            | succ d => exact hbetween (d + 1) (by omega) (by omega)
          · rw [List.length_append]
            omega
        · intro p hp hlt hscan'
          exact ih f (by omega) (by omega) hscan' (by omega) (by omega) (by omega)
      obtain ⟨o, hpast, ho⟩ := pastLoop_spec hne hgood (show 0 < off - ptr by omega) (by omega)
      rw [hpast]
      cases ho with
      | none hdead =>
        apply hrestart fuel (by omega) le_rfl
        intro d hd hlt
        obtain ⟨j, hj, hdj⟩ := hdead d hd hlt
        apply clash_of_ne (j := j)
        · rw [List.length_append]
          omega
        · omega
        · rwa [show start + d + j = start + (d + j) by omega, hstream _ (by omega)]
      | run h2 hrun =>
        refine ih fuel (by omega) (by omega) (hscan.move ?_ ?_ ?_ ?_)
          (show start + 1 + (off - ptr - 1) = _ by omega) (Nat.zero_le _) (by omega)
        · intro i hi hlt
          rwa [show i = start by omega]
        · intro j hj
          rw [Nat.add_assoc, hstream _ (by omega), get_of_lt_run (by omega),
            get_of_lt_run (by omega)]
        · omega
        · rw [List.length_append]
          omega
      | tail hlt hlen hall =>
        -- the byte too much is the first byte of the pattern again, and none of them is followed
        -- by what the run wants
        have hsame' : ∀ i < ptr + n, buf[i]? = some (what.headD 0) := by
          intro i hi
          rw [← get_piece before buf, show before.length + i = start + (off - ptr + i) by omega,
            hstream _ (by omega), hall _ (by omega) (by omega)]
        have hdiff' : buf[ptr + n]? ≠ some (what.headD 0) := by
          rwa [hall _ (by omega) hmis.2] at hne'
        obtain ⟨f, rfl⟩ : ∃ f, fuel = f + (off - ptr - run what) :=
          ⟨fuel - (off - ptr - run what), by omega⟩
        simp only
        rw [cmpLoop_run f _ (by omega) (by omega) hsame' hmis.1 hdiff']
        apply hrestart f (by omega) (by omega)
        intro d hd hdlt
        by_cases hdr : d ≤ run what
        · obtain ⟨j, hj, hdj⟩ := clash_in_run (show run what < off - ptr by omega) hd hdr
          apply clash_of_ne (j := j)
          · rw [List.length_append]
            omega
          · omega
          · rwa [show start + d + j = start + (d + j) by omega, hstream _ (by omega)]
        · apply clash_of_ne (j := off + n - d)
          · rw [List.length_append]
            omega
          · omega
          · rw [show start + d + (off + n - d) = before.length + (ptr + n) by omega, get_piece,
              get_of_lt_run (show off + n - d < run what by omega)]
            exact hdiff'
  · rw [if_neg hmis]
    by_cases hfull : off + n = what.length
    · rw [if_pos hfull]
      rw [hfull] at hextend
      exact .found hextend (by omega) (by omega)
    · rw [if_neg hfull]
      exact .enoent hextend (by omega) (by omega)

/-! ## The calls for a stream -/

def Waiting (what before : List Byte) (state : Nat) : Prop :=
  state < what.length ∧ ∃ start, Scan what before start state ∧ start + state = before.length

theorem waiting_nil (hne : what ≠ []) : Waiting what [] 0 :=
  ⟨List.length_pos_of_ne_nil hne, 0, .nil what, rfl⟩

theorem memFindStream_spec (hne : what ≠ []) (hgood : Restarts what) (hbuf : buf ≠ []) {state : Nat}
    (hw : Waiting what before state) : CallSpec what before buf (memFindStream buf what state) := by
  obtain ⟨hlt, start, hscan, hend⟩ := hw
  have hlen := List.length_pos_of_ne_nil hbuf
  have happend := hscan.append buf
  rw [memFindStream, if_neg (by omega)]
  by_cases h0 : 0 = state
  · subst h0
    rw [if_pos rfl]
    have hsearch : CallSpec what before buf
        (reSearch buf what (buf.length + what.length + 1) 0) := by
      apply reSearch_spec hne
      · rwa [Nat.add_zero, ← hend]
      · intro p _ hp hscan'
        exact cmpLoop_spec hne hgood _ Nat.one_pos hscan' rfl hp (by omega)
    exact hsearch
  · rw [if_neg h0]
    exact cmpLoop_spec hne hgood _ (by omega) happend hend (Nat.zero_le _) (by omega)

/-- What the call for the piece `buf` behind `before` has to return, in a stream that may go on. -/
def CallExact (what stream before buf : List Byte) (r : Option (Except Stop Ret)) : Prop :=
  (∀ i, First what stream i → before.length < i + what.length →
    i + what.length ≤ before.length + buf.length →
    r = some (.ok (.found (i + what.length - before.length)))) ∧
  ((∀ i, First what stream i → before.length + buf.length < i + what.length) →
    r = some (.ok .enoent))

/-- The calls for the pieces of a stream find the first occurrence: all of them return without
reading outside the pattern, the first one that returns zero is the one with the last byte of the
occurrence, and `off_end` is behind that byte. -/
structure StreamExact (what : List Byte) (bufs : List (List Byte)) : Prop where
  returns : ∀ r ∈ feed what 0 bufs, ∃ ret, r = .ok ret
  exact : ∀ pre buf post, bufs = pre ++ buf :: post →
    CallExact what bufs.flatten pre.flatten buf (feed what 0 bufs)[pre.length]?

theorem feed_returns (hne : what ≠ []) (hgood : Restarts what) {bufs : List (List Byte)}
    (hbufs : ∀ buf ∈ bufs, buf ≠ []) {state : Nat} (hw : Waiting what before state) :
    ∀ r ∈ feed what state bufs, ∃ ret, r = .ok ret := by
  induction bufs generalizing before state with
  | nil => exact fun r hr => absurd hr (List.not_mem_nil)
  | cons buf bufs ih =>
    have hrest : ∀ b ∈ bufs, b ≠ [] := fun b hb => hbufs b (List.mem_cons_of_mem _ hb)
    have hcall := memFindStream_spec hne hgood (hbufs buf List.mem_cons_self) hw
    rw [feed]
    generalize memFindStream buf what state = res at hcall
    cases hcall with
    | found hscan hend hle =>
      -- the search starts anew
      intro r hr
      rcases List.mem_cons.mp hr with rfl | hr
      · exact ⟨_, rfl⟩
      · exact ih hrest (waiting_nil hne) r hr
    | enoent hscan hlt hend =>
      intro r hr
      rcases List.mem_cons.mp hr with rfl | hr
      · exact ⟨_, rfl⟩
      · exact ih hrest ⟨hlt, _, hscan, by rw [List.length_append, hend]⟩ r hr

theorem feed_exact (hne : what ≠ []) (hgood : Restarts what) {bufs : List (List Byte)}
    (hbufs : ∀ buf ∈ bufs, buf ≠ []) {state : Nat} (hw : Waiting what before state)
    (pre : List (List Byte)) (buf : List Byte) (post : List (List Byte))
    (hsplit : bufs = pre ++ buf :: post) :
    CallExact what (before ++ bufs.flatten) (before ++ pre.flatten) buf
      (feed what state bufs)[pre.length]? := by
  induction bufs generalizing before state pre with
  | nil => simp at hsplit
  | cons b bufs ih =>
    have hrest : ∀ b ∈ bufs, b ≠ [] := fun b hb => hbufs b (List.mem_cons_of_mem _ hb)
    have hcall := memFindStream_spec hne hgood (hbufs b List.mem_cons_self) hw
    rw [feed]
    generalize memFindStream b what state = res at hcall
    rw [List.flatten_cons, ← List.append_assoc]
    cases hcall with
    | @found start offEnd hscan hend hle =>
      -- the occurrence ends in this buffer, so the answer is here and in no later call
      have hfirst := (hscan.append bufs.flatten).first
      cases pre with
      | nil =>
        injection hsplit with hb hpost
        subst hb
        rw [List.flatten_nil, List.append_nil]
        refine ⟨fun i hi _ _ => ?_, fun h => ?_⟩
        · rw [hi.unique hfirst, show start + what.length - before.length = offEnd by omega]
          rfl
        · have := h start hfirst
          omega
      | cons b' pre =>
        injection hsplit with hb hpost
        subst hb
        have hlen : (before ++ (b :: pre).flatten).length =
            before.length + (b.length + pre.flatten.length) := by
          rw [List.length_append, List.flatten_cons, List.length_append]
        refine ⟨fun i hi hlt _ => ?_, fun h => ?_⟩
        · rw [hi.unique hfirst] at hlt
          omega
        · have := h start hfirst
          omega
    | @enoent start off hscan hlt hend =>
      cases pre with
      | nil =>
        injection hsplit with hb hpost
        subst hb
        rw [List.flatten_nil, List.append_nil]
        refine ⟨fun i hi _ hle => ?_, fun _ => rfl⟩
        have := hscan.le_of_first hi
        omega
      -- not found yet: what was seen grows by the buffer
      | cons b' pre =>
        injection hsplit with hb hpost
        subst hb
        rw [List.flatten_cons, ← List.append_assoc]
        apply ih hrest ⟨hlt, start, hscan, by rw [List.length_append, hend]⟩ pre hpost

theorem streamExact (hne : what ≠ []) (hgood : Restarts what) {bufs : List (List Byte)}
    (hbufs : ∀ buf ∈ bufs, buf ≠ []) : StreamExact what bufs where
  returns := feed_returns hne hgood hbufs (waiting_nil hne)
  exact pre buf post hsplit := by
    have := feed_exact hne hgood hbufs (waiting_nil hne) pre buf post hsplit
    rwa [List.nil_append, List.nil_append] at this

/-! ## The other patterns -/

theorem pastLoop_some_le {wptrMax : Nat} (fuel wptr : Nat) {k : Nat}
    (h : pastLoop what wptrMax fuel wptr = .ok (some k)) : 0 < k ∧ k + wptr ≤ wptrMax := by
  induction fuel generalizing wptr with
  | zero => cases h
  | succ fuel ih =>
    rw [pastLoop] at h
    simp only at h
    split at h
    · cases h
    split at h
    · cases h
    split at h
    · cases h
    next next hchr =>
      obtain ⟨hle, -⟩ := memChrOff_bounds hchr
      split at h
      · cases h
      split at h
      · injection h with h
        injection h with h
        omega
      · have := ih (next + 1) h
        omega

theorem cmpLoop_found_le (fuel : Nat) {ptr off e state : Nat} (h0 : 0 < off)
    (hoff : off ≤ what.length) (hptr : ptr ≤ buf.length) (hne : what ≠ [])
    (h : cmpLoop buf what fuel ptr off = .ok (.found e, state)) :
    what.length + ptr ≤ e + off ∧ e ≤ buf.length := by
  induction fuel generalizing ptr off with
  | zero => cases h
  | succ fuel ih =>
    have hpos := List.length_pos_of_ne_nil hne
    -- A new search begins at a later place with one byte compared, so the induction is over both.
    have hsearch : ∀ p, reSearch buf what fuel p = .ok (.found e, state) →
        what.length + p ≤ e ∧ e ≤ buf.length := by
      intro p hp
      rw [reSearch] at hp
      split at hp
      · cases hp
      next q hchr =>
        obtain ⟨hle, hlt⟩ := memChrOff_bounds hchr
        have := ih Nat.one_pos hpos hlt hp
        omega
    rw [cmpLoop_succ _ _ _ _ h0] at h
    obtain ⟨hnb, hnw⟩ := agree_le (buf.drop ptr) (what.drop off)
    generalize agree (buf.drop ptr) (what.drop off) = n at *
    rw [List.length_drop] at hnb hnw
    split at h
    · split at h
      · have := hsearch _ h
        omega
      · split at h
        · cases h
        · have := hsearch _ h
          omega
        next k hpast =>
          have hk := pastLoop_some_le _ _ hpast
          have := ih hk.1 (by omega) (Nat.zero_le _) h
          omega
    · split at h
      · injection h with h
        injection h with h _
        injection h with h
        omega
      · injection h with h
        injection h with h _
        cases h

theorem agree_self (l : List Byte) : agree l l = l.length := by
  induction l with
  | nil => rfl
  | cons b l ih => rw [agree, if_pos rfl, ih, List.length_cons]

section Miss

variable {m : Nat} {y : List Byte}

theorem memFindStream_take (hm : 0 < m) (hlt : m < what.length) :
    memFindStream (what.take m) what 0 = .ok (.enoent, m) := by
  have hne : what ≠ [] := List.ne_nil_of_length_pos (by omega)
  have hlen : (what.take m).length = m := List.length_take_of_le (Nat.le_of_lt hlt)
  have hchr : memChrOff 0 (what.take m) (what.headD 0) = some 0 := by
    apply memChrOff_of_first le_rfl
    · rw [List.getElem?_take_of_lt hm, headD_eq hne]
    · exact fun k _ hk => absurd hk (Nat.not_lt_zero k)
  have hagree : agree ((what.take m).drop 1) (what.drop 1) = m - 1 := by
    obtain ⟨hle, -⟩ := agree_le ((what.take m).drop 1) (what.drop 1)
    rw [List.length_drop, hlen] at hle
    apply Nat.le_antisymm hle
    by_contra hshort
    apply @get_agree_ne ((what.take m).drop 1) (what.drop 1)
    · rw [List.length_drop, hlen]
      omega
    · rw [List.length_drop]
      omega
    · rw [List.getElem?_drop, List.getElem?_drop, List.getElem?_take_of_lt (by omega)]
  rw [memFindStream, if_neg (by omega), if_pos rfl, hchr]
  simp only
  rw [cmpLoop_succ _ _ _ _ Nat.one_pos, hagree, hlen, if_neg (by omega), if_neg (by omega),
    Nat.add_sub_cancel' hm]

theorem memFindStream_ne {n : Nat} (hm : 0 < m) (hlt : m < what.length)
    (hagree : agree y (what.drop m) = n) (hn : n < y.length) (hmn : m + n < what.length) :
    memFindStream y what m =
      match pastLoop what m m 1 with
      | .error e => .error e
      | .ok none => reSearch y what (y.length + what.length) 0
      | .ok (some off) => cmpLoop y what (y.length + what.length) 0 off := by
  rw [memFindStream, if_neg (by omega), if_neg (by omega), cmpLoop_succ _ _ _ _ hm, List.drop_zero,
    hagree, if_pos (by omega), if_neg (by omega), Nat.sub_zero]

theorem second_call (hm : 0 < m) (hlt : m < what.length) (h : StreamExact what [what.take m, y]) :
    ∃ ret state, memFindStream y what m = .ok (ret, state) ∧
      CallExact what (what.take m ++ y) (what.take m) y (some (.ok ret)) := by
  have hreturns := h.returns
  have hexact := h.exact [what.take m] y [] rfl
  rw [feed, memFindStream_take hm hlt] at hreturns hexact
  simp only [feed] at hreturns hexact
  cases hres : memFindStream y what m with
  | error e =>
    rw [hres] at hreturns
    obtain ⟨ret, hret⟩ := hreturns (.error e) (by simp)
    cases hret
  | ok r =>
    rw [hres] at hexact
    simp only [List.flatten_cons, List.flatten_nil, List.append_nil] at hexact
    exact ⟨r.1, r.2, rfl, hexact⟩

/-- The stream goes on from a place in the past that the search has not returned. -/
theorem not_exact_of_missed {t : Nat} (hm : 0 < m) (hlt : m < what.length) (ht : 0 < t)
    (htm : t < m) (hborder : ∀ j < t, what[m - t + j]? = what[j]?) (hne : what[t]? ≠ what[m]?)
    (hpast : ∀ k, pastLoop what m m 1 = .ok (some k) → k < t) :
    ¬StreamExact what [what.take m, what.drop t] := by
  intro h
  have hnil : what ≠ [] := List.ne_nil_of_length_pos (by omega)
  have htake : (what.take m).length = m := List.length_take_of_le (Nat.le_of_lt hlt)
  have hdrop : (what.drop t).length = what.length - t := List.length_drop
  obtain ⟨ret, state, hcall, hexact⟩ := second_call hm hlt h
  -- the pattern stands at `m - t`
  have hthere : what <+: (what.take m ++ what.drop t).drop (m - t) := by
    rw [prefix_drop_iff]
    intro j hj
    by_cases hjt : j < t
    · rw [List.getElem?_append_left (by omega), List.getElem?_take_of_lt (by omega),
        hborder j hjt]
    · rw [List.getElem?_append_right (by omega), List.getElem?_drop, htake]
      congr 1
      omega
  obtain ⟨i, hi, hfirst⟩ := First.exists_le hthere
  have hfound := hexact.1 i hfirst (by omega) (by omega)
  injection hfound with hfound
  injection hfound with hfound
  subst hfound
  have hagree : agree (what.drop t) (what.drop m) = 0 := by
    apply agree_eq
    · exact fun j hj => absurd hj (Nat.not_lt_zero j)
    · omega
    · rw [List.length_drop]
      omega
    · rwa [List.getElem?_drop, List.getElem?_drop]
  rw [memFindStream_ne hm hlt hagree (by omega) (by omega)] at hcall
  split at hcall
  · cases hcall
  · rw [reSearch] at hcall
    split at hcall
    · cases hcall
    next q hchr =>
      obtain ⟨-, hq⟩ := memChrOff_bounds hchr
      have := cmpLoop_found_le _ Nat.one_pos (by omega) hq hnil hcall
      omega
  next k hk =>
    have hkt := hpast k hk
    have hkpos := pastLoop_some_le _ _ hk
    have := cmpLoop_found_le _ hkpos.1 (by omega) (Nat.zero_le _) hnil hcall
    omega

theorem not_exact_of_outside {next : Nat} (hnext : next + 1 < what.length)
    (hfar : run what + 2 ≤ next) (hbetween : ∀ k, run what < k → k < next →
      what[k]? ≠ some (what.headD 0)) (hthere : what[next]? = some (what.headD 0)) :
    ∃ y, y ≠ [] ∧ ¬StreamExact what [what.take (what.length - 1), y] := by
  have hnil : what ≠ [] := List.ne_nil_of_length_pos (by omega)
  -- a byte that the pattern does not go on with
  obtain ⟨z, hz⟩ : ∃ z, some z ≠ what[what.length - 1]? := by
    rw [List.getElem?_eq_getElem (by omega)]
    refine ⟨what[what.length - 1] + 1, ?_⟩
    intro h
    have := Option.some.inj h
    bv_omega
  refine ⟨[z], List.cons_ne_nil _ _, ?_⟩
  intro h
  obtain ⟨ret, state, hcall, -⟩ := second_call (by omega) (by omega) h
  have hagree : agree [z] (what.drop (what.length - 1)) = 0 := by
    apply agree_eq
    · exact fun j hj => absurd hj (Nat.not_lt_zero j)
    · exact Nat.one_pos
    · rw [List.length_drop]
      omega
    · rw [List.getElem?_drop]
      exact hz
  rw [memFindStream_ne (by omega) (by omega) hagree Nat.one_pos (by omega),
    pastLoop_behind hnil (Nat.sub_le _ _) (by omega),
    @pastLoop_jump what _ (run what) next _ (by omega) (by omega) (Nat.sub_le _ _) ?_ hthere,
    if_pos (by omega)] at hcall
  · cases hcall
  · intro k hk hlt
    rcases Nat.eq_or_lt_of_le hk with rfl | hk
    · exact get_run_ne
    · exact hbetween k hk hlt

theorem pastLoop_next (hlt : run what + 2 ≤ m) (hm : m < what.length)
    (hthere : what[run what + 1]? = some (what.headD 0)) :
    pastLoop what m m 1 =
      if ∀ j < m - run what, what[run what + 1 + j]? = what[j]? then .ok (some (m - run what))
      else pastLoop what m (m - run what) (run what + 2) := by
  have hnil : what ≠ [] := List.ne_nil_of_length_pos (by omega)
  rw [pastLoop_behind hnil (Nat.le_of_lt hm) (by omega),
    @pastLoop_jump what m (run what) (run what + 1) _ (by omega) (by omega) (Nat.le_of_lt hm) ?_
      hthere, if_neg (by omega)]
  intro k hk hk'
  rw [show k = run what by omega]
  exact get_run_ne

/-- A start with a byte too much is taken for an occurrence. -/
theorem not_exact_of_extra (hlt : run what + 2 < what.length)
    (hthere : what[run what + 1]? = some (what.headD 0))
    (hsecond : what[run what + 2]? = what[1]?) {k : Nat} (hk : run what + 2 + k < what.length)
    (hdiff : what[2 + k]? ≠ what[run what + 2 + k]?) :
    ¬StreamExact what [what.take (run what + 2), what.drop 2] := by
  intro h
  have hnil : what ≠ [] := List.ne_nil_of_length_pos (by omega)
  have hpos := run_pos hnil
  have htake : (what.take (run what + 2)).length = run what + 2 :=
    List.length_take_of_le (Nat.le_of_lt hlt)
  have hdrop : (what.drop 2).length = what.length - 2 := List.length_drop
  obtain ⟨ret, state, hcall, hexact⟩ := second_call (by omega) hlt h
  have hpast : pastLoop what (run what + 2) (run what + 2) 1 = .ok (some 2) := by
    rw [pastLoop_next le_rfl hlt hthere, Nat.add_sub_cancel_left, if_pos]
    intro j hj
    rcases (show j = 0 ∨ j = 1 by omega) with rfl | rfl
    · rw [Nat.add_zero, hthere, headD_eq hnil]
    · exact hsecond
  have hn : run what + 2 + agree (what.drop 2) (what.drop (run what + 2)) < what.length := by
    by_contra hle
    have hsame := get_of_lt_agree (what.drop 2) (what.drop (run what + 2)) k (by omega)
    rw [List.getElem?_drop, List.getElem?_drop] at hsame
    exact hdiff hsame
  rw [memFindStream_ne (by omega) hlt rfl (by omega) hn, hpast] at hcall
  simp only at hcall
  -- the whole piece agrees with the pattern behind two bytes
  obtain ⟨f, hf⟩ : ∃ f, (what.drop 2).length + what.length = f + 1 :=
    ⟨what.length - 2 + what.length - 1, by omega⟩
  rw [hf, cmpLoop_succ _ _ _ _ (by omega), List.drop_zero, agree_self, if_neg (by omega),
    if_pos (by omega)] at hcall
  injection hcall with hcall
  injection hcall with hret _
  subst hret
  by_cases hex : ∃ i, First what (what.take (run what + 2) ++ what.drop 2) i ∧
      i + what.length ≤ run what + what.length
  · obtain ⟨i, hfirst, hle⟩ := hex
    have hfound := hexact.1 i hfirst (by omega) (by omega)
    injection hfound with hfound
    injection hfound with hfound
    injection hfound with hfound
    -- at the end of the run stands another byte than the first one
    have hget := (prefix_drop_iff.mp hfirst.1) 0 (by omega)
    rw [show i + 0 = run what by omega, List.getElem?_append_left (by omega),
      List.getElem?_take_of_lt (by omega), headD_eq hnil] at hget
    exact get_run_ne hget
  · have hnone := hexact.2 ?_
    · cases hnone
    · intro i hfirst
      by_contra hle
      exact hex ⟨i, hfirst, by omega⟩

end Miss

/-- A pattern that is not searched for rightly in all streams. -/
theorem exists_not_exact (hne : what ≠ []) (hbad : ¬Restarts what) :
    ∃ bufs, (∀ buf ∈ bufs, buf ≠ []) ∧ ¬StreamExact what bufs := by
  have hpos := run_pos hne
  rw [restarts_iff hne, not_or] at hbad
  obtain ⟨hinner, htail⟩ := hbad
  have hpieces : ∀ {m t : Nat}, 0 < m → m < what.length → t < what.length →
      ∀ buf ∈ [what.take m, what.drop t], buf ≠ [] := by
    intro m t hm hlt ht buf hbuf
    apply List.ne_nil_of_length_pos
    rcases List.mem_pair.mp hbuf with rfl | rfl
    · rw [List.length_take]
      omega
    · rw [List.length_drop]
      omega
  classical
  -- where the first byte comes again
  have hex : ∃ k, run what < k ∧ what[k]? = some (what.headD 0) ∧ k + 1 < what.length := by
    by_contra hno
    apply hinner
    intro k hk hlt hget
    exact hno ⟨k, hk, hget, hlt⟩
  obtain ⟨hlt, hget, hlast⟩ := Nat.find_spec hex
  have hmin : ∀ k, run what < k → k < Nat.find hex → what[k]? ≠ some (what.headD 0) := by
    intro k hk hkn hgetk
    exact Nat.find_min hex hkn ⟨hk, hgetk, by omega⟩
  generalize Nat.find hex = next at *
  by_cases hfar : run what + 2 ≤ next
  · obtain ⟨y, hy, hnot⟩ := not_exact_of_outside hlast hfar hmin hget
    refine ⟨_, ?_, hnot⟩
    intro buf hbuf
    rcases List.mem_pair.mp hbuf with rfl | rfl
    · apply List.ne_nil_of_length_pos
      rw [List.length_take]
      omega
    · exact hy
  obtain rfl : next = run what + 1 := by omega
  by_cases hsecond : what[run what + 2]? = what[1]?
  · by_cases hdiff : ∃ k, run what + 2 + k < what.length ∧ what[2 + k]? ≠ what[run what + 2 + k]?
    · obtain ⟨k, hk, hne'⟩ := hdiff
      exact ⟨_, hpieces (by omega) (by omega) (by omega),
        not_exact_of_extra (by omega) hget hsecond hk hne'⟩
    · -- from the third byte on the pattern repeats itself
      have hrepeat : ∀ k, run what + 2 ≤ k → k < what.length →
          what[k]? = what[k - run what]? := by
        intro k hk hkl
        by_contra hne'
        apply hdiff
        refine ⟨k - (run what + 2), by omega, ?_⟩
        rw [show 2 + (k - (run what + 2)) = k - run what by omega,
          show run what + 2 + (k - (run what + 2)) = k by omega]
        exact Ne.symm hne'
      have hfirst : ∀ k, run what < k → k < what.length → k < 2 * run what →
          what[k]? = some (what.headD 0) := by
        intro k hk hkl hk2
        rcases Nat.eq_or_lt_of_le hk with rfl | hk
        · exact hget
        · rw [hrepeat k hk hkl, get_of_lt_run (by omega)]
      have hlong : 2 * run what < what.length := by
        by_contra hshort
        exact htail ⟨by omega, fun k hk hkl => hfirst k hk hkl (by omega)⟩
      have htwo : 2 ≤ run what := by
        by_contra hone
        have hrun : run what = 1 := by omega
        rw [hrun] at hrepeat hsecond hget
        apply @get_run_ne what
        rw [hrun, ← hsecond, hrepeat 3 (by omega) (by omega), hget]
      have hend : what[2 * run what]? ≠ some (what.headD 0) := by
        rw [hrepeat _ (by omega) hlong, show 2 * run what - run what = run what by omega]
        exact get_run_ne
      refine ⟨_, hpieces (by omega) (by omega) (by omega), not_exact_of_missed
        (m := 2 * run what) (t := run what - 1) (by omega) hlong (by omega) (by omega) ?_ ?_ ?_⟩
      · intro j hj
        rw [hfirst _ (by omega) (by omega) (by omega), get_of_lt_run (by omega)]
      · rw [get_of_lt_run (by omega)]
        exact hend.symm
      · intro k hk
        rw [pastLoop_next (by omega) hlong hget, if_neg] at hk
        · have := pastLoop_some_le _ _ hk
          omega
        · intro h
          have hlast' := h (run what - 1) (by omega)
          rw [show run what + 1 + (run what - 1) = 2 * run what by omega,
            get_of_lt_run (show run what - 1 < run what by omega)] at hlast'
          exact hend hlast'
  · -- the place behind the run is the start that is missed
    refine ⟨_, hpieces (by omega) (by omega) (by omega), not_exact_of_missed (m := run what + 2)
      (t := 1) (by omega) (by omega) Nat.one_pos (by omega) ?_ (fun h => hsecond h.symm) ?_⟩
    · intro j hj
      rw [show run what + 2 - 1 + j = run what + 1 by omega, hget, show j = 0 by omega,
        headD_eq hne]
    · intro k hk
      rw [pastLoop_next le_rfl (by omega) hget, Nat.add_sub_cancel_left, if_neg] at hk
      · have := pastLoop_some_le _ _ hk
        omega
      · intro h
        exact hsecond (h 1 (by omega))

/-- The patterns for which every stream, in whatever pieces it comes, is searched rightly. -/
theorem streamExact_iff (hne : what ≠ []) :
    (∀ bufs : List (List Byte), (∀ buf ∈ bufs, buf ≠ []) → StreamExact what bufs) ↔
      Restarts what := by
  constructor
  · intro h
    by_contra hbad
    obtain ⟨bufs, hbufs, hnot⟩ := exists_not_exact hne hbad
    exact hnot (h bufs hbufs)
  · intro hgood bufs hbufs
    exact streamExact hne hgood hbufs

/-- The pattern `aab` in the pieces `aa` and `ab`. -/
theorem streamExact_iff_aab :
    StreamExact [0x61, 0x61, 0x62] [[0x61, 0x61], [0x61, 0x62]] :=
  (streamExact_iff (by decide)).mpr (by decide) _ (by decide)

/-- The pattern `abac` is not found in `aba` and `bac`. -/
theorem not_forall_streamExact :
    ¬∀ (what : List Byte) (bufs : List (List Byte)), what ≠ [] → (∀ buf ∈ bufs, buf ≠ []) →
      StreamExact what bufs := by
  intro h
  have hexact := (h [0x61, 0x62, 0x61, 0x63] [[0x61, 0x62, 0x61], [0x62, 0x61, 0x63]] (by decide)
    (by decide)).exact [[0x61, 0x62, 0x61]] [0x62, 0x61, 0x63] [] rfl
  have hrun : feed [0x61, 0x62, 0x61, 0x63] 0 [[0x61, 0x62, 0x61], [0x62, 0x61, 0x63]] =
      [.ok .enoent, .ok .enoent] := by decide
  have hfirst : First ([0x61, 0x62, 0x61, 0x63] : List Byte)
      [[0x61, 0x62, 0x61], [0x62, 0x61, 0x63]].flatten 2 := by
    unfold First
    decide
  rw [hrun] at hexact
  exact absurd (hexact.1 2 hfirst (by decide) (by decide)) (by decide)

end FindStream
