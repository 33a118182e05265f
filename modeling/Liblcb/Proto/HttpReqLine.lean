import Liblcb.Proto.Http
import Liblcb.Utils.MemRead
import Liblcb.Proto.HttpHdrSpec
import Liblcb.Proto.HttpHdrRemove

/-!
# Request lines

`http_parse_req_line` of `proto/http.c`, with `skip_spwsp` and `http_get_method_fast`.  A pointer
into the header is an index, and a read outside the header has no outcome.
-/

namespace Http

open Mem

inductive ReqErr where
  | einval
  | ebadmsg
  deriving DecidableEq, Repr

/-- A pointer with its size. -/
structure Slice where
  pos : Nat
  size : Nat
  deriving DecidableEq, Repr

/-- `http_req_line_data_t`: a pointer that stays NULL is `none`. -/
structure ReqLine where
  lineSize : Nat
  method : Slice
  methodCode : Nat
  uri : Slice
  scheme : Option Slice
  host : Option Slice
  absPath : Option Slice
  query : Option Slice
  protoVer : Nat
  deriving DecidableEq, Repr

/-- `HTTPReqMethod`, from `HTTP_REQ_METHOD_OPTIONS` on. -/
def httpReqMethod : List String :=
  ["OPTIONS", "GET", "HEAD", "POST", "PUT", "DELETE", "TRACE", "CONNECT", "NOTIFY", "M-SEARCH",
    "M-POST", "SUBSCRIBE", "UNSUBSCRIBE"]

def methodConnect : Nat := 8

/-- `http_get_method_fast`: its switches over the size and the first byte only say which name is
compared. -/
def httpGetMethodFast (m : List Byte) : Nat :=
  match httpReqMethod.findIdx? fun name => name.toList.map chr = m with
  | none => 0
  | some i => i + 1

/-- `skip_spwsp` up to `bufMax`: the pointer, and how many bytes are left. -/
def skipSpwsp (hdr : List Byte) (pos bufMax : Nat) : Option (Nat × Nat) :=
  (skipHead hdr (bufMax - pos) pos).map fun ret => (ret, bufMax - ret)

/-- The loop over the slashes at the head of the path, with `n` bytes behind `ptm`. -/
def skipSlashes (hdr : List Byte) : Nat → Nat → Option Nat
  | 0, ptm => some ptm
  | n + 1, ptm => do
    let b ← hdr[ptm + 1]?
    if b = chr '/' then skipSlashes hdr n (ptm + 1) else return ptm

/-- The loop over the slashes at the tail, `n` bytes behind `absPath`. -/
def backSlashes (hdr : List Byte) (absPath : Nat) : Nat → Option Nat
  | 0 => some 0
  | n + 1 => do
    let b ← hdr[absPath + (n + 1)]?
    if b = chr '/' then backSlashes hdr absPath n else return n + 1

def schemeEnd : List Byte := "://".toList.map chr

/-- What stands in front of the path: the scheme, the host, and where the path begins. -/
structure Authority where
  scheme : Option Slice
  host : Option Slice
  ptm : Nat

/-- The scheme and the host of the target from `uri` to `uriEnd`. -/
def uriAuthority (hdr : List Byte) (uri uriEnd : Nat) : Authority :=
  let target := hdr.take uriEnd
  match memFindOff uri target schemeEnd with
  | none => ⟨none, none, uri⟩
  | some ptm =>
    let host := ptm + 3
    let hostEnd := (memChrOff host target (chr '/')).getD uriEnd
    ⟨some ⟨uri, ptm - uri⟩, some ⟨host, hostEnd - host⟩, hostEnd⟩

def uriPath (hdr : List Byte) (ptm uriEnd : Nat) : Option (Slice × Option Slice) := do
  -- the slashes at the head
  let absPath ← skipSlashes hdr (uriEnd - 1 - ptm) ptm
  match memChrOff absPath (hdr.take uriEnd) (chr '?') with
  | none =>
    -- the slashes at the tail
    let size ← if uriEnd ≤ absPath then some 0
      else (backSlashes hdr absPath (uriEnd - 1 - absPath)).map (· + 1)
    return (⟨absPath, size⟩, none)
  | some ptm => return (⟨absPath, ptm - absPath⟩, some ⟨ptm + 1, uriEnd - (ptm + 1)⟩)

def httpText : List Byte := "HTTP/".toList.map chr

def isDigit (b : Byte) : Bool := decide (chr '0' ≤ b ∧ b ≤ chr '9')

/-- The version `HTTP/H.L` at `ptm`, as `MAKEDWORD` of its digits. -/
def protoVersion (hdr : List Byte) (ptm : Nat) : Option (Option Nat) := do
  let name ← readAt hdr ptm 5
  if name ≠ httpText then return none
  let major ← hdr[ptm + 5]?
  if !isDigit major then return none
  let dot ← hdr[ptm + 6]?
  if dot ≠ chr '.' then return none
  let minor ← hdr[ptm + 7]?
  if !isDigit minor then return none
  return some ((minor - chr '0').toNat + (major - chr '0').toNat * 2 ^ 16)

def uriParts (hdr : List Byte) (methodCode uri uriEnd : Nat) :
    Option (Option Slice × Option Slice × Option Slice × Option Slice) :=
  if methodCode = methodConnect then some (none, some ⟨uri, uriEnd - uri⟩, none, none)
  else do
    let auth := uriAuthority hdr uri uriEnd
    let (absPath, query) ← uriPath hdr auth.ptm uriEnd
    return (auth.scheme, auth.host, some absPath, query)

def reqVersion (hdr : List Byte) (uriEnd lineSize : Nat) (r : Nat → ReqLine) :
    Option (Except ReqErr ReqLine) := do
  let (ptm, tm) ← skipSpwsp hdr uriEnd lineSize
  if tm < 8 then return .error .ebadmsg
  match ← protoVersion hdr ptm with
  | none => return .error .ebadmsg
  | some protoVer => return .ok (r protoVer)

/-- The target, from `uri` on, and the version. -/
def reqUri (hdr : List Byte) (methodEnd uri lineSize : Nat) : Option (Except ReqErr ReqLine) :=
  match memChrOff uri (hdr.take lineSize) sp with
  | none => some (.error .ebadmsg)
  | some uriEnd => do
    let methodCode := httpGetMethodFast (hdr.take methodEnd)
    let (scheme, host, absPath, query) ← uriParts hdr methodCode uri uriEnd
    reqVersion hdr uriEnd lineSize fun protoVer =>
      ⟨lineSize, ⟨0, methodEnd⟩, methodCode, ⟨uri, uriEnd - uri⟩, scheme, host, absPath, query,
        protoVer⟩

/-- The line of `lineSize` bytes. -/
def reqLine (hdr : List Byte) (lineSize : Nat) : Option (Except ReqErr ReqLine) :=
  match memChr (hdr.take lineSize) sp with
  | none => some (.error .ebadmsg)
  | some methodEnd => do
    let (uri, _) ← skipSpwsp hdr methodEnd lineSize
    reqUri hdr methodEnd uri lineSize

def httpParseReqLine (hdr : List Byte) : Option (Except ReqErr ReqLine) :=
  if hdr.length ≤ 10 then some (.error .einval)
  else do
    let first ← hdr[0]?
    if first < chr 'A' ∨ chr 'Z' < first then return .error .ebadmsg
    reqLine hdr ((memmem crlf hdr).getD hdr.length)

/-!
# What a request line is parsed into

The target is taken apart inside its own bounds.  Behind a line without CRLF one byte more is read
where nothing but blanks follows a space.
-/

variable {hdr line tail m t v w x rest : List Byte} {uri uriEnd ptm n : Nat}

/-! ## The target stays inside -/

theorem skipSlashes_some : ∀ {n ptm : Nat}, ptm + n < hdr.length →
    ∃ p, skipSlashes hdr n ptm = some p ∧ ptm ≤ p ∧ p ≤ ptm + n
  | 0, ptm, _ => ⟨ptm, rfl, Nat.le_refl _, Nat.le_refl _⟩
  | n + 1, ptm, h => by
    rw [skipSlashes, List.getElem?_eq_getElem (by omega), Option.bind_eq_bind, Option.bind_some]
    split_ifs with hb
    · obtain ⟨p, hrun, hle, hge⟩ := @skipSlashes_some n (ptm + 1) (by omega)
      exact ⟨p, hrun, by omega, by omega⟩
    · exact ⟨ptm, rfl, Nat.le_refl _, by omega⟩

theorem backSlashes_some {absPath : Nat} : ∀ {n : Nat}, absPath + n < hdr.length →
    ∃ k, backSlashes hdr absPath n = some k ∧ k ≤ n
  | 0, _ => ⟨0, rfl, Nat.le_refl _⟩
  | n + 1, h => by
    rw [backSlashes, List.getElem?_eq_getElem h, Option.bind_eq_bind, Option.bind_some]
    split_ifs with hb
    · obtain ⟨k, hrun, hle⟩ := @backSlashes_some absPath n (by omega)
      exact ⟨k, hrun, by omega⟩
    · exact ⟨n + 1, rfl, Nat.le_refl _⟩

/-- The slice lies between the two places. -/
def Slice.Inside (s : Slice) (uri uriEnd : Nat) : Prop := uri ≤ s.pos ∧ s.pos + s.size ≤ uriEnd

theorem uriPath_some (hptm : uri ≤ ptm) (hle : ptm ≤ uriEnd) (hlt : uri < uriEnd)
    (hend : uriEnd ≤ hdr.length) :
    ∃ absPath query, uriPath hdr ptm uriEnd = some (absPath, query) ∧
      absPath.Inside uri uriEnd ∧ ∀ s ∈ query, s.Inside uri uriEnd := by
  -- a path that begins at the end of the target has no byte to look at
  obtain ⟨p, hskip, hge, hp⟩ : ∃ p, skipSlashes hdr (uriEnd - 1 - ptm) ptm = some p ∧ ptm ≤ p ∧
      p ≤ uriEnd := by
    rcases Nat.eq_or_lt_of_le hle with rfl | hlt'
    · have hzero : ptm - 1 - ptm = 0 := by omega
      rw [hzero]
      exact ⟨ptm, rfl, Nat.le_refl _, Nat.le_refl _⟩
    · obtain ⟨p, hrun, hge, hp⟩ := @skipSlashes_some hdr (uriEnd - 1 - ptm) ptm (by omega)
      exact ⟨p, hrun, hge, by omega⟩
  rw [uriPath, hskip, Option.bind_eq_bind, Option.bind_some]
  cases hq : memChrOff p (hdr.take uriEnd) (chr '?') with
  | some q =>
    have hbounds := memChrOff_bounds hq
    rw [List.length_take] at hbounds
    refine ⟨_, _, rfl, ⟨by dsimp only; omega, by dsimp only; omega⟩, ?_⟩
    intro s hs
    rw [Option.mem_def, Option.some.injEq] at hs
    rw [← hs]
    exact ⟨by dsimp only; omega, by dsimp only; omega⟩
  | none =>
    dsimp only
    by_cases hpe : uriEnd ≤ p
    · rw [if_pos hpe]
      refine ⟨⟨p, 0⟩, none, rfl, ⟨by dsimp only; omega, by dsimp only; omega⟩, ?_⟩
      intro s hs
      cases hs
    · obtain ⟨k, hback, hk⟩ := @backSlashes_some hdr p (uriEnd - 1 - p) (by omega)
      rw [if_neg hpe, hback]
      refine ⟨⟨p, k + 1⟩, none, rfl, ⟨by dsimp only; omega, by dsimp only; omega⟩, ?_⟩
      intro s hs
      cases hs

theorem uriAuthority_inside (hlt : uri < uriEnd) (hend : uriEnd ≤ hdr.length) :
    uri ≤ (uriAuthority hdr uri uriEnd).ptm ∧ (uriAuthority hdr uri uriEnd).ptm ≤ uriEnd ∧
      (∀ s ∈ (uriAuthority hdr uri uriEnd).scheme, s.Inside uri uriEnd) ∧
      ∀ s ∈ (uriAuthority hdr uri uriEnd).host, s.Inside uri uriEnd := by
  have hlen : (hdr.take uriEnd).length = uriEnd := List.length_take_of_le hend
  rw [uriAuthority]
  cases hfind : memFindOff uri (hdr.take uriEnd) schemeEnd with
  | none =>
    refine ⟨Nat.le_refl _, Nat.le_of_lt hlt, fun s hs => ?_, fun s hs => ?_⟩
    · cases hs
    · cases hs
  | some p =>
    have hbounds := memFindOff_bounds (by decide) hfind
    have h3 : schemeEnd.length = 3 := rfl
    rw [hlen, h3] at hbounds
    -- the host ends at a slash, or with the target
    have hhost : p + 3 ≤ (memChrOff (p + 3) (hdr.take uriEnd) (chr '/')).getD uriEnd ∧
        (memChrOff (p + 3) (hdr.take uriEnd) (chr '/')).getD uriEnd ≤ uriEnd := by
      cases hslash : memChrOff (p + 3) (hdr.take uriEnd) (chr '/') with
      | none => exact ⟨hbounds.2, Nat.le_refl _⟩
      | some q =>
        have hq := memChrOff_bounds hslash
        rw [hlen] at hq
        exact ⟨hq.1, Nat.le_of_lt hq.2⟩
    dsimp only
    refine ⟨by omega, hhost.2, fun s hs => ?_, fun s hs => ?_⟩
    · rw [Option.mem_def, Option.some.injEq] at hs
      rw [← hs]
      exact ⟨Nat.le_refl _, by dsimp only; omega⟩
    · rw [Option.mem_def, Option.some.injEq] at hs
      rw [← hs]
      exact ⟨by dsimp only; omega, by dsimp only; omega⟩

theorem uriParts_eq {methodCode : Nat} {absPath : Slice} {query : Option Slice}
    (hconnect : methodCode ≠ methodConnect)
    (hpath : uriPath hdr (uriAuthority hdr uri uriEnd).ptm uriEnd = some (absPath, query)) :
    uriParts hdr methodCode uri uriEnd = some ((uriAuthority hdr uri uriEnd).scheme,
      (uriAuthority hdr uri uriEnd).host, some absPath, query) := by
  rw [uriParts, if_neg hconnect]
  dsimp only
  rw [hpath]
  rfl

theorem uriParts_some (methodCode : Nat) (hlt : uri < uriEnd) (hend : uriEnd ≤ hdr.length) :
    ∃ scheme host absPath query,
      uriParts hdr methodCode uri uriEnd = some (scheme, host, absPath, query) ∧
      ∀ part ∈ [scheme, host, absPath, query], ∀ s ∈ part, s.Inside uri uriEnd := by
  by_cases hconnect : methodCode = methodConnect
  · -- the target of CONNECT is the host as it stands
    refine ⟨none, some ⟨uri, uriEnd - uri⟩, none, none, by rw [uriParts, if_pos hconnect], ?_⟩
    intro part hpart s hs
    rcases List.mem_cons.mp hpart with rfl | hpart
    · cases hs
    · rcases List.mem_cons.mp hpart with rfl | hpart
      · rw [Option.mem_def, Option.some.injEq] at hs
        rw [← hs]
        exact ⟨Nat.le_refl _, by dsimp only; omega⟩
      · rcases List.mem_cons.mp hpart with rfl | hpart
        · cases hs
        · rw [List.mem_singleton.mp hpart] at hs
          cases hs
  · obtain ⟨hge, hle, hscheme, hhost⟩ := uriAuthority_inside hlt hend
    obtain ⟨absPath, query, hpath, habs, hquery⟩ := uriPath_some hge hle hlt hend
    refine ⟨_, _, some absPath, query, uriParts_eq hconnect hpath, ?_⟩
    intro part hpart s hs
    rcases List.mem_cons.mp hpart with rfl | hpart
    · exact hscheme s hs
    · rcases List.mem_cons.mp hpart with rfl | hpart
      · exact hhost s hs
      · rcases List.mem_cons.mp hpart with rfl | hpart
        · rw [Option.mem_def, Option.some.injEq] at hs
          exact hs ▸ habs
        · rw [List.mem_singleton.mp hpart] at hs
          exact hquery s hs

theorem protoVersion_some (h : ptm + 8 ≤ hdr.length) : ∃ ver, protoVersion hdr ptm = some ver := by
  have hread : readAt hdr ptm 5 = some ((hdr.drop ptm).take 5) := readAt_eq (by omega)
  rw [protoVersion, hread, List.getElem?_eq_getElem (i := ptm + 5) (by omega),
    List.getElem?_eq_getElem (i := ptm + 6) (by omega),
    List.getElem?_eq_getElem (i := ptm + 7) (by omega)]
  simp only [Option.bind_eq_bind, Option.bind_some]
  split_ifs
  · exact ⟨_, rfl⟩
  · exact ⟨_, rfl⟩
  · exact ⟨_, rfl⟩
  · exact ⟨_, rfl⟩
  · exact ⟨_, rfl⟩

/-! ## Where a byte behind the header is read -/

theorem skipSpwsp_eq (hhdr : hdr = x ++ (v ++ tail)) :
    skipSpwsp hdr x.length (x.length + v.length) =
      if tail = [] ∧ v.all isBlank = true then none
      else some (x.length + (v.takeWhile isBlank).length,
        v.length - (v.takeWhile isBlank).length) := by
  rw [skipSpwsp, Nat.add_sub_cancel_left, hhdr, skipHead_eq]
  split_ifs with h
  · rfl
  · rw [Option.map_some, Nat.add_sub_add_left]

theorem reqVersion_none (hhdr : hdr = x ++ (v ++ tail)) {r : Nat → ReqLine} :
    reqVersion hdr x.length (x.length + v.length) r = none ↔
      tail = [] ∧ v.all isBlank = true := by
  rw [reqVersion, skipSpwsp_eq hhdr]
  by_cases hblank : tail = [] ∧ v.all isBlank = true
  · rw [if_pos hblank]
    exact iff_of_true rfl hblank
  · refine iff_of_false ?_ hblank
    have hle := (List.takeWhile_prefix isBlank (l := v)).length_le
    rw [if_neg hblank, Option.bind_eq_bind, Option.bind_some]
    dsimp only
    split_ifs with htm
    · exact fun h => (by cases h)
    · have hlen : hdr.length = x.length + (v.length + tail.length) := by
        rw [hhdr, List.length_append, List.length_append]
      obtain ⟨ver, hver⟩ := @protoVersion_some hdr (x.length + (v.takeWhile isBlank).length)
        (by omega)
      rw [hver]
      cases ver with
      | none => exact fun h => (by cases h)
      | some ver => exact fun h => (by cases h)

theorem reqUri_none (hhdr : hdr = x ++ (v ++ tail)) (hhead : v.head? ≠ some sp) {methodEnd : Nat} :
    reqUri hdr methodEnd x.length (x.length + v.length) = none ↔
      ∃ t w, v = t ++ sp :: w ∧ sp ∉ t ∧ tail = [] ∧ w.all isBlank = true := by
  have hline : hdr.take (x.length + v.length) = x ++ (v ++ []) := by
    rw [hhdr, ← List.append_assoc, ← List.length_append, List.take_left, List.append_nil]
  rw [reqUri, hline]
  by_cases hsp : sp ∈ v
  · obtain ⟨t, w, rfl, ht⟩ := List.eq_append_cons_of_mem hsp
    have hpos : t ≠ [] := by
      rintro rfl
      exact hhead rfl
    have htlen := List.length_pos_iff.mpr hpos
    have hsplit : hdr = (x ++ t) ++ (sp :: w ++ tail) := by
      rw [hhdr, List.append_assoc, List.append_assoc]
    have hlen : x.length + t.length = (x ++ t).length := List.length_append.symm
    have hend : x.length + (t ++ sp :: w).length = (x ++ t).length + (sp :: w).length := by
      rw [List.length_append, List.length_append, Nat.add_assoc]
    have hfits : x.length + t.length ≤ hdr.length := by
      rw [hsplit, List.length_append, ← hlen]
      exact Nat.le_add_right _ _
    -- the target is taken apart inside, so only the scanner behind it can leave the header
    obtain ⟨scheme, host, absPath, query, hparts, -⟩ :=
      @uriParts_some hdr x.length (x.length + t.length) (httpGetMethodFast (hdr.take methodEnd))
        (by omega) hfits
    rw [List.append_assoc t, List.cons_append, memChrOff_append rfl ht]
    dsimp only
    rw [hparts]
    simp only [Option.bind_eq_bind, Option.bind_some]
    rw [hlen, hend, reqVersion_none hsplit, List.all_cons]
    have hblank : isBlank sp = true := by decide
    rw [hblank, Bool.true_and]
    constructor
    · rintro ⟨htail, hw⟩
      exact ⟨t, w, rfl, ht, htail, hw⟩
    · rintro ⟨t', w', heq, ht', htail, hw⟩
      obtain ⟨-, rfl⟩ := append_chr_inj ht ht' heq
      exact ⟨htail, hw⟩
  · -- no second space: nothing more is read
    have hnone : memChrOff x.length (x ++ (v ++ [])) sp = none := by
      apply memChrOff_none
      rw [List.drop_left, List.append_nil]
      exact hsp
    rw [hnone]
    refine iff_of_false (fun h => (by cases h)) ?_
    rintro ⟨t, w, rfl, -⟩
    exact hsp (List.mem_append_right t List.mem_cons_self)

/-- Behind the first space of the line there are only blanks, or there are only blanks behind the
space that ends the target. -/
def BlankEnd (line : List Byte) : Prop :=
  ∃ m rest, line = m ++ sp :: rest ∧ sp ∉ m ∧ (rest.dropWhile isBlank = [] ∨
    ∃ t w, rest.dropWhile isBlank = t ++ sp :: w ∧ sp ∉ t ∧ w.all isBlank = true)

theorem dropWhile_nil_iff {s : List Byte} : s.dropWhile isBlank = [] ↔ s.all isBlank = true := by
  rw [List.dropWhile_eq_nil_iff, List.all_eq_true]

theorem reqLine_none (hhdr : hdr = line ++ tail) :
    reqLine hdr line.length = none ↔ tail = [] ∧ BlankEnd line := by
  have htake : hdr.take line.length = line := by rw [hhdr, List.take_left]
  rw [reqLine, htake]
  by_cases hsp : sp ∈ line
  · obtain ⟨m, rest, rfl, hm⟩ := List.eq_append_cons_of_mem hsp
    have hsplit : hdr = m ++ (sp :: rest ++ tail) := by rw [hhdr, List.append_assoc]
    have hend : (m ++ sp :: rest).length = m.length + (sp :: rest).length := List.length_append
    have hblank : isBlank sp = true := by decide
    have hiff : BlankEnd (m ++ sp :: rest) ↔ rest.dropWhile isBlank = [] ∨
        ∃ t w, rest.dropWhile isBlank = t ++ sp :: w ∧ sp ∉ t ∧ w.all isBlank = true := by
      constructor
      · rintro ⟨m', rest', heq, hm', h⟩
        obtain ⟨-, rfl⟩ := append_chr_inj hm hm' heq
        exact h
      · exact fun h => ⟨m, rest, rfl, hm, h⟩
    rw [memChr_append rest hm]
    dsimp only
    rw [hend, skipSpwsp_eq hsplit, List.all_cons, hblank, Bool.true_and, hiff, dropWhile_nil_iff]
    by_cases hall : tail = [] ∧ rest.all isBlank = true
    · rw [if_pos hall]
      exact iff_of_true rfl ⟨hall.1, .inl hall.2⟩
    · rw [if_neg hall, Option.bind_eq_bind, Option.bind_some]
      dsimp only
      -- the scanner is behind the blanks
      have htw : (sp :: rest).takeWhile isBlank = sp :: rest.takeWhile isBlank :=
        List.takeWhile_cons_of_pos hblank
      have hcut : sp :: rest = (sp :: rest.takeWhile isBlank) ++ rest.dropWhile isBlank := by
        rw [List.cons_append, List.takeWhile_append_dropWhile]
      have hstart : m.length + ((sp :: rest).takeWhile isBlank).length =
          (m ++ sp :: rest.takeWhile isBlank).length := by
        rw [htw, List.length_append]
      have hlen : m.length + (sp :: rest).length =
          (m ++ sp :: rest.takeWhile isBlank).length + (rest.dropWhile isBlank).length := by
        conv_lhs => rw [hcut]
        rw [List.length_append, List.length_append, Nat.add_assoc]
      have hhdr' : hdr = (m ++ sp :: rest.takeWhile isBlank) ++
          (rest.dropWhile isBlank ++ tail) := by
        rw [hsplit]
        conv_lhs => rw [hcut]
        rw [List.append_assoc, List.append_assoc]
      have hhead : (rest.dropWhile isBlank).head? ≠ some sp := by
        intro h
        have hnot := List.head?_dropWhile_not isBlank rest
        rw [h] at hnot
        exact absurd hblank (Bool.eq_false_iff.mp hnot)
      rw [hstart, hlen, reqUri_none hhdr' hhead]
      constructor
      · rintro ⟨t, w, heq, ht, htail, hw⟩
        exact ⟨htail, .inr ⟨t, w, heq, ht, hw⟩⟩
      · rintro ⟨htail, hblanks | ⟨t, w, heq, ht, hw⟩⟩
        · exact absurd ⟨htail, hblanks⟩ hall
        · exact ⟨t, w, heq, ht, htail, hw⟩
  · rw [memChr_none.mpr hsp]
    refine iff_of_false (fun h => (by cases h)) ?_
    rintro ⟨-, m, rest, rfl, -⟩
    exact hsp (List.mem_append_right m List.mem_cons_self)

/-- The first byte is a capital letter. -/
def Capital (hdr : List Byte) : Prop := ∃ b s, hdr = b :: s ∧ chr 'A' ≤ b ∧ b ≤ chr 'Z'

theorem httpParseReqLine_capital (hsize : 10 < hdr.length) (hfirst : Capital hdr) :
    httpParseReqLine hdr = reqLine hdr ((memmem crlf hdr).getD hdr.length) := by
  obtain ⟨b, s, hcons, hA, hZ⟩ := hfirst
  have hget : hdr[0]? = some b := by rw [hcons, List.getElem?_cons_zero]
  have hno : ¬ (b < chr 'A' ∨ chr 'Z' < b) := by
    rw [not_or, BitVec.not_lt, BitVec.not_lt]
    exact ⟨hA, hZ⟩
  rw [httpParseReqLine, if_neg (by omega), hget, Option.bind_eq_bind, Option.bind_some,
    if_neg hno]

/-- A header that the parser reads a byte behind. -/
structure Overruns (hdr : List Byte) : Prop where
  size : 10 < hdr.length
  first : Capital hdr
  line : IsLine hdr
  blank : BlankEnd hdr

theorem line_split (hdr : List Byte) : ∃ line tail, hdr = line ++ tail ∧
    (memmem crlf hdr).getD hdr.length = line.length ∧ (tail = [] ↔ IsLine hdr) ∧
      (tail = [] ∨ ∃ rest, tail = crlf ++ rest) := by
  rcases memmem_crlf hdr with ⟨hnone, -⟩ | ⟨a, rest, hhdr, hsome, -⟩
  · have hline : IsLine hdr := by
      rintro ⟨a, b, hab⟩
      apply (memmem_eq_none (by decide)).mp hnone a.length
      rw [← hab, List.append_assoc, List.drop_left]
      exact List.prefix_append _ _
    refine ⟨hdr, [], (List.append_nil _).symm, by rw [hnone]; rfl, iff_of_true rfl hline, .inl rfl⟩
  · refine ⟨a, cr :: lf :: rest, hhdr, by rw [hsome]; rfl, ?_, .inr ⟨rest, rfl⟩⟩
    refine iff_of_false (List.cons_ne_nil _ _) fun hline => hline ⟨a, rest, ?_⟩
    rw [hhdr, List.append_assoc]
    rfl

theorem httpParseReqLine_none : httpParseReqLine hdr = none ↔ Overruns hdr := by
  by_cases hsize : 10 < hdr.length
  · by_cases hfirst : Capital hdr
    · obtain ⟨line, tail, hhdr, hlen, htail, -⟩ := line_split hdr
      rw [httpParseReqLine_capital hsize hfirst, hlen, reqLine_none hhdr, htail]
      constructor
      · rintro ⟨hline, hblank⟩
        rw [htail.mpr hline, List.append_nil] at hhdr
        exact ⟨hsize, hfirst, hline, hhdr ▸ hblank⟩
      · intro h
        have hnil := hhdr
        rw [htail.mpr h.line, List.append_nil] at hnil
        exact ⟨h.line, hnil ▸ h.blank⟩
    · -- the first byte is looked at before anything is searched
      refine iff_of_false ?_ fun h => hfirst h.first
      cases hdr with
      | nil => exact absurd hsize (Nat.not_lt_zero _)
      | cons b s =>
        have hbad : b < chr 'A' ∨ chr 'Z' < b := by
          by_contra hno
          rw [not_or, BitVec.not_lt, BitVec.not_lt] at hno
          exact hfirst ⟨b, s, rfl, hno.1, hno.2⟩
        rw [httpParseReqLine, if_neg (by omega), List.getElem?_cons_zero, Option.bind_eq_bind,
          Option.bind_some, if_pos hbad]
        exact fun h => (by cases h)
  · refine iff_of_false ?_ fun h => hsize h.size
    rw [httpParseReqLine, if_pos (by omega)]
    exact fun h => (by cases h)

/-! ## Request lines -/

def connectName : List Byte := "CONNECT".toList.map chr

theorem methodConnect_iff : httpGetMethodFast m = methodConnect ↔ m = connectName := by
  constructor
  · intro h
    rw [httpGetMethodFast] at h
    cases hi : httpReqMethod.findIdx? fun name => name.toList.map chr = m with
    | none =>
      rw [hi] at h
      exact absurd h (by decide)
    | some i =>
      rw [hi] at h
      have hseven : i = 7 := Nat.succ.inj h
      rw [hseven, List.findIdx?_eq_some_iff_getElem] at hi
      obtain ⟨hlt, hname, -⟩ := hi
      exact (of_decide_eq_true hname).symm
  · rintro rfl
    decide

/-- A request line: a method, a target and a version with one space between them, and a CRLF or the
end of the header behind it. -/
structure IsReqLine (hdr m t v tail : List Byte) : Prop where
  eq : hdr = (m ++ sp :: (t ++ sp :: v)) ++ tail
  capital : Capital m
  method : sp ∉ m
  target : sp ∉ t
  head : ∃ b s, t = b :: s ∧ isBlank b = false
  version : ∃ major minor, isDigit major = true ∧ isDigit minor = true ∧
    v = httpText ++ [major, chr '.', minor]
  line : IsLine (m ++ sp :: (t ++ sp :: v))
  tail : tail = [] ∨ ∃ rest, tail = crlf ++ rest

/-- The text of the line. -/
def lineText (m t v : List Byte) : List Byte := m ++ sp :: (t ++ sp :: v)

theorem blank_sp : isBlank sp = true := by decide

theorem IsReqLine.length_version (h : IsReqLine hdr m t v tail) : v.length = 8 := by
  obtain ⟨major, minor, -, -, rfl⟩ := h.version
  rfl

theorem IsReqLine.version_head (h : IsReqLine hdr m t v tail) : ∃ v', v = chr 'H' :: v' := by
  obtain ⟨major, minor, -, -, rfl⟩ := h.version
  exact ⟨_, rfl⟩

theorem IsReqLine.length_line (h : IsReqLine hdr m t v tail) :
    (lineText m t v).length = m.length + 1 + t.length + 9 := by
  rw [lineText, List.length_append, List.length_cons, List.length_append, List.length_cons,
    h.length_version]
  omega

theorem IsReqLine.lineSize (h : IsReqLine hdr m t v tail) :
    (memmem crlf hdr).getD hdr.length = (lineText m t v).length := by
  rw [h.eq]
  rcases h.tail with rfl | ⟨rest, rfl⟩
  · have hnone : memmem crlf (m ++ sp :: (t ++ sp :: v)) = none := by
      rw [memmem_eq_none (by decide)]
      intro k hpref
      exact h.line (hpref.isInfix.trans (List.drop_suffix k _).isInfix)
    rw [List.append_nil, hnone]
    rfl
  · rw [memmem_line h.line]
    rfl

theorem IsReqLine.skip_method (h : IsReqLine hdr m t v tail) :
    skipSpwsp hdr m.length (lineText m t v).length =
      some (m.length + 1, (sp :: (t ++ sp :: v)).length - 1) := by
  obtain ⟨b, s, ht, hb⟩ := h.head
  have hsplit : hdr = m ++ ((sp :: (t ++ sp :: v)) ++ tail) := by rw [h.eq, List.append_assoc]
  have hend : (lineText m t v).length = m.length + (sp :: (t ++ sp :: v)).length :=
    List.length_append
  have htw : (sp :: (t ++ sp :: v)).takeWhile isBlank = [sp] := by
    rw [List.takeWhile_cons_of_pos blank_sp, ht, List.cons_append,
      List.takeWhile_cons_of_neg (Bool.eq_false_iff.mp hb)]
  have hall : ¬ (tail = [] ∧ (sp :: (t ++ sp :: v)).all isBlank = true) := by
    rintro ⟨-, hall⟩
    rw [ht, List.cons_append, List.all_cons, List.all_cons, hb, Bool.false_and,
      Bool.and_false] at hall
    exact Bool.false_ne_true hall
  rw [hend, skipSpwsp_eq hsplit, if_neg hall, htw]
  rfl

theorem IsReqLine.find_end (h : IsReqLine hdr m t v tail) :
    memChrOff (m.length + 1) (hdr.take (lineText m t v).length) sp =
      some (m.length + 1 + t.length) := by
  have htake : hdr.take (lineText m t v).length = lineText m t v := by
    rw [h.eq, ← lineText, List.take_left]
  have hcons : lineText m t v = (m ++ [sp]) ++ (t ++ sp :: v) := by
    rw [lineText, List.append_assoc]
    rfl
  have hlen : m.length + 1 = (m ++ [sp]).length := by
    rw [List.length_append, List.length_singleton]
  rw [htake, hcons, memChrOff_append hlen h.target]

theorem IsReqLine.skip_target (h : IsReqLine hdr m t v tail) :
    skipSpwsp hdr (m.length + 1 + t.length) (lineText m t v).length =
      some (m.length + 1 + t.length + 1, 8) := by
  obtain ⟨v', hv⟩ := h.version_head
  have hnot : isBlank (chr 'H') = false := by decide
  have hcut : hdr = (m ++ sp :: t) ++ ((sp :: v) ++ tail) := by
    rw [h.eq]
    simp only [List.append_assoc, List.cons_append]
  have hpos : m.length + 1 + t.length = (m ++ sp :: t).length := by
    rw [List.length_append, List.length_cons]
    omega
  have hall : ¬ (tail = [] ∧ (sp :: v).all isBlank = true) := by
    rintro ⟨-, hall⟩
    rw [hv, List.all_cons, List.all_cons, hnot, Bool.false_and, Bool.and_false] at hall
    exact Bool.false_ne_true hall
  have htw : (sp :: v).takeWhile isBlank = [sp] := by
    rw [List.takeWhile_cons_of_pos blank_sp, hv,
      List.takeWhile_cons_of_neg (Bool.eq_false_iff.mp hnot)]
  have hlen : (lineText m t v).length = (m ++ sp :: t).length + (sp :: v).length := by
    rw [h.length_line, ← hpos, List.length_cons, h.length_version]
  have hleft : (sp :: v).length - [sp].length = 8 := by
    rw [List.length_cons, h.length_version]
    rfl
  rw [hpos, hlen, skipSpwsp_eq hcut, if_neg hall, htw, hleft, List.length_singleton]

theorem IsReqLine.proto (h : IsReqLine hdr m t v tail) :
    ∃ protoVer, protoVersion hdr (m.length + 1 + t.length + 1) = some (some protoVer) := by
  obtain ⟨major, minor, hmajor, hminor, hv⟩ := h.version
  have hcut : hdr = (m ++ sp :: (t ++ [sp])) ++
      (httpText ++ (major :: chr '.' :: minor :: tail)) := by
    rw [h.eq, hv]
    simp only [List.append_assoc, List.cons_append, List.nil_append]
  have hpos : m.length + 1 + t.length + 1 = (m ++ sp :: (t ++ [sp])).length := by
    rw [List.length_append, List.length_cons, List.length_append, List.length_singleton]
    omega
  have hread : readAt hdr (m.length + 1 + t.length + 1) 5 = some httpText := by
    have h5 : httpText.length = 5 := rfl
    have hlen : hdr.length = (m ++ sp :: (t ++ [sp])).length + (tail.length + 3 + 5) := by
      conv_lhs => rw [hcut]
      rw [List.length_append, @List.length_append _ httpText, h5, Nat.add_comm 5]
      rfl
    rw [readAt_eq (by omega), hpos]
    conv_lhs => rw [hcut]
    rw [List.drop_left, ← h5, List.take_left]
  -- the three bytes behind `HTTP/`
  have hget : ∀ i, hdr[m.length + 1 + t.length + 1 + (5 + i)]? =
      (major :: chr '.' :: minor :: tail)[i]? := by
    intro i
    have h5 : httpText.length = 5 := rfl
    rw [hpos]
    conv_lhs => rw [hcut]
    rw [List.getElem?_append_right (Nat.le_add_right _ _), Nat.add_sub_cancel_left, ← h5,
      List.getElem?_append_right (Nat.le_add_right _ _), Nat.add_sub_cancel_left]
  have h0 := hget 0
  have h1 := hget 1
  have h2 := hget 2
  refine ⟨(minor - chr '0').toNat + (major - chr '0').toNat * 2 ^ 16, ?_⟩
  rw [protoVersion, hread]
  simp only [Option.bind_eq_bind, Option.bind_some, ne_eq, not_true_eq_false, if_false]
  rw [h0, h1, h2]
  simp only [List.getElem?_cons_zero, List.getElem?_cons_succ, Option.bind_some, hmajor, hminor,
    Bool.not_true, Bool.false_eq_true, if_false, not_true_eq_false]
  rfl

theorem httpParseReqLine_line (h : IsReqLine hdr m t v tail) :
    ∃ scheme host absPath query protoVer,
      uriParts hdr (httpGetMethodFast m) (m.length + 1) (m.length + 1 + t.length) =
        some (scheme, host, absPath, query) ∧
      httpParseReqLine hdr = some (.ok ⟨(lineText m t v).length, ⟨0, m.length⟩, httpGetMethodFast m,
        ⟨m.length + 1, t.length⟩, scheme, host, absPath, query, protoVer⟩) := by
  obtain ⟨b, s, ht, -⟩ := h.head
  obtain ⟨c, s', hm, hcap⟩ := h.capital
  have hfirst : Capital hdr := by
    rw [h.eq, hm]
    exact ⟨c, _, rfl, hcap⟩
  have htlen : 0 < t.length := by
    rw [ht]
    exact Nat.succ_pos _
  have hlen := h.length_line
  have hle : (lineText m t v).length ≤ hdr.length := by
    rw [h.eq, ← lineText, List.length_append]
    exact Nat.le_add_right _ _
  have hmethod : memChr (hdr.take (lineText m t v).length) sp = some m.length := by
    rw [h.eq, ← lineText, List.take_left, lineText, memChr_append _ h.method]
  have hname : hdr.take m.length = m := by
    rw [h.eq, List.append_assoc, List.take_left]
  obtain ⟨scheme, host, absPath, query, hparts, -⟩ := @uriParts_some hdr (m.length + 1)
    (m.length + 1 + t.length) (httpGetMethodFast m) (by omega) (by omega)
  obtain ⟨protoVer, hproto⟩ := h.proto
  refine ⟨scheme, host, absPath, query, protoVer, hparts, ?_⟩
  -- one step of the parser after the other
  rw [httpParseReqLine_capital (by omega) hfirst, h.lineSize, reqLine, hmethod]
  dsimp only
  rw [h.skip_method, Option.bind_eq_bind, Option.bind_some, reqUri, h.find_end]
  dsimp only
  rw [hname, hparts, Option.bind_eq_bind, Option.bind_some]
  dsimp only
  rw [reqVersion, h.skip_target, Option.bind_eq_bind, Option.bind_some]
  dsimp only
  rw [if_neg (by decide), hproto, Nat.add_sub_cancel_left]
  rfl

end Http
