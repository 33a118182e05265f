import Liblcb.Proto.HttpReqLine
import Mathlib.Data.List.DropRight

/-!
# The parts of a target

The path of an origin-form target loses its redundant slashes.  The search for `://` goes over the
whole target, so a target that embeds a URL is taken for an absolute one.
-/

namespace Http

open Mem

variable {hdr x y s u m t v tail : List Byte} {b : Byte}

/-! ## Slashes -/

def isSlash (b : Byte) : Bool := decide (b = chr '/')

theorem isSlash_iff : isSlash b = true ↔ b = chr '/' := by
  rw [isSlash, decide_eq_true_eq]

theorem skipSlashes_eq : ∀ (s x : List Byte) (b : Byte),
    skipSlashes (x ++ b :: (s ++ y)) s.length x.length =
      some (x.length + (s.takeWhile isSlash).length)
  | [], x, b => rfl
  | c :: s, x, b => by
    have hget : (x ++ b :: (c :: s ++ y))[x.length + 1]? = some c := by
      rw [List.getElem?_append_right (Nat.le_add_right _ _), Nat.add_sub_cancel_left]
      rfl
    rw [List.length_cons, skipSlashes, hget, Option.bind_eq_bind, Option.bind_some]
    by_cases hc : c = chr '/'
    · have ih := skipSlashes_eq s (x ++ [b]) c
      rw [List.append_assoc, List.length_append, List.length_singleton] at ih
      rw [if_pos hc, List.takeWhile_cons_of_pos (isSlash_iff.mpr hc), List.length_cons,
        ← Nat.add_assoc, Nat.add_right_comm]
      exact ih
    · rw [if_neg hc, List.takeWhile_cons_of_neg (mt isSlash_iff.mp hc)]
      rfl

theorem backSlashes_eq (u x y : List Byte) (b : Byte) :
    backSlashes (x ++ b :: (u ++ y)) x.length u.length =
      some (u.rdropWhile isSlash).length := by
  induction u using List.reverseRecOn generalizing y with
  | nil => rfl
  | append_singleton u c ih =>
    have hget : (x ++ b :: (u ++ [c] ++ y))[x.length + (u.length + 1)]? = some c := by
      rw [List.getElem?_append_right (Nat.le_add_right _ _), Nat.add_sub_cancel_left,
        List.getElem?_cons_succ, List.append_assoc,
        List.getElem?_append_right (Nat.le_refl _), Nat.sub_self]
      rfl
    rw [List.length_append, List.length_singleton, backSlashes, hget, Option.bind_eq_bind,
      Option.bind_some]
    by_cases hc : c = chr '/'
    · rw [if_pos hc, List.rdropWhile_concat_pos _ _ c (isSlash_iff.mpr hc), List.append_assoc]
      exact ih ([c] ++ y)
    · rw [if_neg hc, List.rdropWhile_concat_neg _ _ c (mt isSlash_iff.mp hc), List.length_append]
      rfl

theorem slash_run : ∀ s : List Byte,
    chr '/' :: s = s.takeWhile isSlash ++ chr '/' :: s.dropWhile isSlash
  | [] => rfl
  | c :: s => by
    by_cases hc : isSlash c = true
    · rw [List.takeWhile_cons_of_pos hc, List.dropWhile_cons_of_pos hc, isSlash_iff.mp hc,
        List.cons_append, ← slash_run s]
    · rw [List.takeWhile_cons_of_neg hc, List.dropWhile_cons_of_neg hc]
      rfl

/-! ## The path -/

/-- The path of an origin-form target: what stands before the first `?`, with one slash at its head
and, where there is no query, none at its end. -/
def pathOf (t : List Byte) : List Byte :=
  let path := (t.takeWhile fun b => decide (b ≠ chr '?')).dropWhile isSlash
  if chr '?' ∈ t then chr '/' :: path else chr '/' :: path.rdropWhile isSlash

theorem take_target (hhdr : hdr = x ++ (t ++ y)) : hdr.take (x.length + t.length) = x ++ t := by
  rw [hhdr, ← List.append_assoc, ← List.length_append, List.take_left]

/-- The bytes of the slice. -/
def Slice.text (hdr : List Byte) (s : Slice) : List Byte := (hdr.drop s.pos).take s.size

theorem Slice.text_append (x s y : List Byte) :
    Slice.text (x ++ (s ++ y)) ⟨x.length, s.length⟩ = s := by
  rw [Slice.text, List.drop_left, List.take_left]

theorem ne_of_notMem {p : List Byte} {c : Byte} (hp : c ∉ p) :
    ∀ b ∈ p, decide (b ≠ c) = true := by
  intro b hb
  rw [decide_eq_true_eq]
  intro hbc
  exact hp (hbc ▸ hb)

theorem takeWhile_before {p q : List Byte} {c : Byte} (hp : c ∉ p) :
    ((p ++ c :: q).takeWhile fun b => decide (b ≠ c)) = p := by
  rw [List.takeWhile_append_of_pos (ne_of_notMem hp), List.takeWhile_cons_of_neg (by simp),
    List.append_nil]

theorem takeWhile_whole {p : List Byte} {c : Byte} (hp : c ∉ p) :
    (p.takeWhile fun b => decide (b ≠ c)) = p :=
  List.takeWhile_eq_self_iff.mpr (ne_of_notMem hp)

theorem slashes_no_query (s : List Byte) : chr '?' ∉ s.takeWhile isSlash ++ [chr '/'] := by
  intro hmem
  rcases List.mem_append.mp hmem with h | h
  · exact absurd (List.mem_takeWhile_imp h) (by decide)
  · exact absurd (List.mem_singleton.mp h) (by decide)

theorem dropWhile_slashes (s p : List Byte) :
    (s.takeWhile isSlash ++ chr '/' :: p).dropWhile isSlash = p.dropWhile isSlash := by
  rw [List.dropWhile_append_of_pos fun c hc => List.mem_takeWhile_imp hc]
  exact List.dropWhile_cons_of_pos (by decide)

theorem dropWhile_rest {p q : List Byte} (h : s.dropWhile isSlash = p ++ q) :
    p.dropWhile isSlash = p := by
  cases p with
  | nil => rfl
  | cons c p =>
    have hnot := List.head?_dropWhile_not isSlash s
    rw [h] at hnot
    exact List.dropWhile_cons_of_neg (Bool.eq_false_iff.mp hnot)

theorem pathOf_query {p q : List Byte} (hpq : s.dropWhile isSlash = p ++ chr '?' :: q)
    (ht : t = (s.takeWhile isSlash ++ chr '/' :: p) ++ chr '?' :: q)
    (hpath : chr '?' ∉ s.takeWhile isSlash ++ chr '/' :: p) : pathOf t = chr '/' :: p := by
  have hmem : chr '?' ∈ t := by
    rw [ht]
    exact List.mem_append_right _ List.mem_cons_self
  rw [pathOf, if_pos hmem, ht, takeWhile_before hpath, dropWhile_slashes, dropWhile_rest hpq]

theorem pathOf_noquery (hmem : chr '?' ∉ t)
    (ht : t = s.takeWhile isSlash ++ chr '/' :: s.dropWhile isSlash) :
    pathOf t = chr '/' :: (s.dropWhile isSlash).rdropWhile isSlash := by
  rw [pathOf, if_neg hmem, takeWhile_whole hmem, ht, dropWhile_slashes,
    List.dropWhile_idempotent]

section
variable {a p q : List Byte}

theorem uriPath_query (ht : t = (a ++ chr '/' :: p) ++ chr '?' :: q)
    (hpath : chr '?' ∉ a ++ chr '/' :: p) (hhdr : hdr = x ++ (t ++ y))
    (hskip : skipSlashes hdr (x.length + t.length - 1 - x.length) x.length =
      some (x.length + a.length)) :
    uriPath hdr x.length (x.length + t.length) =
      some (⟨x.length + a.length, (chr '/' :: p).length⟩,
        (memChr t (chr '?')).map fun i => ⟨x.length + i + 1, t.length - (i + 1)⟩) := by
  have hsplit : x ++ t = (x ++ a) ++ (chr '/' :: p ++ chr '?' :: q) := by
    rw [ht]
    simp only [List.append_assoc]
  have hfind : memChrOff (x.length + a.length) (x ++ t) (chr '?') =
      some (x.length + a.length + (chr '/' :: p).length) := by
    rw [hsplit]
    apply memChrOff_append List.length_append.symm
    intro h
    exact hpath (List.mem_append_right _ h)
  have hchr : memChr t (chr '?') = some (a.length + (chr '/' :: p).length) := by
    rw [ht, memChr_append q hpath, List.length_append]
  have hend : x.length + t.length - (x.length + (a.length + (chr '/' :: p).length) + 1) =
      t.length - (a.length + (chr '/' :: p).length + 1) := by
    rw [Nat.add_assoc, Nat.add_sub_add_left]
  rw [uriPath, hskip, Option.bind_eq_bind, Option.bind_some, take_target hhdr, hfind,
    hchr, Option.map_some]
  dsimp only
  rw [Nat.add_sub_cancel_left, Nat.add_assoc x.length a.length, hend]
  rfl

theorem uriPath_noquery (ht : t = a ++ chr '/' :: u) (hmem : chr '?' ∉ t)
    (hhdr : hdr = x ++ (t ++ y))
    (hskip : skipSlashes hdr (x.length + t.length - 1 - x.length) x.length =
      some (x.length + a.length)) :
    uriPath hdr x.length (x.length + t.length) =
      some (⟨x.length + a.length, (u.rdropWhile isSlash).length + 1⟩,
        (memChr t (chr '?')).map fun i => ⟨x.length + i + 1, t.length - (i + 1)⟩) := by
  have hfind : memChrOff (x.length + a.length) (x ++ t) (chr '?') = none := by
    apply memChrOff_none
    rw [ht, ← List.append_assoc, ← List.length_append, List.drop_left]
    intro h
    apply hmem
    rw [ht]
    exact List.mem_append_right _ h
  have hlen : t.length = a.length + (u.length + 1) := by
    rw [ht, List.length_append, List.length_cons]
  have hleft : x.length + t.length - 1 - (x.length + a.length) = u.length := by omega
  have hsplit : hdr = (x ++ a) ++ chr '/' :: (u ++ y) := by
    rw [hhdr, ht]
    simp only [List.append_assoc, List.cons_append]
  have hback : backSlashes hdr (x.length + a.length) u.length =
      some (u.rdropWhile isSlash).length := by
    rw [hsplit, ← List.length_append, backSlashes_eq]
  rw [uriPath, hskip, Option.bind_eq_bind, Option.bind_some, take_target hhdr, hfind,
    memChr_none.mpr hmem]
  dsimp only
  rw [if_neg (by omega), hleft, hback]
  rfl

end

/-- An origin-form target is its path, and its query behind the first `?`. -/
theorem uriPath_origin (ht : t = chr '/' :: s) (hhdr : hdr = x ++ (t ++ y)) :
    uriPath hdr x.length (x.length + t.length) =
        some (⟨x.length + (s.takeWhile isSlash).length, (pathOf t).length⟩,
          (memChr t (chr '?')).map fun i => ⟨x.length + i + 1, t.length - (i + 1)⟩) ∧
      Slice.text hdr ⟨x.length + (s.takeWhile isSlash).length, (pathOf t).length⟩ = pathOf t := by
  have hrun : t = s.takeWhile isSlash ++ chr '/' :: s.dropWhile isSlash := by
    rw [ht, slash_run]
  have hskip : skipSlashes hdr (x.length + t.length - 1 - x.length) x.length =
      some (x.length + (s.takeWhile isSlash).length) := by
    have hfuel : x.length + t.length - 1 - x.length = s.length := by
      rw [ht, List.length_cons]
      omega
    rw [hfuel, hhdr, ht]
    exact skipSlashes_eq s x (chr '/')
  -- no `?` stands among the slashes of the head
  by_cases hmark : chr '?' ∈ s.dropWhile isSlash
  · obtain ⟨p, q, hpq, hp⟩ := List.eq_append_cons_of_mem hmark
    have hpath : chr '?' ∉ s.takeWhile isSlash ++ chr '/' :: p := by
      intro h
      rw [List.append_cons, List.mem_append] at h
      rcases h with h | h
      · exact slashes_no_query s h
      · exact hp h
    have hcut : t = (s.takeWhile isSlash ++ chr '/' :: p) ++ chr '?' :: q := by
      rw [hrun, hpq, List.append_assoc, List.cons_append]
    have hsplit : hdr = (x ++ s.takeWhile isSlash) ++ (chr '/' :: p ++ (chr '?' :: q ++ y)) := by
      rw [hhdr, hcut]
      simp only [List.append_assoc]
    rw [pathOf_query hpq hcut hpath]
    refine ⟨uriPath_query hcut hpath hhdr hskip, ?_⟩
    rw [← List.length_append, hsplit, Slice.text_append]
  · have hmem : chr '?' ∉ t := by
      intro h
      rw [hrun, List.append_cons, List.mem_append] at h
      rcases h with h | h
      · exact slashes_no_query s h
      · exact hmark h
    obtain ⟨z, hz⟩ := List.rdropWhile_prefix isSlash (s.dropWhile isSlash)
    have hsplit : hdr = (x ++ s.takeWhile isSlash) ++
        ((chr '/' :: (s.dropWhile isSlash).rdropWhile isSlash) ++ (z ++ y)) := by
      rw [hhdr]
      conv_lhs => rw [hrun, ← hz]
      simp only [List.append_assoc, List.cons_append]
    rw [pathOf_noquery hmem hrun]
    refine ⟨uriPath_noquery hrun hmem hhdr hskip, ?_⟩
    rw [← List.length_append, hsplit, Slice.text_append]

/-! ## The scheme and the host -/

theorem memmem_none_iff {pat text : List Byte} (hne : pat ≠ []) :
    memmem pat text = none ↔ ¬ pat <:+: text := by
  rw [memmem_eq_none hne, List.infix_iff_prefix_suffix]
  constructor
  · rintro h ⟨r, hpre, hsuf⟩
    rw [List.suffix_iff_eq_drop.mp hsuf] at hpre
    exact h _ hpre
  · intro h k hpre
    exact h ⟨_, hpre, List.drop_suffix k text⟩

theorem memChr_getD (l : List Byte) (c : Byte) :
    (memChr l c).getD l.length = (l.takeWhile fun b => decide (b ≠ c)).length := by
  by_cases hc : c ∈ l
  · obtain ⟨p, q, rfl, hp⟩ := List.eq_append_cons_of_mem hc
    rw [memChr_append q hp, Option.getD_some, takeWhile_before hp]
  · rw [memChr_none.mpr hc, Option.getD_none, takeWhile_whole hc]

theorem uriAuthority_none (hhdr : hdr = x ++ (t ++ y)) (hnone : memmem schemeEnd t = none) :
    uriAuthority hdr x.length (x.length + t.length) = ⟨none, none, x.length⟩ := by
  rw [uriAuthority, take_target hhdr, memFindOff, List.drop_left, hnone]
  rfl

/-- The host goes from the `://` up to the next slash. -/
def hostSize (t : List Byte) (i : Nat) : Nat :=
  ((t.drop (i + 3)).takeWhile fun b => decide (b ≠ chr '/')).length

theorem uriAuthority_absolute {i : Nat} (hhdr : hdr = x ++ (t ++ y))
    (hsome : memmem schemeEnd t = some i) :
    (uriAuthority hdr x.length (x.length + t.length)).scheme = some ⟨x.length, i⟩ ∧
      (uriAuthority hdr x.length (x.length + t.length)).host =
        some ⟨x.length + i + 3, hostSize t i⟩ := by
  have hfits : i + 3 ≤ t.length := by
    have hbounds := @memFindOff_bounds schemeEnd t (by decide) 0 (0 + i)
      (by rw [memFindOff, List.drop_zero, hsome]; rfl)
    have h3 : schemeEnd.length = 3 := rfl
    omega
  have hdrop : (x ++ t).drop (x.length + i + 3) = t.drop (i + 3) := by
    rw [Nat.add_assoc, List.drop_length_add_append]
  have hhost : (memChrOff (x.length + i + 3) (x ++ t) (chr '/')).getD (x.length + t.length) =
      x.length + i + 3 + hostSize t i := by
    have hlen : x.length + t.length = x.length + i + 3 + (t.drop (i + 3)).length := by
      rw [List.length_drop]
      omega
    rw [memChrOff, hdrop, ← memChr, hostSize, ← memChr_getD, hlen]
    cases memChr (t.drop (i + 3)) (chr '/') with
    | none => rfl
    | some q => rfl
  rw [uriAuthority, take_target hhdr, memFindOff, List.drop_left, hsome, Option.map_some]
  dsimp only
  rw [hhost, Nat.add_sub_cancel_left, Nat.add_sub_cancel_left]
  exact ⟨rfl, rfl⟩

/-! ## What a request line must be parsed into -/

/-- The method and the target are exact and the other slices lie in the target.  A target that
begins with a slash is a path and a query.  Otherwise scheme and host stand around the first
`://`. -/
structure RightSlices (hdr m t : List Byte) (r : ReqLine) : Prop where
  method : r.method = ⟨0, m.length⟩
  uri : r.uri = ⟨m.length + 1, t.length⟩
  inside : ∀ part ∈ [r.scheme, r.host, r.absPath, r.query], ∀ s ∈ part,
    s.Inside (m.length + 1) (m.length + 1 + t.length)
  origin : m ≠ connectName → t.head? = some (chr '/') → r.scheme = none ∧ r.host = none ∧
    (∃ s, r.absPath = some s ∧ s.pos = m.length + 1 + (t.tail.takeWhile isSlash).length ∧
      s.text hdr = pathOf t) ∧
    r.query = (memChr t (chr '?')).map fun i => ⟨m.length + 1 + i + 1, t.length - (i + 1)⟩
  absolute : m ≠ connectName → t.head? ≠ some (chr '/') → ∀ i, memmem schemeEnd t = some i →
    r.scheme = some ⟨m.length + 1, i⟩ ∧ r.host = some ⟨m.length + 1 + i + 3, hostSize t i⟩

section
variable {scheme host absPath query : Option Slice}

theorem IsReqLine.around (h : IsReqLine hdr m t v tail) :
    hdr = (m ++ [sp]) ++ (t ++ (sp :: v ++ tail)) := by
  rw [h.eq]
  simp only [List.append_assoc, List.cons_append, List.nil_append]

theorem IsReqLine.inside (h : IsReqLine hdr m t v tail)
    (hparts : uriParts hdr (httpGetMethodFast m) (m.length + 1) (m.length + 1 + t.length) =
      some (scheme, host, absPath, query)) :
    ∀ part ∈ [scheme, host, absPath, query], ∀ s ∈ part,
      s.Inside (m.length + 1) (m.length + 1 + t.length) := by
  have hlen : hdr.length = (m ++ [sp]).length + (t.length + (sp :: v ++ tail).length) := by
    conv_lhs => rw [h.around]
    rw [List.length_append, @List.length_append _ t]
  rw [List.length_append, List.length_singleton] at hlen
  obtain ⟨b, s, ht, -⟩ := h.head
  have hpos : 0 < t.length := by
    rw [ht]
    exact Nat.succ_pos _
  -- the parts are the ones `uriParts_some` speaks of
  obtain ⟨scheme', host', absPath', query', hparts', hinside⟩ := @uriParts_some hdr (m.length + 1)
    (m.length + 1 + t.length) (httpGetMethodFast m) (by omega) (by omega)
  rw [hparts, Option.some.injEq, Prod.mk.injEq, Prod.mk.injEq, Prod.mk.injEq] at hparts'
  obtain ⟨rfl, rfl, rfl, rfl⟩ := hparts'
  exact hinside

theorem IsReqLine.parts_origin (h : IsReqLine hdr m t v tail) (hconnect : m ≠ connectName)
    (hslash : t.head? = some (chr '/')) (hno : ¬ schemeEnd <:+: t)
    (hparts : uriParts hdr (httpGetMethodFast m) (m.length + 1) (m.length + 1 + t.length) =
      some (scheme, host, absPath, query)) :
    scheme = none ∧ host = none ∧
      (∃ s, absPath = some s ∧ s.pos = m.length + 1 + (t.tail.takeWhile isSlash).length ∧
        s.text hdr = pathOf t) ∧
      query = (memChr t (chr '?')).map fun i => ⟨m.length + 1 + i + 1, t.length - (i + 1)⟩ := by
  have hx : m.length + 1 = (m ++ [sp]).length := by
    rw [List.length_append, List.length_singleton]
  have hcons : t = chr '/' :: t.tail := List.eq_cons_of_mem_head? hslash
  have hnone := (memmem_none_iff (by decide)).mpr hno
  obtain ⟨hpath, htext⟩ := uriPath_origin hcons h.around
  have hauth := uriAuthority_none h.around hnone
  rw [hx] at hparts ⊢
  rw [uriParts_eq (mt methodConnect_iff.mp hconnect) (by rw [hauth]; exact hpath), hauth,
    Option.some.injEq, Prod.mk.injEq, Prod.mk.injEq, Prod.mk.injEq] at hparts
  obtain ⟨rfl, rfl, rfl, rfl⟩ := hparts
  exact ⟨rfl, rfl, ⟨_, rfl, rfl, htext⟩, rfl⟩

theorem IsReqLine.parts_absolute (h : IsReqLine hdr m t v tail) (hconnect : m ≠ connectName)
    {i : Nat} (hsome : memmem schemeEnd t = some i)
    (hparts : uriParts hdr (httpGetMethodFast m) (m.length + 1) (m.length + 1 + t.length) =
      some (scheme, host, absPath, query)) :
    scheme = some ⟨m.length + 1, i⟩ ∧ host = some ⟨m.length + 1 + i + 3, hostSize t i⟩ := by
  have hx : m.length + 1 = (m ++ [sp]).length := by
    rw [List.length_append, List.length_singleton]
  obtain ⟨hscheme, hhost⟩ := uriAuthority_absolute h.around hsome
  rw [hx] at hparts ⊢
  rw [uriParts, if_neg (mt methodConnect_iff.mp hconnect)] at hparts
  dsimp only at hparts
  rw [Option.bind_eq_bind, Option.bind_eq_some_iff] at hparts
  obtain ⟨parts, -, hparts⟩ := hparts
  rw [← hscheme, ← hhost]
  cases hparts
  exact ⟨rfl, rfl⟩

theorem IsReqLine.right_iff (h : IsReqLine hdr m t v tail) {lineSize methodCode protoVer : Nat}
    (hparts : uriParts hdr (httpGetMethodFast m) (m.length + 1) (m.length + 1 + t.length) =
      some (scheme, host, absPath, query)) :
    RightSlices hdr m t ⟨lineSize, ⟨0, m.length⟩, methodCode, ⟨m.length + 1, t.length⟩, scheme,
        host, absPath, query, protoVer⟩ ↔
      (m ≠ connectName → t.head? = some (chr '/') → ¬ schemeEnd <:+: t) := by
  constructor
  · intro hright hconnect hslash hin
    -- the scheme would be what stands before the `://`
    cases hfind : memmem schemeEnd t with
    | none => exact (memmem_none_iff (by decide)).mp hfind hin
    | some i =>
      obtain ⟨hscheme, -⟩ := h.parts_absolute hconnect hfind hparts
      obtain ⟨hnone, -⟩ := hright.origin hconnect hslash
      rw [hscheme] at hnone
      cases hnone
  · intro hno
    exact {
      method := rfl
      uri := rfl
      inside := h.inside hparts
      origin := fun hconnect hslash =>
        h.parts_origin hconnect hslash (hno hconnect hslash) hparts
      absolute := fun hconnect _ i hi => h.parts_absolute hconnect hi hparts }

end

/-- The parser reads nothing behind a header if and only if it is none of the overrunning ones.  A
request line is taken apart as it must be if and only if its target, where it begins with a slash,
has no `://` in it. -/
theorem httpParseReqLine_right_iff (hdr : List Byte) :
    (httpParseReqLine hdr ≠ none ↔ ¬ Overruns hdr) ∧
    ∀ m t v tail, IsReqLine hdr m t v tail →
      ((∃ r, httpParseReqLine hdr = some (.ok r) ∧ RightSlices hdr m t r) ↔
        (m ≠ connectName → t.head? = some (chr '/') → ¬ schemeEnd <:+: t)) := by
  refine ⟨not_congr httpParseReqLine_none, fun m t v tail h => ?_⟩
  obtain ⟨scheme, host, absPath, query, protoVer, hparts, hrun⟩ := httpParseReqLine_line h
  rw [← h.right_iff hparts]
  constructor
  · rintro ⟨r, hr, hright⟩
    rw [hrun, Option.some.injEq, Except.ok.injEq] at hr
    rw [hr]
    exact hright
  · intro hright
    exact ⟨_, hrun, hright⟩

def originText : List Byte := "//a?q".toList.map chr

def protoText : List Byte := "HTTP/1.1".toList.map chr

theorem isReqLine_origin : IsReqLine (("GET //a?q HTTP/1.1".toList.map chr) ++ crlf)
    ("GET".toList.map chr) originText protoText crlf where
  eq := by decide
  capital := ⟨_, _, rfl, by decide, by decide⟩
  method := by decide
  target := by decide
  head := ⟨_, _, rfl, by decide⟩
  version := ⟨chr '1', chr '1', by decide, by decide, by decide⟩
  line := by rw [IsLine]; decide
  tail := .inr ⟨[], rfl⟩

theorem httpParseReqLine_right_origin :
    IsReqLine (("GET //a?q HTTP/1.1".toList.map chr) ++ crlf) ("GET".toList.map chr) originText
      protoText crlf ∧
    ∃ r, httpParseReqLine (("GET //a?q HTTP/1.1".toList.map chr) ++ crlf) = some (.ok r) ∧
      RightSlices (("GET //a?q HTTP/1.1".toList.map chr) ++ crlf) ("GET".toList.map chr)
        originText r :=
  ⟨isReqLine_origin, ((httpParseReqLine_right_iff _).2 _ _ _ _ isReqLine_origin).mpr
    fun _ _ => by decide⟩

/-- The query of this target is a URL. -/
def redirectText : List Byte := "/r?u=http://x/y".toList.map chr

def redirectLine : List Byte := lineText ("GET".toList.map chr) redirectText protoText

/-- The scheme of the redirection is `/r?u=http`.  Where only blanks follow the method, a byte
behind the header is read. -/
theorem httpParseReqLine_not_right :
    (IsReqLine redirectLine ("GET".toList.map chr) redirectText protoText [] ∧
      ¬ ∃ r, httpParseReqLine redirectLine = some (.ok r) ∧
        RightSlices redirectLine ("GET".toList.map chr) redirectText r) ∧
    httpParseReqLine ("GET         ".toList.map chr) = none := by
  refine ⟨⟨?_, ?_⟩, by decide⟩
  · exact {
      eq := (List.append_nil _).symm
      capital := ⟨_, _, rfl, by decide, by decide⟩
      method := by decide
      target := by decide
      head := ⟨_, _, rfl, by decide⟩
      version := ⟨chr '1', chr '1', by decide, by decide, by decide⟩
      line := by
        rw [IsLine]
        decide
      tail := .inl rfl }
  · rintro ⟨r, hr, hright⟩
    have hscheme : (httpParseReqLine redirectLine).bind (fun e => e.toOption.map ReqLine.scheme) =
        some (some ⟨4, 9⟩) := by decide
    rw [hr] at hscheme
    obtain ⟨hnone, -⟩ := hright.origin (by decide) rfl
    have hsome : some r.scheme = some (some ⟨4, 9⟩) := hscheme
    rw [hnone] at hsome
    exact absurd hsome (by decide)

end Http
