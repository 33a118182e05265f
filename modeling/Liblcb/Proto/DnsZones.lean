import Liblcb.Proto.DnsNames
import Liblcb.Utils.MemRead

/-!
# Zones of a domain name

`DomainNameZonesReverce`, `DomainNameZonesGetCount`, `DomainNameZonesLeft` and
`DomainNameZonesRight` of `proto/dns.h`.  A name is any text; its zones are what stands between the
dots, and may be empty.  The search backwards begins one byte too far to the left of a dot it has
found, and so misses a dot right before it.
-/

namespace Dns

open Mem Wire Buffer

/-- Copies what stands at `srcPos` so that it ends before `dstPos`. -/
def copyBack (dst src : List Byte) (dstPos srcPos cpSize : Nat) : Option (List Byte) := do
  let bs ← readAt src srcPos cpSize
  if cpSize ≤ dstPos ∧ dstPos ≤ dst.length then some (splice dst (dstPos - cpSize) bs) else none

/-- The loop of `DomainNameZonesReverce`: `src_dot_pos` and `src_pos` are the same at its head. -/
def zonesReverceLoop (src : List Byte) (nameLen : Nat) :
    Nat → List Byte → Nat → Nat → Option (List Byte)
  | 0, _, _, _ => none
  | fuel + 1, dst, srcPos, dstPos =>
    match memChrOff srcPos (src.take nameLen) dot with
    | none => do
      let cpSize := nameLen - srcPos + 1
      let dst ← copyBack dst src dstPos srcPos cpSize
      let dst ← put dst (dstPos - cpSize + (cpSize - 1)) dot
      put dst nameLen 0
    | some srcDotPos => do
      let cpSize := srcDotPos - srcPos + 1
      let dst ← copyBack dst src dstPos srcPos cpSize
      zonesReverceLoop src nameLen fuel dst (srcDotPos + 1) (dstPos - cpSize)

def domainNameZonesReverce (dst src : List Byte) (nameLen : Nat) : Option (List Byte) :=
  if nameLen = 0 then some dst else zonesReverceLoop src nameLen (nameLen + 1) dst 0 (nameLen + 1)

def zonesCountLoop (name : List Byte) : Nat → Nat → Nat → Option Nat
  | 0, _, _ => none
  | fuel + 1, dotPos, ret =>
    match memChrOff dotPos name dot with
    | none => some ret
    | some d => zonesCountLoop name fuel (d + 1) (ret + 1)

def domainNameZonesGetCount (name : List Byte) : Option Nat :=
  if name.length = 0 then some 0 else zonesCountLoop name (name.length + 1) 0 1

def zonesLeftLoop (name : List Byte) : Nat → Nat → Nat
  | 0, dotPos => dotPos
  | zonesCount + 1, dotPos =>
    match memChrOff dotPos name dot with
    | none => name.length + 1
    | some d => zonesLeftLoop name zonesCount (d + 1)

/-- `DomainNameZonesLeft`: the length; the zones begin where the name does. -/
def domainNameZonesLeft (name : List Byte) (zonesCount : Nat) : Nat :=
  if name.length = 0 ∨ zonesCount = 0 then 0 else zonesLeftLoop name zonesCount 0 - 1

/-- The dot before `dotPos`, as the loop of `DomainNameZonesRight` searches for it. -/
def zoneDot (name : List Byte) (dotPos : Nat) : Option Nat :=
  memRchrOff (name.length + 1 - dotPos) name dot

def zonesRightLoop (name : List Byte) : Nat → Nat → Option Nat
  | 0, dotPos => some dotPos
  | zonesCount + 1, dotPos => (zoneDot name dotPos).bind (zonesRightLoop name zonesCount)

/-- `DomainNameZonesRight`: where the zones begin, and the length. -/
def domainNameZonesRight (name : List Byte) (zonesCount : Nat) : Nat × Nat :=
  if name.length = 0 then (0, 0)
  else if zonesCount = 0 then (name.length, 0)
  else
    match zonesRightLoop name zonesCount (name.length + 1) with
    | none => (0, name.length)
    | some dotPos => (dotPos + 1, name.length - (dotPos + 1))

/-! ## Zones -/

/-- What stands between the dots; the empty name has no zones. -/
def zones (name : List Byte) : List (List Byte) := if name = [] then [] else name.splitOn dot

/-- The zones with dots between them. -/
def joined (ls : List (List Byte)) : List Byte := [dot].intercalate ls

theorem joined_cons (l l' : List Byte) (ls : List (List Byte)) :
    joined (l :: l' :: ls) = l ++ dot :: joined (l' :: ls) := by
  rw [joined, List.intercalate_cons_cons, joined]
  simp

theorem joined_concat (l : List Byte) (ls : List (List Byte)) :
    joined (l :: ls) ++ [dot] = dotted (l :: ls) := (dotted_eq l ls).symm

theorem length_dotted (l : List Byte) (ls : List (List Byte)) :
    (dotted (l :: ls)).length = (joined (l :: ls)).length + 1 := by
  rw [← joined_concat, List.length_append, List.length_singleton]

theorem dotted_append (ls ls' : List (List Byte)) : dotted (ls ++ ls') = dotted ls ++ dotted ls' := by
  rw [dotted, List.flatMap_append, dotted, dotted]

theorem dotted_singleton (l : List Byte) : dotted [l] = l ++ [dot] := by
  rw [dotted, List.flatMap_singleton]

theorem joined_zones (name : List Byte) : joined (zones name) = name := by
  rw [zones]
  split
  · next h => rw [h]; rfl
  · exact List.intercalate_splitOn dot

theorem zones_ne_nil {name : List Byte} (h : name ≠ []) : zones name ≠ [] := by
  rw [zones, if_neg h]
  exact List.splitOn_ne_nil dot name

theorem dot_notMem_of_mem_zones {name l : List Byte} (h : l ∈ zones name) : dot ∉ l := by
  rw [zones] at h
  split at h
  · cases h
  · clear * - h
    induction name generalizing l with
    | nil =>
      rw [List.splitOn_nil, List.mem_singleton] at h
      rw [h]
      exact List.not_mem_nil
    | cons b name ih =>
      rw [List.splitOn_cons_eq_if_modifyHead] at h
      split at h
      · rcases List.mem_cons.mp h with rfl | h
        · exact List.not_mem_nil
        · exact ih h
      · next hb =>
          obtain ⟨head, rest, hsplit⟩ := List.exists_cons_of_ne_nil (List.splitOn_ne_nil dot name)
          rw [hsplit, List.modifyHead_cons] at h
          rcases List.mem_cons.mp h with rfl | h
          · rw [List.mem_cons, not_or]
            refine ⟨fun heq => hb (beq_iff_eq.mpr heq.symm), ih ?_⟩
            rw [hsplit]
            exact List.mem_cons_self
          · apply ih
            rw [hsplit]
            exact List.mem_cons_of_mem _ h

theorem memChrOff_last {pre l : List Byte} (h : dot ∉ l) :
    memChrOff pre.length (pre ++ l) dot = none := by
  rw [memChrOff, List.drop_left, Option.map_eq_none_iff, List.idxOf?_eq_none_iff]
  exact h

theorem memChrOff_joined {l l' : List Byte} (pre : List Byte) (ls : List (List Byte)) (h : dot ∉ l) :
    memChrOff pre.length (pre ++ joined (l :: l' :: ls)) dot = some (pre.length + l.length) := by
  rw [joined_cons]
  exact memChrOff_append rfl h

/-! ## Reversing -/

section

variable {l : List Byte} {ls : List (List Byte)} {dst src pre tail : List Byte} {z : Byte}

theorem length_dotted_reverse (ls : List (List Byte)) :
    (dotted ls.reverse).length = (dotted ls).length := by
  induction ls with
  | nil => rfl
  | cons l ls ih =>
    rw [List.reverse_cons, dotted_append, List.length_append, ih, dotted_singleton,
      List.length_append, List.length_singleton, dotted_cons]
    omega

theorem joined_reverse_concat (h : ls ≠ []) : joined ls.reverse ++ [dot] = dotted ls.reverse := by
  obtain ⟨l', ls', hrev⟩ := List.exists_cons_of_ne_nil (mt List.reverse_eq_nil_iff.mp h)
  rw [hrev]
  exact joined_concat l' ls'

theorem length_joined_reverse (h : ls ≠ []) : (joined ls.reverse).length = (joined ls).length := by
  have hrev := congrArg List.length (joined_reverse_concat h)
  obtain ⟨l, ls, rfl⟩ := List.exists_cons_of_ne_nil h
  rw [List.length_append, List.length_singleton, length_dotted_reverse, length_dotted] at hrev
  omega

theorem copyBack_eq {dst src bs rest : List Byte} {dstPos : Nat} (h : bs.length ≤ dstPos)
    (hroom : dstPos ≤ dst.length) (hsrc : src = pre ++ (bs ++ rest)) :
    copyBack dst src dstPos pre.length bs.length = some (splice dst (dstPos - bs.length) bs) := by
  have hlen : pre.length + bs.length ≤ src.length := by
    rw [hsrc, List.length_append, List.length_append]
    omega
  rw [copyBack, readAt_eq hlen, Option.bind_eq_bind, Option.bind_some, if_pos ⟨h, hroom⟩, hsrc,
    List.drop_left, List.take_left]

theorem zonesReverceLoop_last {fuel : Nat} (hdot : dot ∉ l) (hsrc : src = pre ++ (l ++ z :: tail))
    (hroom : pre.length + l.length < dst.length) :
    zonesReverceLoop src (pre.length + l.length) (fuel + 1) dst pre.length (l.length + 1) =
      put (splice dst 0 (l ++ [dot])) (pre.length + l.length) 0 := by
  have htake : src.take (pre.length + l.length) = pre ++ l := by
    rw [hsrc, ← List.append_assoc, ← List.length_append, List.take_left]
  have hnone : memChrOff pre.length (src.take (pre.length + l.length)) dot = none := by
    rw [htake]
    exact memChrOff_last hdot
  have hcp : pre.length + l.length - pre.length + 1 = (l ++ [z]).length := by
    rw [List.length_append, List.length_singleton]
    omega
  have hpos : l.length + 1 = (l ++ [z]).length := by
    rw [List.length_append, List.length_singleton]
  -- the byte behind the name is copied with the zone, and the dot goes over it
  have hcopy : copyBack dst src (l.length + 1) pre.length (l ++ [z]).length =
      some (splice dst 0 (l ++ [z])) := by
    rw [@copyBack_eq pre dst src (l ++ [z]) tail _ (Nat.le_of_eq hpos.symm) (by omega)
      (by rw [hsrc]; simp), hpos, Nat.sub_self]
  have hlen : 0 + (l ++ [z]).length ≤ dst.length := by
    rw [Nat.zero_add, ← hpos]
    omega
  have hat : l.length + 1 - (l ++ [z]).length + ((l ++ [z]).length - 1) = 0 + l.length := by
    rw [← hpos]
    omega
  have hput : put (splice dst 0 (l ++ [z])) (0 + l.length) dot = some (splice dst 0 (l ++ [dot])) := by
    rw [put_eq dot (by rw [length_splice hlen]; omega)]
    exact congrArg some (splice_over_end rfl hlen)
  rw [zonesReverceLoop, hnone]
  dsimp only
  rw [hcp, hcopy, Option.bind_eq_bind, Option.bind_some, hat, hput, Option.bind_some]

theorem zonesReverceLoop_next {l' : List Byte} {fuel : Nat} (hdot : dot ∉ l)
    (hsrc : src = pre ++ (joined (l :: l' :: ls) ++ z :: tail))
    (hroom : pre.length + (joined (l :: l' :: ls)).length < dst.length) :
    zonesReverceLoop src (pre.length + (joined (l :: l' :: ls)).length) (fuel + 1) dst pre.length
        ((joined (l :: l' :: ls)).length + 1) =
      zonesReverceLoop src ((pre ++ (l ++ [dot])).length + (joined (l' :: ls)).length) fuel
        (splice dst ((joined (l' :: ls)).length + 1) (l ++ [dot])) (pre ++ (l ++ [dot])).length
        ((joined (l' :: ls)).length + 1) := by
  have hname : joined (l :: l' :: ls) = l ++ dot :: joined (l' :: ls) := joined_cons l l' ls
  have htake : src.take (pre.length + (joined (l :: l' :: ls)).length) =
      pre ++ joined (l :: l' :: ls) := by
    rw [hsrc, ← List.append_assoc, ← List.length_append, List.take_left]
  have hsome : memChrOff pre.length (src.take (pre.length + (joined (l :: l' :: ls)).length)) dot =
      some (pre.length + l.length) := by
    rw [htake]
    exact memChrOff_joined pre ls hdot
  have hlen : (joined (l :: l' :: ls)).length = (l ++ [dot]).length + (joined (l' :: ls)).length := by
    rw [hname]
    simp
    omega
  have hcp : pre.length + l.length - pre.length + 1 = (l ++ [dot]).length := by
    rw [List.length_append, List.length_singleton]
    omega
  have hback : (joined (l :: l' :: ls)).length + 1 - (l ++ [dot]).length =
      (joined (l' :: ls)).length + 1 := by
    rw [hlen]
    omega
  have hcopy : copyBack dst src ((joined (l :: l' :: ls)).length + 1) pre.length
      (l ++ [dot]).length = some (splice dst ((joined (l' :: ls)).length + 1) (l ++ [dot])) := by
    rw [@copyBack_eq pre dst src (l ++ [dot]) (joined (l' :: ls) ++ z :: tail) _ (by omega)
      (by omega) (by rw [hsrc, hname]; simp), hback]
  have hnext : pre.length + l.length + 1 = (pre ++ (l ++ [dot])).length := by simp; omega
  have htotal : pre.length + (joined (l :: l' :: ls)).length =
      (pre ++ (l ++ [dot])).length + (joined (l' :: ls)).length := by
    rw [hlen, @List.length_append _ pre, Nat.add_assoc]
  rw [zonesReverceLoop, hsome]
  dsimp only
  rw [hcp, hcopy, Option.bind_eq_bind, Option.bind_some, hback, hnext, htotal]

theorem zonesReverceLoop_eq : ∀ (ls : List (List Byte)) (l pre dst : List Byte) (fuel : Nat),
    (∀ l' ∈ l :: ls, dot ∉ l') → src = pre ++ (joined (l :: ls) ++ z :: tail) →
    pre.length + (joined (l :: ls)).length < dst.length → ls.length < fuel →
    zonesReverceLoop src (pre.length + (joined (l :: ls)).length) fuel dst pre.length
        ((joined (l :: ls)).length + 1) =
      put (splice dst 0 (dotted (l :: ls).reverse)) (pre.length + (joined (l :: ls)).length) 0
  | _, _, _, _, 0, _, _, _, h => absurd h (Nat.not_lt_zero _)
  | [], l, pre, dst, fuel + 1, hdot, hsrc, hroom, _ => by
    have hl : joined [l] = l := List.intercalate_singleton
    rw [hl] at hsrc hroom ⊢
    rw [zonesReverceLoop_last (hdot l List.mem_cons_self) hsrc hroom, List.reverse_singleton,
      dotted_singleton]
  | l' :: ls, l, pre, dst, fuel + 1, hdot, hsrc, hroom, hfuel => by
    have hname : joined (l :: l' :: ls) = l ++ dot :: joined (l' :: ls) := joined_cons l l' ls
    have hsrc' : src = (pre ++ (l ++ [dot])) ++ (joined (l' :: ls) ++ z :: tail) := by
      rw [hsrc, hname]
      simp
    have hlen : (joined (l :: l' :: ls)).length =
        (l ++ [dot]).length + (joined (l' :: ls)).length := by
      rw [hname]
      simp
      omega
    have htotal : pre.length + (joined (l :: l' :: ls)).length =
        (pre ++ (l ++ [dot])).length + (joined (l' :: ls)).length := by
      rw [hlen, @List.length_append _ pre, Nat.add_assoc]
    have hwritten : (joined (l' :: ls)).length + 1 + (l ++ [dot]).length ≤ dst.length := by
      rw [hlen] at hroom
      omega
    have hrest : (dotted (l' :: ls).reverse).length = (joined (l' :: ls)).length + 1 := by
      rw [length_dotted_reverse, length_dotted]
    rw [zonesReverceLoop_next (hdot l List.mem_cons_self) hsrc hroom,
      zonesReverceLoop_eq ls l' _ _ fuel (fun l hl => hdot l (List.mem_cons_of_mem _ hl)) hsrc'
        (by rw [length_splice hwritten, ← htotal]; exact hroom) (by simpa using hfuel), ← htotal]
    congr 1
    -- the zones written later stand right before this one
    have hreverse : (l :: l' :: ls).reverse = (l' :: ls).reverse ++ [l] := List.reverse_cons
    rw [hreverse, dotted_append, dotted_singleton, ← hrest]
    have hbefore := @splice_before _ dst (l ++ [dot]) (dotted (l' :: ls).reverse) 0
      (by rw [Nat.zero_add, hrest]; exact hwritten)
    rw [Nat.zero_add] at hbefore
    exact hbefore

theorem domainNameZonesReverce_eq {name : List Byte} (hne : name ≠ []) (hsrc : src = name ++ z :: tail)
    (hroom : name.length < dst.length) :
    domainNameZonesReverce dst src name.length =
      some (splice dst 0 (joined (zones name).reverse ++ [0])) := by
  have hzones := zones_ne_nil hne
  obtain ⟨l, ls, hls⟩ := List.exists_cons_of_ne_nil hzones
  have hname : joined (l :: ls) = name := by rw [← hls, joined_zones]
  have hlen : name.length ≠ 0 := mt List.eq_nil_of_length_eq_zero hne
  have hdots : (dotted (l :: ls)).length = name.length + 1 := by rw [length_dotted, hname]
  have hcount := length_le_dotted (l :: ls)
  have hloop := @zonesReverceLoop_eq src tail z ls l [] dst (name.length + 1)
    (fun l' hl' => @dot_notMem_of_mem_zones name l' (by rw [hls]; exact hl'))
    (by rw [hsrc, hname, List.nil_append]) (by rw [hname, List.length_nil]; omega)
    (by rw [List.length_cons] at hcount; omega)
  rw [hname, List.length_nil, Nat.zero_add] at hloop
  have hrev : joined (l :: ls).reverse ++ [dot] = dotted (l :: ls).reverse :=
    joined_reverse_concat (List.cons_ne_nil _ _)
  have hsize : (joined (l :: ls).reverse).length = name.length := by
    rw [length_joined_reverse (List.cons_ne_nil _ _), hname]
  have hfit : 0 + (joined (l :: ls).reverse ++ [dot]).length ≤ dst.length := by
    rw [List.length_append, hsize, List.length_singleton]
    omega
  rw [domainNameZonesReverce, if_neg hlen, hloop, ← hrev, hls,
    put_eq 0 (by rw [length_splice hfit]; exact hroom)]
  have hend := @splice_over_end _ dst (joined (l :: ls).reverse) [dot] [0] 0 rfl hfit
  rw [hsize, Nat.zero_add] at hend
  exact congrArg some hend

end

/-! ## Counting and cutting from the left -/

theorem joined_cons_pre (pre l l' : List Byte) (ls : List (List Byte)) :
    pre ++ joined (l :: l' :: ls) = (pre ++ (l ++ [dot])) ++ joined (l' :: ls) := by
  rw [joined_cons]
  simp

theorem zonesCountLoop_eq : ∀ (ls : List (List Byte)) (l pre : List Byte) (fuel ret : Nat),
    (∀ l' ∈ l :: ls, dot ∉ l') → ls.length < fuel →
    zonesCountLoop (pre ++ joined (l :: ls)) fuel pre.length ret = some (ret + ls.length)
  | _, _, _, 0, _, _, h => absurd h (Nat.not_lt_zero _)
  | [], l, pre, fuel + 1, ret, hdot, _ => by
    have hl : joined [l] = l := List.intercalate_singleton
    rw [hl, zonesCountLoop, memChrOff_last (hdot l List.mem_cons_self)]
    rfl
  | l' :: ls, l, pre, fuel + 1, ret, hdot, hfuel => by
    have hnext : pre.length + l.length + 1 = (pre ++ (l ++ [dot])).length := by simp; omega
    rw [zonesCountLoop, memChrOff_joined pre ls (hdot l List.mem_cons_self)]
    dsimp only
    rw [hnext, joined_cons_pre, zonesCountLoop_eq ls l' _ fuel (ret + 1)
      (fun l hl => hdot l (List.mem_cons_of_mem _ hl)) (by simpa using hfuel), List.length_cons]
    congr 1
    omega

theorem domainNameZonesGetCount_eq (name : List Byte) :
    domainNameZonesGetCount name = some (zones name).length := by
  rw [domainNameZonesGetCount]
  split
  · next h =>
      rw [List.eq_nil_of_length_eq_zero h]
      rfl
  · next h =>
      have hne : name ≠ [] := fun hnil => h (hnil ▸ rfl)
      obtain ⟨l, ls, hls⟩ := List.exists_cons_of_ne_nil (zones_ne_nil hne)
      have hname : joined (l :: ls) = name := by rw [← hls, joined_zones]
      have hcount := length_le_dotted (l :: ls)
      rw [length_dotted, hname, List.length_cons] at hcount
      have hloop := zonesCountLoop_eq ls l [] (name.length + 1) 1
        (fun l' hl' => @dot_notMem_of_mem_zones name l' (by rw [hls]; exact hl')) (by omega)
      rw [hname, List.nil_append] at hloop
      rw [List.length_nil] at hloop
      rw [hloop, hls, List.length_cons, Nat.add_comm]

theorem zonesLeftLoop_eq : ∀ (k : Nat) (ls : List (List Byte)) (pre : List Byte),
    (∀ l ∈ ls, dot ∉ l) → k < ls.length →
    zonesLeftLoop (pre ++ joined ls) k pre.length = pre.length + (dotted (ls.take k)).length
  | 0, _, _, _, _ => rfl
  | _ + 1, [], _, _, h => absurd h (Nat.not_lt_zero _)
  | k + 1, [l], _, _, h => absurd (Nat.lt_of_succ_lt_succ h) (Nat.not_lt_zero _)
  | k + 1, l :: l' :: ls, pre, hdot, h => by
    have hnext : pre.length + l.length + 1 = (pre ++ (l ++ [dot])).length := by simp; omega
    rw [zonesLeftLoop, memChrOff_joined pre ls (hdot l List.mem_cons_self)]
    dsimp only
    rw [hnext, joined_cons_pre, zonesLeftLoop_eq k (l' :: ls) _
      (fun l hl => hdot l (List.mem_cons_of_mem _ hl)) (Nat.lt_of_succ_lt_succ h),
      List.take_succ_cons, dotted_cons, ← hnext]
    omega

/-! ## Cutting from the right -/

theorem joined_split : ∀ (i : Nat) (ls : List (List Byte)), i < ls.length →
    joined ls = dotted (ls.take i) ++ joined (ls.drop i)
  | 0, _, _ => rfl
  | _ + 1, [], h => absurd h (Nat.not_lt_zero _)
  | _ + 1, [l], h => absurd (Nat.lt_of_succ_lt_succ h) (Nat.not_lt_zero _)
  | i + 1, l :: l' :: ls, h => by
    rw [joined_cons, List.take_succ_cons, List.drop_succ_cons,
      joined_split i (l' :: ls) (Nat.lt_of_succ_lt_succ h), dotted, dotted, List.flatMap_cons]
    simp

section

variable {name : List Byte} {ls : List (List Byte)} {i d : Nat} {r : Option Nat}

/-- Where the zone `i` begins. -/
def zoneStart (ls : List (List Byte)) (i : Nat) : Nat := (dotted (ls.take i)).length

theorem zoneStart_succ {l : List Byte} (h : ls[i]? = some l) :
    zoneStart ls (i + 1) = zoneStart ls i + l.length + 1 := by
  rw [zoneStart, List.take_add_one, h, Option.toList_some, dotted_append, List.length_append,
    dotted_singleton, List.length_append, List.length_singleton, zoneStart, Nat.add_assoc]

theorem zoneStart_pos (hi : 0 < i) (h : i ≤ ls.length) : 0 < zoneStart ls i := by
  have hle := length_le_dotted (ls.take i)
  rw [List.length_take] at hle
  rw [zoneStart]
  omega

theorem dotted_take_split (hi : 0 < i) (h : i ≤ ls.length) :
    ∃ x, dotted (ls.take i) = x ++ [dot] ∧ x.length = zoneStart ls i - 1 := by
  have hne : ls.take i ≠ [] := by
    rw [Ne, List.take_eq_nil_iff]
    intro hor
    rcases hor with hzero | hnil
    · omega
    · rw [hnil, List.length_nil] at h
      omega
  obtain ⟨l, rest, htake⟩ := List.exists_cons_of_ne_nil hne
  refine ⟨joined (ls.take i), ?_, ?_⟩
  · rw [htake, joined_concat]
  · rw [zoneStart, htake, length_dotted]
    rfl

theorem zoneDot_eq (h : d ≤ name.length + 1) : zoneDot name d = memRchr (name.take (d - 1)) dot := by
  rw [zoneDot, memRchrOff]
  split
  · have hzero : d - 1 = 0 ∨ name.length = 0 := by omega
    rcases hzero with hzero | hzero
    · rw [hzero]
      rfl
    · rw [List.eq_nil_of_length_eq_zero hzero, List.take_nil]
      rfl
  · congr 2
    omega

theorem memRchr_take {b : Nat} (h : memRchr (name.take b) dot = some d) :
    d < b ∧ name[d]? = some dot := by
  obtain ⟨pre, post, hsplit, hpre, -⟩ := memRchr_some h
  have hlen := congrArg List.length hsplit
  rw [List.length_take, List.length_append, List.length_cons] at hlen
  have hlt : d < b := by omega
  refine ⟨hlt, ?_⟩
  have hget := congrArg (·[d]?) hsplit
  simp only [List.getElem?_take_of_lt hlt] at hget
  rw [hget, ← hpre, List.getElem?_append_right (Nat.le_refl _), Nat.sub_self]
  rfl

theorem memRchr_zone {l : List Byte} {b : Nat} (hi : 0 < i) (hl : ls[i]? = some l)
    (hdot : ∀ l ∈ ls, dot ∉ l) (hname : name = joined ls) (hle : zoneStart ls i ≤ b)
    (hge : b ≤ zoneStart ls i + l.length) :
    memRchr (name.take b) dot = some (zoneStart ls i - 1) := by
  have hlt : i < ls.length := (List.getElem?_eq_some_iff.mp hl).1
  obtain ⟨x, hx, hlen⟩ := dotted_take_split hi (Nat.le_of_lt hlt)
  have hdrop : ls.drop i = l :: ls.drop (i + 1) := by
    rw [List.drop_eq_getElem_cons hlt, (List.getElem?_eq_some_iff.mp hl).2]
  have htake : name.take b = x ++ dot :: l.take (b - zoneStart ls i) := by
    have hrest : (joined (ls.drop i)).take (b - zoneStart ls i) = l.take (b - zoneStart ls i) := by
      rw [hdrop]
      cases hd : ls.drop (i + 1) with
      | nil => rw [joined, List.intercalate_singleton]
      | cons l' ls' =>
        rw [joined_cons, List.take_append_of_le_length (by omega)]
    rw [hname, joined_split i ls hlt, List.take_append, ← zoneStart, hrest,
      List.take_of_length_le hle, hx]
    simp
  have hnot : dot ∉ l.take (b - zoneStart ls i) :=
    fun hmem => hdot l (List.mem_of_getElem? hl) (List.mem_of_mem_take hmem)
  rw [htake, memRchr_append x hnot, hlen]

theorem dot_before_zone {l : List Byte} (hl : ls[i]? = some l) (hdot : ∀ l ∈ ls, dot ∉ l)
    (hname : name = joined ls) (hd : name[d]? = some dot) (hlt : d < zoneStart ls i + l.length) :
    d < zoneStart ls i := by
  by_contra hge
  have hi : i < ls.length := (List.getElem?_eq_some_iff.mp hl).1
  have hdrop : ls.drop i = l :: ls.drop (i + 1) := by
    rw [List.drop_eq_getElem_cons hi, (List.getElem?_eq_some_iff.mp hl).2]
  have hget : name[d]? = l[d - zoneStart ls i]? := by
    rw [hname, joined_split i ls hi, List.getElem?_append_right (Nat.not_lt.mp hge), hdrop, zoneStart]
    cases hd : ls.drop (i + 1) with
    | nil => rw [joined, List.intercalate_singleton]
    | cons l' ls' =>
      rw [joined_cons, List.getElem?_append_left]
      rw [zoneStart] at hlt hge
      omega
  rw [hget] at hd
  exact hdot l (List.mem_of_getElem? hl) (List.mem_of_getElem? hd)

/-- None of the zones from `i` on is empty, the last one apart. -/
def NoEmpty (ls : List (List Byte)) (i : Nat) : Prop := ∀ l ∈ (ls.drop i).dropLast, l ≠ []

theorem noEmpty_succ {l : List Byte} (hl : ls[i]? = some l) (hlt : i + 1 < ls.length) :
    NoEmpty ls i ↔ l ≠ [] ∧ NoEmpty ls (i + 1) := by
  have hi : i < ls.length := (List.getElem?_eq_some_iff.mp hl).1
  have hdrop : ls.drop i = l :: ls.drop (i + 1) := by
    rw [List.drop_eq_getElem_cons hi, (List.getElem?_eq_some_iff.mp hl).2]
  have hne : ls.drop (i + 1) ≠ [] := by
    rw [Ne, List.drop_eq_nil_iff]
    omega
  rw [NoEmpty, hdrop, List.dropLast_cons_of_ne_nil hne, List.forall_mem_cons, NoEmpty]

/-- Where the search is when the zones from `i` on are behind it: at the dot before the zone `i`, or
too far to the left because it has missed a dot. -/
def Found (name : List Byte) (ls : List (List Byte)) (i : Nat) (r : Option Nat) : Prop :=
  (NoEmpty ls i ∧ r = some (zoneStart ls i - 1)) ∨
    (¬ NoEmpty ls i ∧ ∀ d, r = some d → d < zoneStart ls i - 1 ∧ name[d]? = some dot)

theorem found_last (hname : name = joined ls) (hdot : ∀ l ∈ ls, dot ∉ l) (hlen : 1 < ls.length) :
    Found name ls (ls.length - 1) (zoneDot name (name.length + 1)) := by
  have hlt : ls.length - 1 < ls.length := by omega
  obtain ⟨l, hl⟩ : ∃ l, ls[ls.length - 1]? = some l := ⟨_, List.getElem?_eq_getElem hlt⟩
  have hdrop : ls.drop (ls.length - 1) = [l] := by
    rw [List.drop_eq_getElem_cons hlt, (List.getElem?_eq_some_iff.mp hl).2,
      List.drop_eq_nil_of_le (by omega)]
  have htotal : name.length = zoneStart ls (ls.length - 1) + l.length := by
    rw [hname, joined_split (ls.length - 1) ls hlt, List.length_append, hdrop, joined,
      List.intercalate_singleton, zoneStart]
  left
  constructor
  · rw [NoEmpty, hdrop]
    intro l' hl'
    cases hl'
  · rw [zoneDot_eq (Nat.le_refl _)]
    exact memRchr_zone (by omega) hl hdot hname (by omega) (by omega)

theorem Found.step (hname : name = joined ls) (hdot : ∀ l ∈ ls, dot ∉ l) (hi : 0 < i)
    (hlt : i + 1 < ls.length) (h : Found name ls (i + 1) r) :
    Found name ls i (r.bind (zoneDot name)) := by
  have hi' : i < ls.length := Nat.lt_of_succ_lt hlt
  obtain ⟨l, hl⟩ : ∃ l, ls[i]? = some l := ⟨_, List.getElem?_eq_getElem hi'⟩
  have hstart := zoneStart_succ hl
  have hpos := zoneStart_pos hi (Nat.le_of_lt hi')
  have hend : zoneStart ls (i + 1) ≤ name.length := by
    rw [hname, joined_split (i + 1) ls hlt, List.length_append, zoneStart]
    exact Nat.le_add_right _ _
  rw [Found, noEmpty_succ hl hlt]
  rcases h with ⟨hempty, rfl⟩ | ⟨hempty, hbehind⟩
  · have hsearch : zoneDot name (zoneStart ls (i + 1) - 1) =
        memRchr (name.take (zoneStart ls i + l.length - 1)) dot := by
      rw [zoneDot_eq (by omega), hstart]
      rfl
    by_cases hnil : l = []
    · -- the dot before the zone is the byte that the search leaves out
      right
      refine ⟨fun hboth => hboth.1 hnil, ?_⟩
      intro d hd
      rw [Option.bind_some, hsearch] at hd
      obtain ⟨hltd, hdot'⟩ := memRchr_take hd
      rw [hnil, List.length_nil] at hltd
      exact ⟨by omega, hdot'⟩
    · left
      have hposl := List.length_pos_iff.mpr hnil
      refine ⟨⟨hnil, hempty⟩, ?_⟩
      rw [Option.bind_some, hsearch]
      exact memRchr_zone hi hl hdot hname (by omega) (by omega)
  · right
    refine ⟨fun hboth => hempty hboth.2, ?_⟩
    intro d' hd'
    obtain ⟨d, hr, hd⟩ := Option.bind_eq_some_iff.mp hd'
    -- too far to the left already, and every dot from there on is further to the left
    obtain ⟨hltd, hdot'⟩ := hbehind d hr
    have hbefore := dot_before_zone hl hdot hname hdot' (by omega)
    rw [zoneDot_eq (by omega)] at hd
    obtain ⟨hlt', hget⟩ := memRchr_take hd
    exact ⟨by omega, hget⟩

theorem zonesRightLoop_succ (name : List Byte) : ∀ (n d : Nat),
    zonesRightLoop name (n + 1) d = (zonesRightLoop name n d).bind (zoneDot name)
  | 0, d => by
    rw [zonesRightLoop, zonesRightLoop, Option.bind_some]
    cases zoneDot name d <;> rfl
  | n + 1, d => by
    rw [zonesRightLoop]
    cases hd : zoneDot name d with
    | none => rw [zonesRightLoop, hd]; rfl
    | some d' =>
      rw [Option.bind_some, zonesRightLoop_succ name n d', zonesRightLoop, hd, Option.bind_some]

theorem found_loop (hname : name = joined ls) (hdot : ∀ l ∈ ls, dot ∉ l) : ∀ {n : Nat},
    n + 1 < ls.length →
    Found name ls (ls.length - (n + 1)) (zonesRightLoop name (n + 1) (name.length + 1))
  | 0, h => by
    have hone : zonesRightLoop name 1 (name.length + 1) = zoneDot name (name.length + 1) := by
      rw [zonesRightLoop_succ, zonesRightLoop, Option.bind_some]
    rw [hone]
    exact found_last hname hdot (by omega)
  | n + 1, h => by
    have hprev := found_loop hname hdot (Nat.lt_of_succ_lt h)
    have hindex : ls.length - (n + 1) = ls.length - (n + 1 + 1) + 1 := by omega
    rw [hindex] at hprev
    rw [zonesRightLoop_succ]
    exact hprev.step hname hdot (by omega) (by omega)

end

/-! ## The three together -/

section

variable {name : List Byte} {k : Nat}

theorem zones_reverse (hne : name ≠ []) :
    zones (joined (zones name).reverse) = (zones name).reverse := by
  have hrev : (zones name).reverse ≠ [] := mt List.reverse_eq_nil_iff.mp (zones_ne_nil hne)
  have hsize : joined (zones name).reverse ≠ [] := by
    intro hnil
    have hlen := length_joined_reverse (zones_ne_nil hne)
    rw [hnil, joined_zones, List.length_nil] at hlen
    exact hne (List.eq_nil_of_length_eq_zero hlen.symm)
  rw [zones, if_neg hsize]
  apply List.splitOn_intercalate
  · intro l hl
    exact dot_notMem_of_mem_zones (List.mem_reverse.mp hl)
  · exact hrev

theorem reverce_twice (name : List Byte) {dst src tail : List Byte} {z : Byte}
    (hsrc : src = name ++ z :: tail) (hroom : name.length < dst.length) :
    ∃ dst', domainNameZonesReverce dst src name.length = some dst' ∧
      dst'.take name.length = joined (zones name).reverse ∧
      ∀ dst2 : List Byte, name.length < dst2.length →
        ∃ dst3, domainNameZonesReverce dst2 dst' name.length = some dst3 ∧
          dst3.take name.length = name := by
  by_cases hne : name = []
  · subst hne
    exact ⟨dst, rfl, rfl, fun dst2 _ => ⟨dst2, rfl, rfl⟩⟩
  · have hsize : (joined (zones name).reverse).length = name.length := by
      rw [length_joined_reverse (zones_ne_nil hne), joined_zones]
    have hfit : (joined (zones name).reverse ++ [0]).length ≤ dst.length := by
      rw [List.length_append, hsize, List.length_singleton]
      exact hroom
    have hdst' : splice dst 0 (joined (zones name).reverse ++ [0]) =
        joined (zones name).reverse ++ 0 :: dst.drop (name.length + 1) := by
      rw [splice, Nat.zero_add, List.length_append, hsize, List.length_singleton]
      simp
    refine ⟨_, domainNameZonesReverce_eq hne hsrc hroom, ?_, ?_⟩
    · rw [hdst', ← hsize, List.take_left]
    · intro dst2 hroom2
      have hrevne : joined (zones name).reverse ≠ [] := by
        intro hnil
        rw [hnil, List.length_nil] at hsize
        exact hne (List.eq_nil_of_length_eq_zero hsize.symm)
      have hagain : domainNameZonesReverce dst2 _ _ = _ :=
        domainNameZonesReverce_eq hrevne hdst' (by rw [hsize]; exact hroom2)
      rw [hsize, zones_reverse hne, List.reverse_reverse, joined_zones] at hagain
      refine ⟨_, hagain, ?_⟩
      rw [splice, List.take_zero, List.nil_append, List.append_assoc, List.take_left]

theorem zones_split (hk : 0 < k) (hlt : k < (zones name).length) :
    ∃ x, name = x ++ dot :: joined ((zones name).drop k) ∧
      x.length = zoneStart (zones name) k - 1 := by
  obtain ⟨x, hx, hlen⟩ := dotted_take_split hk (Nat.le_of_lt hlt)
  have hcut := joined_split k (zones name) hlt
  rw [hx, joined_zones, List.append_assoc] at hcut
  exact ⟨x, hcut, hlen⟩

theorem length_ne_zero_of_zones (hlt : k < (zones name).length) : name.length ≠ 0 := by
  intro hzero
  rw [List.eq_nil_of_length_eq_zero hzero] at hlt
  exact absurd hlt (Nat.not_lt_zero k)

theorem domainNameZonesLeft_eq (hk : 0 < k) (hlt : k < (zones name).length) :
    domainNameZonesLeft name k = zoneStart (zones name) k - 1 := by
  have hloop := zonesLeftLoop_eq k (zones name) [] (fun l hl => dot_notMem_of_mem_zones hl) hlt
  rw [joined_zones, List.nil_append, List.length_nil, Nat.zero_add, ← zoneStart] at hloop
  rw [domainNameZonesLeft, if_neg (not_or.mpr ⟨length_ne_zero_of_zones hlt, Nat.ne_of_gt hk⟩), hloop]

theorem domainNameZonesRight_iff (hk : 0 < k) (hlt : k < (zones name).length) :
    (name.drop (domainNameZonesRight name ((zones name).length - k)).1).take
        (domainNameZonesRight name ((zones name).length - k)).2 = joined ((zones name).drop k) ↔
      NoEmpty (zones name) k := by
  have hpos := zoneStart_pos hk (Nat.le_of_lt hlt)
  obtain ⟨x, hsplit, hxlen⟩ := zones_split hk hlt
  have htotal : name.length = zoneStart (zones name) k + (joined ((zones name).drop k)).length := by
    have hlen := congrArg List.length hsplit
    rw [List.length_append, List.length_cons, hxlen] at hlen
    omega
  have hfound := @found_loop name (zones name) (joined_zones name).symm
    (fun l hl => dot_notMem_of_mem_zones hl) ((zones name).length - k - 1) (by omega)
  have hindex : (zones name).length - ((zones name).length - k - 1 + 1) = k := by omega
  have hcount : (zones name).length - k - 1 + 1 = (zones name).length - k := by omega
  rw [hindex, hcount] at hfound
  rw [domainNameZonesRight, if_neg (length_ne_zero_of_zones hlt), if_neg (by omega)]
  rcases hfound with ⟨hempty, hr⟩ | ⟨hempty, hr⟩
  · refine iff_of_true ?_ hempty
    have hdrop : name.drop (zoneStart (zones name) k - 1 + 1) = joined ((zones name).drop k) := by
      rw [← hxlen]
      conv_lhs => rw [hsplit]
      exact List.drop_length_add_append 1
    rw [hr]
    dsimp only
    rw [hdrop]
    apply List.take_of_length_le
    omega
  · refine iff_of_false ?_ hempty
    intro heq
    have hlen := congrArg List.length heq
    cases hd : zonesRightLoop name ((zones name).length - k) (name.length + 1) with
    | none =>
      -- the whole name
      rw [hd] at hlen
      dsimp only at hlen
      rw [List.drop_zero, List.take_length] at hlen
      omega
    | some d =>
      have hbefore := (hr d hd).1
      rw [hd] at hlen
      dsimp only at hlen
      rw [List.length_take, List.length_drop] at hlen
      omega

theorem left_right_iff (hk : 0 < k) (hlt : k < (zones name).length) :
    name.take (domainNameZonesLeft name k) ++ dot ::
        (name.drop (domainNameZonesRight name ((zones name).length - k)).1).take
          (domainNameZonesRight name ((zones name).length - k)).2 = name ↔
      NoEmpty (zones name) k := by
  obtain ⟨x, hsplit, hxlen⟩ := zones_split hk hlt
  have htake : name.take (domainNameZonesLeft name k) = x := by
    rw [domainNameZonesLeft_eq hk hlt, ← hxlen]
    conv_lhs => rw [hsplit]
    exact List.take_left
  rw [← domainNameZonesRight_iff hk hlt, htake]
  conv_lhs => rhs; rw [hsplit]
  rw [List.append_cancel_left_eq, List.cons.injEq, eq_self_iff_true, true_and]

/-- For every name, dots anywhere: `DomainNameZonesReverce` writes the zones the other way round and,
used twice, gives the name; `DomainNameZonesGetCount` counts them.  The first `k` zones, a dot and the
others are the name again exactly when none of the others but the last is empty: an empty zone there
is two dots in a row, and the search backwards misses the first of the two. -/
theorem domainNameZones_iff (name : List Byte) :
    (∀ (dst tail : List Byte) (z : Byte), name.length < dst.length →
      ∃ dst', domainNameZonesReverce dst (name ++ z :: tail) name.length = some dst' ∧
        dst'.take name.length = joined (zones name).reverse ∧
        ∀ dst2 : List Byte, name.length < dst2.length →
          ∃ dst3, domainNameZonesReverce dst2 dst' name.length = some dst3 ∧
            dst3.take name.length = name) ∧
    domainNameZonesGetCount name = some (zones name).length ∧
    ∀ k, 0 < k → k < (zones name).length →
      (name.take (domainNameZonesLeft name k) ++ dot ::
          (name.drop (domainNameZonesRight name ((zones name).length - k)).1).take
            (domainNameZonesRight name ((zones name).length - k)).2 = name ↔
        NoEmpty (zones name) k) :=
  ⟨fun _ _ _ hroom => reverce_twice name rfl hroom, domainNameZonesGetCount_eq name,
    fun _ hk hlt => left_right_iff hk hlt⟩

/-- The name `a..b` and its last two zones. -/
theorem not_left_right_empty :
    ¬ (∀ (name : List Byte) (k : Nat), 0 < k → k < (zones name).length →
      name.take (domainNameZonesLeft name k) ++ dot ::
          (name.drop (domainNameZonesRight name ((zones name).length - k)).1).take
            (domainNameZonesRight name ((zones name).length - k)).2 = name) := by
  intro h
  have hname := h [chr 'a', dot, dot, chr 'b'] 1 (by decide) (by decide)
  exact absurd hname (by decide)

end

end Dns
