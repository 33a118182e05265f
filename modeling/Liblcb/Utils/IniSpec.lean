import Liblcb.Utils.Ini

/-!
# What a set call changes

The store an INI object stands for, the effect of `ini_val_set` on the lines, and which lookups it
leaves alone.
-/

namespace Ini

open Mem

variable {lines ls : List Line} {sectName valName val : List Byte}

/-! ## Searching by steps -/

theorem findIdx?_and (p q : Line → Bool) :
    (ls : List Line) → ls.findIdx? (fun l => q l && p l) =
      (ls.findIdx? q).bind fun k =>
        if ls[k]?.any p then some k
        else ((ls.drop (k + 1)).findIdx? fun l => q l && p l).map (k + 1 + ·)
  | [] => rfl
  | l :: ls => by
    have ih := findIdx?_and p q ls
    rw [List.findIdx?_cons, List.findIdx?_cons]
    cases hq : q l with
    | true =>
      cases hp : p l with
      | true => simp [hp]
      | false => simp [hp, Nat.add_comm]
    | false =>
      rw [Bool.false_and, ih]
      cases ls.findIdx? q with
      | none => rfl
      | some k =>
        by_cases hk : ls[k]?.any p
        · simp [hk]
        · simp only [hk, Bool.false_eq_true, if_false, Option.map_map, Option.map_some,
            Option.bind_some, List.getElem?_cons_succ, List.drop_succ_cons]
          congr 1
          funext i
          exact Nat.add_right_comm _ _ _

theorem findLoop_eq {loop : Nat → Nat → Option Nat} {enum : Nat → Option Nat} {p q : Line → Bool}
    {body : List Line} {base : Nat}
    (hloop : ∀ fuel i, loop (fuel + 1) i = match enum i with
      | none => none
      | some i => if lines[i]?.any p then some i else loop fuel (i + 1))
    (henum : ∀ i, i ≤ body.length →
      enum (base + i) = ((body.drop i).findIdx? q).map (base + i + ·))
    (hbody : ∀ i, i < body.length → lines[base + i]? = body[i]?) (fuel i : Nat)
    (hi : i ≤ body.length) (hfuel : body.length < fuel + i) :
    loop fuel (base + i) =
      ((body.drop i).findIdx? fun l => q l && p l).map (base + i + ·) := by
  induction fuel generalizing i with
  | zero => omega
  | succ fuel ih =>
    rw [hloop, henum i hi, findIdx?_and p q (body.drop i)]
    cases hk : (body.drop i).findIdx? q with
    | none => rfl
    | some k =>
      have hlt : k < (body.drop i).length := (List.findIdx?_eq_some_iff_getElem.mp hk).1
      rw [List.length_drop] at hlt
      simp only [Option.map_some, Option.bind_some]
      rw [List.getElem?_drop, Nat.add_assoc base i k, hbody (i + k) (by omega)]
      split
      · rw [Option.map_some, Nat.add_assoc]
      · rw [Nat.add_assoc base, ih (i + k + 1) (by omega) (by omega), List.drop_drop,
          Option.map_map]
        congr 1
        funext j
        simp only [Function.comp_apply]
        omega

def Line.isSectNamed (sectName : List Byte) (line : Line) : Bool :=
  line.isSect && memCmpn line.nameBytes sectName

/-- A value line with the given name. -/
def Line.isValueNamed (valName : List Byte) (line : Line) : Bool :=
  line.isValue && memCmpin line.nameBytes valName

def sectBody (ls : List Line) : List Line := ls.takeWhile fun line => !line.isSect

theorem getElem?_sectBody {k : Nat} (hk : k < (sectBody ls).length) :
    (sectBody ls)[k]? = ls[k]? := by
  have hprefix : sectBody ls <+: ls := List.takeWhile_prefix _
  rcases hprefix with ⟨rest, hrest⟩
  conv_rhs => rw [← hrest]
  exact (List.getElem?_append_left hk).symm

theorem iniSectFind_eq (hname : sectName ≠ []) :
    iniSectFind lines sectName = lines.findIdx? (Line.isSectNamed sectName) := by
  have henum : ∀ i, i ≤ lines.length →
      iniSectEnum lines (0 + i) = ((lines.drop i).findIdx? Line.isSect).map (0 + i + ·) := by
    intro i hi
    unfold iniSectEnum
    rw [Nat.zero_add, if_neg (by omega)]
  have hloop := findLoop_eq (fun fuel i => sectFindLoop.eq_2 lines sectName i fuel) henum
    (fun i _ => by rw [Nat.zero_add]) (lines.length + 1) 0 (Nat.zero_le _) (by omega)
  unfold iniSectFind
  rw [if_neg (fun h => hname (List.length_eq_zero_iff.mp h)), hloop, List.drop_zero]
  simp only [Nat.add_zero, Nat.zero_add]
  exact Option.map_id'

theorem takeWhile_drop {α : Type} {p : α → Bool} : (l : List α) → (k : Nat) →
    k ≤ (l.takeWhile p).length → (l.drop k).takeWhile p = (l.takeWhile p).drop k
  | _, 0, _ => rfl
  | [], k + 1, _ => by simp
  | a :: l, k + 1, h => by
    rw [List.takeWhile_cons] at h ⊢
    split at h
    · rw [List.drop_succ_cons, if_pos (by assumption), List.drop_succ_cons]
      exact takeWhile_drop l k (by simpa using h)
    · simp at h

theorem iniSectValFind_eq (hname : valName ≠ []) (sectOff : Nat) :
    iniSectValFind lines sectOff valName =
      ((sectBody (lines.drop (sectOff + 1))).findIdx? (Line.isValueNamed valName)).map
        (sectOff + 1 + ·) := by
  let body := sectBody (lines.drop (sectOff + 1))
  have henum : ∀ i, i ≤ body.length → iniSectValEnum lines sectOff (sectOff + 1 + i) =
      ((body.drop i).findIdx? Line.isValue).map (sectOff + 1 + i + ·) := by
    intro i hi
    unfold iniSectValEnum
    simp only []
    rw [if_neg (by omega), ← List.drop_drop, takeWhile_drop _ i hi]
    rfl
  have hbody : ∀ i, i < body.length → lines[sectOff + 1 + i]? = body[i]? := by
    intro i hi
    rw [← List.getElem?_drop]
    exact (getElem?_sectBody hi).symm
  have hlen : body.length ≤ lines.length := by
    have htake : body.length ≤ (lines.drop (sectOff + 1)).length := (List.takeWhile_prefix _).length_le
    rw [List.length_drop] at htake
    omega
  have hloop := findLoop_eq (fun fuel i => sectValFindLoop.eq_2 lines sectOff valName i fuel) henum
    hbody (lines.length + 1) 0 (Nat.zero_le _) (by omega)
  -- the first call is at offset 0, which stands for the first line of the section
  have hstart : iniSectValEnum lines sectOff 0 = iniSectValEnum lines sectOff (sectOff + 1) := by
    unfold iniSectValEnum
    rw [if_pos (by omega), if_neg (by omega)]
  unfold iniSectValFind
  rw [if_neg (fun h => hname (List.length_eq_zero_iff.mp h)), sectValFindLoop.eq_2, hstart,
    ← sectValFindLoop.eq_2]
  exact hloop

/-! ## The store -/

def afterSect (sectName : List Byte) : List Line → Option (List Line)
  | [] => none
  | l :: ls => if l.isSectNamed sectName then some ls else afterSect sectName ls

def lookup (lines : List Line) (sectName valName : List Byte) : Option (List Byte) :=
  (afterSect sectName lines).bind fun ls =>
    ((sectBody ls).find? (Line.isValueNamed valName)).map Line.valBytes

theorem afterSect_eq (sectName : List Byte) : (ls : List Line) →
    afterSect sectName ls =
      (ls.findIdx? (Line.isSectNamed sectName)).map fun k => ls.drop (k + 1)
  | [] => rfl
  | l :: ls => by
    rw [afterSect, List.findIdx?_cons, afterSect_eq sectName ls]
    split
    · rfl
    · rw [Option.map_map]
      rfl

/-- No line of `ls` starts a section. -/
def NoSect (ls : List Line) : Prop := ∀ l ∈ ls, l.isSect = false

def SectStart : List Line → Prop
  | [] => True
  | l :: _ => l.isSect = true

theorem sectBody_append {body rest : List Line} (hbody : NoSect body) (hrest : SectStart rest) :
    sectBody (body ++ rest) = body := by
  unfold sectBody
  rw [List.takeWhile_append_of_pos]
  · match rest, hrest with
    | [], _ => simp
    | l :: rest, hl =>
      have hstop : (!l.isSect) = false := by rw [show l.isSect = true from hl]; rfl
      rw [List.takeWhile_cons, hstop]
      simp
  · intro l hl
    rw [hbody l hl]
    rfl

theorem isSectNamed_false {l : Line} (h : l.isSect = false) :
    l.isSectNamed sectName = false := by
  rw [Line.isSectNamed, h, Bool.false_and]

theorem afterSect_append {body : List Line} (rest : List Line) (hbody : NoSect body) :
    afterSect sectName (body ++ rest) = afterSect sectName rest := by
  induction body with
  | nil => rfl
  | cons l body ih =>
    rw [List.cons_append, afterSect, isSectNamed_false (hbody l List.mem_cons_self), if_neg nofun]
    exact ih (fun l hl => hbody l (List.mem_cons_of_mem _ hl))

theorem sectBody_append_sect {h : Line} (hh : h.isSect = true) (rest : List Line) :
    (ls : List Line) → sectBody (ls ++ h :: rest) = sectBody ls
  | [] => by
    unfold sectBody
    rw [List.nil_append, List.takeWhile_cons, hh]
    rfl
  | l :: ls => by
    have ih := sectBody_append_sect hh rest ls
    unfold sectBody at ih ⊢
    rw [List.cons_append, List.takeWhile_cons, List.takeWhile_cons, ih]

theorem lookup_append_sect {h : Line} (hh : h.isSect = true) (rest : List Line) :
    (ls : List Line) → lookup (ls ++ h :: rest) sectName valName =
      if afterSect sectName ls = none then lookup (h :: rest) sectName valName
      else lookup ls sectName valName
  | [] => rfl
  | l :: ls => by
    have ih := lookup_append_sect hh rest ls
    unfold lookup at ih ⊢
    rw [List.cons_append, afterSect, afterSect]
    split
    · rw [if_neg nofun, Option.bind_some, Option.bind_some, sectBody_append_sect hh]
    · exact ih

theorem lookup_cons_ne {h : Line} {body rest : List Line} (hh : h.isSectNamed sectName = false)
    (hbody : NoSect body) :
    lookup (h :: (body ++ rest)) sectName valName = lookup rest sectName valName := by
  unfold lookup
  rw [afterSect, hh, if_neg nofun, afterSect_append rest hbody]

theorem lookup_cons_eq {h : Line} {body rest : List Line} (hh : h.isSectNamed sectName = true)
    (hbody : NoSect body) (hrest : SectStart rest) :
    lookup (h :: (body ++ rest)) sectName valName =
      (body.find? (Line.isValueNamed valName)).map Line.valBytes := by
  unfold lookup
  rw [afterSect, hh, if_pos rfl, Option.bind_some, sectBody_append hbody hrest]

/-! ## The lines after a set call -/

theorem findIdx?_split {p : Line → Bool} : (ls : List Line) → (k : Nat) → ls.findIdx? p = some k →
    ∃ pre l post, ls = pre ++ l :: post ∧ k = pre.length ∧ p l = true ∧ ∀ x ∈ pre, p x = false
  | [], _, h => absurd h nofun
  | l :: ls, k, h => by
    rw [List.findIdx?_cons] at h
    split at h
    case isTrue hl =>
      rw [Option.some.injEq] at h
      exact ⟨[], l, ls, rfl, h.symm, hl, nofun⟩
    case isFalse hl =>
      rw [Option.map_eq_some_iff] at h
      rcases h with ⟨j, hj, rfl⟩
      rcases findIdx?_split ls j hj with ⟨pre, m, post, rfl, rfl, hm, hpre⟩
      refine ⟨l :: pre, m, post, rfl, rfl, hm, ?_⟩
      intro x hx
      rcases List.mem_cons.mp hx with rfl | hx
      · exact Bool.eq_false_iff.mpr hl
      · exact hpre x hx

theorem sectBody_split : (ls : List Line) →
    ∃ rest, ls = sectBody ls ++ rest ∧ NoSect (sectBody ls) ∧ SectStart rest ∧
      ls.findIdx Line.isSect = (sectBody ls).length
  | [] => ⟨[], rfl, nofun, trivial, rfl⟩
  | l :: ls => by
    rcases sectBody_split ls with ⟨rest, hls, hbody, hrest, hidx⟩
    unfold sectBody at *
    rw [List.takeWhile_cons, List.findIdx_cons]
    cases hl : l.isSect with
    | true => exact ⟨l :: ls, rfl, nofun, hl, rfl⟩
    | false =>
      refine ⟨rest, by rw [Bool.not_false, if_pos rfl, List.cons_append, ← hls], ?_, hrest, ?_⟩
      · intro x hx
        rcases List.mem_cons.mp hx with rfl | hx
        · exact hl
        · exact hbody x hx
      · rw [Bool.not_false, if_pos rfl, List.length_cons, hidx]
        rfl

theorem beforeEmpty_eq (pre : List Line) {h : Line} (hh : h.type ≠ .emptyLine) :
    (body rest : List Line) → ∃ keep empties, body = keep ++ empties ∧
      (∀ l ∈ empties, l.type = .emptyLine) ∧
      beforeEmpty (pre ++ h :: (body ++ rest)) (pre.length + 1 + body.length) =
        pre.length + 1 + keep.length := by
  intro body
  induction body using List.reverseRecOn with
  | nil =>
    intro rest
    refine ⟨[], [], rfl, nofun, ?_⟩
    have hget : (pre ++ h :: ([] ++ rest))[pre.length]? = some h := by
      rw [List.getElem?_append_right (Nat.le_refl _), Nat.sub_self, List.getElem?_cons_zero]
    rw [List.length_nil, Nat.add_zero, beforeEmpty, hget, Option.any_some, if_neg]
    simpa using hh
  | append_singleton body l ih =>
    intro rest
    have hget : (pre ++ h :: (body ++ [l] ++ rest))[pre.length + 1 + body.length]? = some l := by
      rw [List.getElem?_append_right (by omega),
        show pre.length + 1 + body.length - pre.length = body.length + 1 by omega,
        List.getElem?_cons_succ, List.append_assoc, List.getElem?_append_right (Nat.le_refl _),
        Nat.sub_self]
      rfl
    rw [List.length_append, List.length_singleton, ← Nat.add_assoc, beforeEmpty, hget,
      Option.any_some]
    by_cases hl : l.type = .emptyLine
    · rcases ih (l :: rest) with ⟨keep, empties, rfl, hempties, hrun⟩
      refine ⟨keep, empties ++ [l], by rw [List.append_assoc], ?_, ?_⟩
      · intro x hx
        rcases List.mem_append.mp hx with hx | hx
        · exact hempties x hx
        · rw [List.mem_singleton.mp hx]
          exact hl
      · rw [if_pos (by simpa using hl), List.append_assoc (keep ++ empties) [l] rest]
        exact hrun
    · refine ⟨body ++ [l], [], by rw [List.append_nil], nofun, ?_⟩
      rw [if_neg (by simpa using hl), List.length_append, List.length_singleton, Nat.add_assoc]

theorem modify_append {f : Line → Line} {l : Line} (post : List Line) : (pre : List Line) →
    (pre ++ l :: post).modify pre.length f = pre ++ f l :: post
  | [] => rfl
  | a :: pre => by
    rw [List.cons_append, List.length_cons, List.modify_succ_cons, modify_append post pre,
      List.cons_append]

/-- The value line `ini_val_set` adds. -/
def setLine (valName val : List Byte) : Line :=
  let dataSize := valName.length + 1 + val.length
  (newValue valName dataSize).updateValue dataSize val

/-- The value line `ini_val_set` leaves where `line` was. -/
def resetLine (moves : Bool) (valName val : List Byte) (line : Line) : Line :=
  let dataSize := valName.length + 1 + val.length
  (line.grow moves dataSize).updateValue dataSize val

/-- What `ini_val_set` does to the lines. -/
inductive SetStep (moves : Bool) (sectName valName val : List Byte) :
    List Line → List Line → Prop where
  /-- a new section at the end -/
  | newSect (lines : List Line) (hnone : ∀ l ∈ lines, l.isSectNamed sectName = false) :
      SetStep moves sectName valName val lines
        (lines ++ [newSect sectName, setLine valName val])
  /-- a new value in its section, before the empty lines at the end of the section -/
  | newValue (pre : List Line) (h : Line) (keep empties rest : List Line)
      (hpre : ∀ l ∈ pre, l.isSectNamed sectName = false) (hh : h.isSectNamed sectName = true)
      (hbody : NoSect (keep ++ empties)) (hrest : SectStart rest)
      (hnone : ∀ l ∈ keep ++ empties, l.isValueNamed valName = false)
      (hempties : ∀ l ∈ empties, l.type = .emptyLine) :
      SetStep moves sectName valName val (pre ++ h :: (keep ++ empties ++ rest))
        (pre ++ h :: (keep ++ setLine valName val :: empties ++ rest))
  /-- a new text for a value that was there -/
  | update (pre : List Line) (h : Line) (before : List Line) (line : Line) (after rest : List Line)
      (hpre : ∀ l ∈ pre, l.isSectNamed sectName = false) (hh : h.isSectNamed sectName = true)
      (hbody : NoSect (before ++ line :: after)) (hrest : SectStart rest)
      (hbefore : ∀ l ∈ before, l.isValueNamed valName = false)
      (hline : line.isValueNamed valName = true) :
      SetStep moves sectName valName val (pre ++ h :: (before ++ line :: after ++ rest))
        (pre ++ h :: (before ++ resetLine moves valName val line :: after ++ rest))

theorem sect_of_isSectNamed {l : Line} (h : l.isSectNamed sectName = true) : l.type = .sect :=
  of_decide_eq_true (Bool.and_eq_true_iff.mp h).1

theorem iniValSet_none (moves : Bool) (val : List Byte) (hval : valName ≠ [])
    (hfind : iniSectFind lines sectName = none) :
    iniValSet moves lines sectName valName val =
      lines ++ [newSect sectName, setLine valName val] := by
  have hlen : (lines ++ [newSect sectName]).length = lines.length + 1 := by
    rw [List.length_append, List.length_singleton]
  have hdrop : (lines ++ [newSect sectName]).drop (lines.length + 1) = [] :=
    List.drop_eq_nil_of_le (Nat.le_of_eq hlen)
  have hsect : (newSect sectName).type ≠ .emptyLine := nofun
  rcases beforeEmpty_eq lines hsect [] [] with ⟨keep, empties, hnil, -, hback⟩
  have hkeep : keep = [] := (List.append_eq_nil_iff.mp hnil.symm).1
  have hoff : beforeEmpty (lines ++ [newSect sectName]) (lines.length + 1) = lines.length + 1 := by
    rw [hkeep] at hback
    exact hback
  unfold iniValSet
  rw [hfind]
  simp only []
  rw [iniSectValFind_eq hval, sectEnd, hdrop]
  show (lines ++ [newSect sectName]).take _ ++ setLine valName val :: _ = _
  rw [List.findIdx_nil, Nat.add_zero, hoff, hdrop, List.take_of_length_le (Nat.le_of_eq hlen),
    List.append_assoc]
  rfl

theorem iniValSet_step (moves : Bool) (lines : List Line) (val : List Byte) (hsect : sectName ≠ [])
    (hval : valName ≠ []) :
    SetStep moves sectName valName val lines (iniValSet moves lines sectName valName val) := by
  cases hfind : lines.findIdx? (Line.isSectNamed sectName) with
  | none =>
    rw [iniValSet_none moves val hval (by rw [iniSectFind_eq hsect, hfind])]
    rw [List.findIdx?_eq_none_iff] at hfind
    exact .newSect lines hfind
  | some sectOff =>
    rcases findIdx?_split lines sectOff hfind with ⟨pre, h, post, rfl, rfl, hh, hpre⟩
    have hpost : (pre ++ h :: post).drop (pre.length + 1) = post := by
      rw [← List.drop_drop, List.drop_left]
      rfl
    rcases sectBody_split post with ⟨rest, hsplit, hbody, hrest, hidx⟩
    unfold iniValSet
    rw [iniSectFind_eq hsect, hfind]
    simp only []
    rw [iniSectValFind_eq hval, sectEnd, hpost, hidx]
    generalize sectBody post = body at hsplit hbody hidx ⊢
    rw [hsplit]
    -- the value is new, and goes in front of the empty lines of the section, or it is set in place
    cases hvalue : body.findIdx? (Line.isValueNamed valName) with
    | none =>
      have hnone := List.findIdx?_eq_none_iff.mp hvalue
      have htype : h.type ≠ .emptyLine := by
        rw [sect_of_isSectNamed hh]
        nofun
      rcases beforeEmpty_eq pre htype body rest with
        ⟨keep, empties, rfl, hempties, hback⟩
      have hcut : pre ++ h :: (keep ++ empties ++ rest) =
          (pre ++ h :: keep) ++ (empties ++ rest) := by simp
      have hkeep : (pre ++ h :: keep).length = pre.length + 1 + keep.length := by
        rw [List.length_append, List.length_cons]
        omega
      have hstep : SetStep moves sectName valName val _ _ :=
        .newValue pre h keep empties rest hpre hh hbody hrest hnone hempties
      simp only [Option.map_none]
      rw [hback, ← hkeep]
      conv => arg 6; rw [hcut, List.take_left, List.drop_left]
      have hout : (pre ++ h :: keep) ++ setLine valName val :: (empties ++ rest) =
          pre ++ h :: (keep ++ setLine valName val :: empties ++ rest) := by simp
      exact hout ▸ hstep
    | some i =>
      rcases findIdx?_split body i hvalue with ⟨before, line, after, rfl, rfl, hline, hbefore⟩
      have hcut : pre ++ h :: (before ++ line :: after ++ rest) =
          (pre ++ h :: before) ++ line :: (after ++ rest) := by simp
      have hlen : pre.length + 1 + before.length = (pre ++ h :: before).length := by
        rw [List.length_append, List.length_cons]
        omega
      have hstep : SetStep moves sectName valName val _ _ :=
        .update pre h before line after rest hpre hh hbody hrest hbefore hline
      simp only [Option.map_some]
      conv => arg 6; rw [hcut, hlen, modify_append]
      have hout : (pre ++ h :: before) ++ resetLine moves valName val line :: (after ++ rest) =
          pre ++ h :: (before ++ resetLine moves valName val line :: after ++ rest) := by simp
      exact hout ▸ hstep

/-! ## Well-formed lines -/

/-- A value line is its name, one byte and its value. -/
structure Line.Wf (line : Line) : Prop where
  name : line.type = .value → line.name = 0
  val : line.type = .value → line.val = line.nameSize + 1
  size : line.type = .value → line.val + line.valSize = line.data.length

theorem parseLine_wf (data : List Byte) : (parseLine data).Wf := by
  unfold parseLine
  match data with
  | [] => exact ⟨nofun, nofun, nofun⟩
  | b :: data =>
    simp only []
    split
    · exact ⟨nofun, nofun, nofun⟩
    · split
      · split <;> exact ⟨nofun, nofun, nofun⟩
      · split
        · exact ⟨nofun, nofun, nofun⟩
        · rename_i ptr hptr
          have hlt := (List.getElem?_eq_some_iff.mp (memChr_some hptr).1).1
          refine ⟨fun _ => rfl, fun _ => rfl, fun _ => ?_⟩
          show ptr + 1 + ((b :: data).length - (ptr + 1)) = (b :: data).length
          omega

theorem newSect_wf (sectName : List Byte) : (newSect sectName).Wf := ⟨nofun, nofun, nofun⟩

@[simp] theorem setLine_data (valName val : List Byte) :
    (setLine valName val).data = valName ++ chr '=' :: val := by
  show ((valName ++ [chr '=']).take (valName.length + 1) ++ val).take
    (valName.length + 1 + val.length) = _
  have hlen : (valName ++ [chr '=']).length = valName.length + 1 := by
    rw [List.length_append, List.length_singleton]
  rw [← hlen, List.take_length, ← List.length_append, List.take_length, List.append_assoc]
  rfl

theorem setLine_wf (valName val : List Byte) : (setLine valName val).Wf := by
  refine ⟨fun _ => rfl, fun _ => rfl, fun _ => ?_⟩
  rw [setLine_data, List.length_append, List.length_cons]
  show valName.length + 1 + val.length = _
  omega

theorem setLine_nameBytes (valName val : List Byte) :
    (setLine valName val).nameBytes = valName := by
  show ((setLine valName val).data.drop 0).take valName.length = valName
  rw [setLine_data, List.drop_zero, List.take_left]

theorem setLine_valBytes (valName val : List Byte) : (setLine valName val).valBytes = val := by
  show ((setLine valName val).data.drop (valName.length + 1)).take val.length = val
  rw [setLine_data, ← List.drop_drop, List.drop_left, List.drop_succ_cons, List.drop_zero,
    List.take_length]

theorem grow_eq (moves : Bool) (dataSize : Nat) {line : Line} (hwf : line.Wf)
    (hv : line.type = .value) :
    line.grow moves dataSize =
      { line with dataAllocatedSize := (line.grow moves dataSize).dataAllocatedSize } := by
  unfold Line.grow
  split
  · rfl
  · split
    · rw [← hwf.name hv, ← hwf.val hv]
    · rfl

theorem isValueNamed_iff {l : Line} :
    l.isValueNamed valName = true ↔ l.type = .value ∧ memCmpin l.nameBytes valName = true := by
  rw [Line.isValueNamed, Bool.and_eq_true_iff, Line.isValue, decide_eq_true_iff]

theorem nameSize_of_isValueNamed {line : Line} (hwf : line.Wf)
    (hline : line.isValueNamed valName = true) :
    line.nameSize = valName.length ∧ line.nameSize + 1 ≤ line.data.length := by
  rcases isValueNamed_iff.mp hline with ⟨hv, hname⟩
  have hlen := length_of_memCmpin hname
  have hval := hwf.val hv
  have hsize := hwf.size hv
  rw [Line.nameBytes, List.length_take, List.length_drop, hwf.name hv] at hlen
  omega

theorem resetLine_eq (moves : Bool) (val : List Byte) {line : Line} (hwf : line.Wf)
    (hline : line.isValueNamed valName = true) :
    ∃ allocated, resetLine moves valName val line =
      { data := line.data.take (line.nameSize + 1) ++ val, dataAllocatedSize := allocated,
        type := .value, name := 0, nameSize := line.nameSize, val := line.nameSize + 1,
        valSize := val.length } := by
  rcases nameSize_of_isValueNamed hwf hline with ⟨hname, hle⟩
  have hv := (isValueNamed_iff.mp hline).1
  refine ⟨(line.grow moves (valName.length + 1 + val.length)).dataAllocatedSize, ?_⟩
  unfold resetLine
  simp only []
  rw [grow_eq moves _ hwf hv]
  unfold Line.updateValue
  simp only []
  rw [hwf.val hv, hwf.name hv, hv, hname, List.take_of_length_le]
  rw [List.length_append, List.length_take]
  omega

theorem resetLine_wf (moves : Bool) (val : List Byte) {line : Line} (hwf : line.Wf)
    (hline : line.isValueNamed valName = true) : (resetLine moves valName val line).Wf := by
  have hle := (nameSize_of_isValueNamed hwf hline).2
  rcases resetLine_eq moves val hwf hline with ⟨allocated, heq⟩
  rw [heq]
  refine ⟨fun _ => rfl, fun _ => rfl, fun _ => ?_⟩
  show line.nameSize + 1 + val.length = (line.data.take (line.nameSize + 1) ++ val).length
  rw [List.length_append, List.length_take]
  omega

theorem resetLine_nameBytes (moves : Bool) (val : List Byte) {line : Line} (hwf : line.Wf)
    (hline : line.isValueNamed valName = true) :
    (resetLine moves valName val line).nameBytes = line.nameBytes := by
  have hle := (nameSize_of_isValueNamed hwf hline).2
  rcases resetLine_eq moves val hwf hline with ⟨allocated, heq⟩
  rw [heq, Line.nameBytes, Line.nameBytes, hwf.name (isValueNamed_iff.mp hline).1]
  simp only [List.drop_zero]
  rw [List.take_append_of_le_length (by rw [List.length_take]; omega), List.take_take,
    Nat.min_eq_left (by omega)]

theorem resetLine_valBytes (moves : Bool) (val : List Byte) {line : Line} (hwf : line.Wf)
    (hline : line.isValueNamed valName = true) :
    (resetLine moves valName val line).valBytes = val := by
  have hle := (nameSize_of_isValueNamed hwf hline).2
  rcases resetLine_eq moves val hwf hline with ⟨allocated, heq⟩
  have hlen : (line.data.take (line.nameSize + 1)).length = line.nameSize + 1 := by
    rw [List.length_take]
    omega
  rw [heq, Line.valBytes]
  show ((line.data.take (line.nameSize + 1) ++ val).drop (line.nameSize + 1)).take val.length = val
  rw [List.drop_left' hlen, List.take_length]

theorem resetLine_isValueNamed (moves : Bool) (val name : List Byte) {line : Line} (hwf : line.Wf)
    (hline : line.isValueNamed valName = true) :
    (resetLine moves valName val line).isValueNamed name = line.isValueNamed name := by
  rcases resetLine_eq moves val hwf hline with ⟨allocated, heq⟩
  have htype : (resetLine moves valName val line).isValue = line.isValue := by
    rw [heq, Line.isValue, Line.isValue, (isValueNamed_iff.mp hline).1]
  rw [Line.isValueNamed, resetLine_nameBytes moves val hwf hline, htype, Line.isValueNamed]

/-! ## Lookups after a set call -/

theorem memCmpn_iff {a b : List Byte} : memCmpn a b = true ↔ a = b := beq_iff_eq

theorem memCmpin_comm (a b : List Byte) : memCmpin a b = memCmpin b a := by
  rw [Bool.eq_iff_iff, memCmpin_iff, memCmpin_iff, eq_comm]

theorem isValueNamed_congr {a b : List Byte} (h : memCmpin a b = true) :
    Line.isValueNamed a = Line.isValueNamed b := by
  funext l
  unfold Line.isValueNamed
  congr 1
  rw [Bool.eq_iff_iff, memCmpin_iff, memCmpin_iff, memCmpin_iff.mp h]

theorem isSectNamed_iff {l : Line} (h : l.isSectNamed sectName = true) (other : List Byte) :
    l.isSectNamed other = true ↔ other = sectName := by
  rw [Line.isSectNamed, Bool.and_eq_true_iff, memCmpn_iff] at h ⊢
  rw [h.2]
  exact ⟨fun h' => h'.2.symm, fun h' => ⟨h.1, h'.symm⟩⟩

theorem afterSect_none {ls : List Line} (h : ∀ l ∈ ls, l.isSectNamed sectName = false) :
    afterSect sectName ls = none := by
  rw [afterSect_eq, List.findIdx?_eq_none_iff.mpr h]
  rfl

theorem lookup_of_body {pre body body' rest : List Line} {h : Line} {sect' name' : List Byte}
    {r : Option (List Byte)} (hpre : ∀ l ∈ pre, l.isSectNamed sectName = false)
    (hh : h.isSectNamed sectName = true) (hbody : NoSect body) (hbody' : NoSect body')
    (hrest : SectStart rest)
    (hfind : (body'.find? (Line.isValueNamed name')).map Line.valBytes =
      if memCmpin name' valName then r
      else (body.find? (Line.isValueNamed name')).map Line.valBytes) :
    lookup (pre ++ h :: (body' ++ rest)) sect' name' =
      if sect' = sectName ∧ memCmpin name' valName = true then r
      else lookup (pre ++ h :: (body ++ rest)) sect' name' := by
  have hsect : h.isSect = true := (Bool.and_eq_true_iff.mp hh).1
  rw [lookup_append_sect hsect, lookup_append_sect hsect]
  by_cases hs : sect' = sectName
  · rw [hs, afterSect_none hpre, if_pos rfl, if_pos rfl, lookup_cons_eq hh hbody' hrest,
      lookup_cons_eq hh hbody hrest, hfind]
    simp only [true_and]
  · have hne : h.isSectNamed sect' = false := by
      rw [Bool.eq_false_iff]
      exact fun h' => hs ((isSectNamed_iff hh sect').mp h')
    have hother : ¬(sect' = sectName ∧ memCmpin name' valName = true) := fun h' => hs h'.1
    rw [lookup_cons_ne hne hbody', lookup_cons_ne hne hbody, if_neg hother]

theorem find?_none {p : Line → Bool} (h : ∀ l ∈ ls, p l = false) : ls.find? p = none := by
  rw [List.find?_eq_none]
  intro l hl
  rw [h l hl]
  nofun

theorem setLine_isValueNamed (valName val name : List Byte) :
    (setLine valName val).isValueNamed name = memCmpin name valName := by
  rw [Line.isValueNamed, setLine_nameBytes, memCmpin_comm]
  rfl

theorem newSect_isSectNamed (sectName : List Byte) :
    (newSect sectName).isSectNamed sectName = true := by
  have hname : (newSect sectName).nameBytes = sectName := by
    show (((chr '[' :: (sectName ++ [chr ']'])).drop 1).take sectName.length) = sectName
    rw [List.drop_succ_cons, List.drop_zero, List.take_left]
  rw [Line.isSectNamed, hname, memCmpn, beq_self_eq_true]
  rfl

theorem noSect_nil : NoSect [] := nofun

theorem lookup_append_newSect (sect' name' : List Byte) :
    lookup (lines ++ newSect sectName :: ([] ++ [])) sect' name' = lookup lines sect' name' := by
  have hh := newSect_isSectNamed sectName
  rw [lookup_append_sect rfl]
  split
  case isTrue hnot =>
    have hright : lookup lines sect' name' = none := by
      rw [lookup, hnot]
      rfl
    rw [hright]
    by_cases hs : sect' = sectName
    · rw [hs, lookup_cons_eq hh noSect_nil (show SectStart [] from trivial)]
      rfl
    · have hne : (newSect sectName).isSectNamed sect' = false := by
        rw [Bool.eq_false_iff]
        exact fun h' => hs ((isSectNamed_iff hh sect').mp h')
      rw [lookup_cons_ne hne noSect_nil]
      rfl
  case isFalse => rfl

/-- The store after a set call: the new value under every name that differs from the given one in
case only, in the section, and the old values elsewhere. -/
theorem SetStep.lookup {moves : Bool} {lines' : List Line}
    (hstep : SetStep moves sectName valName val lines lines') (hwf : ∀ l ∈ lines, l.Wf)
    (sect' name' : List Byte) :
    Ini.lookup lines' sect' name' =
      if sect' = sectName ∧ memCmpin name' valName = true then some val
      else Ini.lookup lines sect' name' := by
  cases hstep with
  | newSect _ hnone =>
    have hval : NoSect [setLine valName val] := by
      intro l hl
      rw [List.mem_singleton.mp hl]
      rfl
    have hend : SectStart [] := trivial
    have hempty : lines ++ [Ini.newSect sectName, setLine valName val] =
        lines ++ Ini.newSect sectName :: ([setLine valName val] ++ []) := rfl
    -- before the call the section is as good as there, with no line
    rw [hempty, ← @lookup_append_newSect lines sectName sect' name']
    apply lookup_of_body hnone (newSect_isSectNamed sectName) noSect_nil hval hend
    rw [List.find?_cons, setLine_isValueNamed]
    cases memCmpin name' valName with
    | true => rw [if_pos rfl, Option.map_some, setLine_valBytes]
    | false => rfl
  | newValue pre h keep empties rest hpre hh hbody hrest hnone hempties =>
    have hbody' : NoSect (keep ++ setLine valName val :: empties) := by
      intro l hl
      rcases List.mem_append.mp hl with hl | hl
      · exact hbody l (List.mem_append_left _ hl)
      · rcases List.mem_cons.mp hl with rfl | hl
        · rfl
        · exact hbody l (List.mem_append_right _ hl)
    apply lookup_of_body hpre hh hbody hbody' hrest
    rw [List.find?_append, List.find?_append, List.find?_cons, setLine_isValueNamed]
    cases hcmp : memCmpin name' valName with
    | true =>
      have hkeep : keep.find? (Line.isValueNamed name') = none := by
        rw [isValueNamed_congr hcmp]
        exact find?_none (fun l hl => hnone l (List.mem_append_left _ hl))
      rw [hkeep, Option.none_or, if_pos rfl, Option.map_some, setLine_valBytes]
    | false => rfl
  | update pre h before line after rest hpre hh hbody hrest hbefore hline =>
    have hlwf : line.Wf := hwf line (by simp)
    have hreset : (resetLine moves valName val line).isSect = false := by
      rcases resetLine_eq moves val hlwf hline with ⟨allocated, heq⟩
      rw [heq]
      rfl
    have hbody' : NoSect (before ++ resetLine moves valName val line :: after) := by
      intro l hl
      rcases List.mem_append.mp hl with hl | hl
      · exact hbody l (List.mem_append_left _ hl)
      · rcases List.mem_cons.mp hl with rfl | hl
        · exact hreset
        · exact hbody l (List.mem_append_right _ (List.mem_cons_of_mem _ hl))
    apply lookup_of_body hpre hh hbody hbody' hrest
    rw [List.find?_append, List.find?_append, List.find?_cons, List.find?_cons,
      resetLine_isValueNamed moves val name' hlwf hline]
    cases hcmp : memCmpin name' valName with
    | true =>
      have hfirst : before.find? (Line.isValueNamed name') = none := by
        rw [isValueNamed_congr hcmp]
        exact find?_none hbefore
      rw [hfirst, Option.none_or, isValueNamed_congr hcmp, hline, if_pos rfl, Option.map_some,
        resetLine_valBytes moves val hlwf hline]
    | false =>
      have hskip : line.isValueNamed name' = false := by
        rw [Bool.eq_false_iff]
        intro hnamed
        have h1 := memCmpin_iff.mp (isValueNamed_iff.mp hnamed).2
        have h2 := memCmpin_iff.mp (isValueNamed_iff.mp hline).2
        rw [← Bool.not_eq_true, memCmpin_iff] at hcmp
        exact hcmp (h1.symm.trans h2)
      rw [hskip]
      rfl

/-! ## Objects -/

/-- The objects `ini_buf_parse` and `ini_val_set` make, where the set calls are with names and values
that meet `Ok`. -/
inductive Built (Ok : List Byte → List Byte → List Byte → Prop) : List Line → Prop where
  | create : Built Ok []
  | parse {lines lines' : List Line} (text : List Byte) (hbuilt : Built Ok lines)
      (hparse : iniBufParse lines text = some lines') : Built Ok lines'
  | set {lines : List Line} (moves : Bool) (sectName valName val : List Byte)
      (hbuilt : Built Ok lines) (hok : Ok sectName valName val) :
      Built Ok (iniValSet moves lines sectName valName val)

/-- Names are not empty. -/
def Named (sectName valName _val : List Byte) : Prop := sectName ≠ [] ∧ valName ≠ []

theorem SetStep.forall {moves : Bool} {lines' : List Line} {P : Line → Prop}
    (hstep : SetStep moves sectName valName val lines lines') (hlines : ∀ l ∈ lines, P l)
    (hsect : P (Ini.newSect sectName)) (hset : P (setLine valName val))
    (hreset : ∀ l ∈ lines, l.isValueNamed valName = true → P (resetLine moves valName val l)) :
    ∀ l ∈ lines', P l := by
  intro l hl
  cases hstep with
  | newSect _ hnone =>
    simp only [List.mem_append, List.mem_cons, List.not_mem_nil, or_false] at hl
    rcases hl with hl | rfl | rfl
    · exact hlines l hl
    · exact hsect
    · exact hset
  | newValue pre h keep empties rest hpre hh hbody hrest hnone hempties =>
    simp only [List.mem_append, List.mem_cons] at hl hlines
    grind
  | update pre h before line after rest hpre hh hbody hrest hbefore hline =>
    have hline' := hreset line (by simp) hline
    simp only [List.mem_append, List.mem_cons] at hl hlines
    grind

theorem Built.wf (hbuilt : Built Named lines) : ∀ l ∈ lines, l.Wf := by
  induction hbuilt with
  | create => nofun
  | parse text _ hparse ih =>
    rcases iniBufParse_returns _ text with ⟨datas, hrun, -⟩
    rw [hrun, Option.some.injEq] at hparse
    intro l hl
    rw [← hparse] at hl
    rcases List.mem_append.mp hl with hl | hl
    · exact ih l hl
    · rcases List.mem_map.mp hl with ⟨data, -, rfl⟩
      exact parseLine_wf data
  | set moves sectName valName val _ hok ih =>
    exact (iniValSet_step moves _ val hok.1 hok.2).forall ih (newSect_wf _) (setLine_wf _ _)
      (fun l hl hline => resetLine_wf moves val (ih l hl) hline)

end Ini
