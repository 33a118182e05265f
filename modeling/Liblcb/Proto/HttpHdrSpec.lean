import Liblcb.Proto.Http
import Liblcb.Proto.HttpSpec
import Liblcb.Utils.MemRead
import Mathlib.Data.List.DropRight

/-!
# What the header scanner takes for a field

The fields of a block with their positions, and the records of the scanner: a line without `:` goes
together with the next one.
-/

namespace Http

open Mem

variable {hdr valName s : List Byte} {pos : Nat} {r : Nat × List Byte}

def linesAt : Nat → List (List Byte) → List (Nat × List Byte)
  | _, [] => []
  | pos, f :: fs => (pos, f) :: linesAt (pos + f.length + 2) fs

/-- A line without `:` is put before the record that follows. -/
def absorb (pos : Nat) (f : List Byte) : List (Nat × List Byte) → List (Nat × List Byte)
  | [] => []
  | (_, g) :: rs => (pos, f ++ (crlf ++ g)) :: rs

/-- What the scanner takes for the fields. -/
def records : List (Nat × List Byte) → List (Nat × List Byte)
  | [] => []
  | (pos, f) :: fs => if chr ':' ∈ f then (pos, f) :: records fs else absorb pos f (records fs)

/-- Where a field ends. -/
def fieldEnd (r : Nat × List Byte) : Nat := r.1 + r.2.length

/-- A text that begins with a record: its name and its value, what follows, and the fields there. -/
structure Heads (s name val tail : List Byte) (post : List (List Byte)) : Prop where
  eq : s = (name ++ chr ':' :: val) ++ tail
  notMem : chr ':' ∉ name
  next : (tail = [] ∧ post = []) ∨ ∃ rest, tail = cr :: lf :: rest ∧ post = fields rest
  split : fields (val ++ tail) = val :: post
  lt : post.length < (fields s).length

/-- The first record of a text. -/
theorem records_cases {fs : List (List Byte)} : ∀ {s : List Byte} {pos : Nat}, fields s = fs →
    (chr ':' ∉ s ∧ records (linesAt pos fs) = []) ∨
    ∃ name val tail post, Heads s name val tail post ∧
      records (linesAt pos fs) = (pos, name ++ chr ':' :: val) ::
        records (linesAt (pos + (name ++ chr ':' :: val).length + 2) post) := by
  induction fs with
  | nil => exact fun h => absurd h (fields_ne_nil _)
  | cons f fs ih =>
    intro s pos h
    rw [linesAt, records]
    by_cases hf : chr ':' ∈ f
    · -- a field of its own
      obtain ⟨name, val, rfl, hname⟩ := List.eq_append_cons_of_mem hf
      rw [if_pos hf]
      have hdrop : (name ++ chr ':' :: val).drop (name.length + 1) = val := by
        rw [← List.drop_drop, List.drop_left, List.drop_succ_cons, List.drop_zero]
      have hlen : name.length + 1 ≤ (name ++ chr ':' :: val).length := by
        rw [List.length_append, List.length_cons]
        omega
      have hval := fields_drop h (name.length + 1) hlen
      rw [hdrop] at hval
      have hlt : fs.length < (fields s).length := by
        rw [h]
        exact Nat.lt_succ_self _
      rcases fields_split h with ⟨rfl, rfl⟩ | ⟨rest, rfl, rfl⟩
      · rw [hdrop] at hval
        exact .inr ⟨name, val, [], [], ⟨(List.append_nil _).symm, hname, .inl ⟨rfl, rfl⟩,
          by rw [List.append_nil]; exact hval, hlt⟩, rfl⟩
      · rw [List.drop_append_of_le_length hlen, hdrop] at hval
        exact .inr ⟨name, val, cr :: lf :: rest, fields rest,
          ⟨rfl, hname, .inr ⟨rest, rfl, rfl⟩, hval, hlt⟩, rfl⟩
    · rw [if_neg hf]
      rcases fields_split h with ⟨rfl, rfl⟩ | ⟨rest, rfl, hfs⟩
      · exact .inl ⟨hf, rfl⟩
      · have hmem : ∀ {a : List Byte}, chr ':' ∉ a → chr ':' ∉ f ++ (crlf ++ a) := by
          intro a ha
          rw [List.mem_append, List.mem_append]
          rintro (h | h | h)
          · exact hf h
          · exact absurd h (by decide)
          · exact ha h
        rcases @ih rest (pos + f.length + 2) hfs.symm with
          ⟨hrest, hrs⟩ | ⟨name, val, tail, post, hh, hrs⟩
        · rw [hrs]
          exact .inl ⟨hmem hrest, rfl⟩
        · rw [hrs, absorb]
          refine .inr ⟨f ++ (crlf ++ name), val, tail, post, ?_, ?_⟩
          · refine ⟨?_, hmem hh.notMem, hh.next, hh.split, ?_⟩
            · rw [hh.eq, crlf]
              simp only [List.append_assoc, List.cons_append, List.nil_append]
            · rw [h, hfs]
              exact Nat.lt_succ_of_lt hh.lt
          · have htext : f ++ (crlf ++ (name ++ chr ':' :: val)) =
                f ++ (crlf ++ name) ++ chr ':' :: val := by
              rw [List.append_assoc, List.append_assoc]
            have hpos : pos + f.length + 2 + (name ++ chr ':' :: val).length + 2 =
                pos + (f ++ (crlf ++ name) ++ chr ':' :: val).length + 2 := by
              rw [← htext, @List.length_append _ f, @List.length_append _ crlf, crlf,
                List.length_cons, List.length_cons, List.length_nil]
              omega
            rw [htext, hpos]

/-! ## Blanks around a value -/

theorem skipHead_eq {tail : List Byte} : ∀ {v x : List Byte},
    skipHead (x ++ (v ++ tail)) v.length x.length =
      if tail = [] ∧ v.all isBlank = true then none
      else some (x.length + (v.takeWhile isBlank).length)
  | [], x => by
    have hget : (x ++ ([] ++ tail))[x.length]? = tail.head? := by
      rw [List.getElem?_append_right (Nat.le_refl _), Nat.sub_self, List.nil_append,
        List.head?_eq_getElem?]
    rw [List.length_nil, skipHead, hget]
    cases tail with
    | nil => rfl
    | cons b tail => rfl
  | b :: v, x => by
    have hget : (x ++ (b :: v ++ tail))[x.length]? = some b := by
      rw [List.getElem?_append_right (Nat.le_refl _), Nat.sub_self]
      rfl
    have hcons : x ++ (b :: v ++ tail) = (x ++ [b]) ++ (v ++ tail) := by
      rw [List.append_assoc, List.singleton_append, List.cons_append]
    have hpos : x.length + 1 = (x ++ [b]).length := by
      rw [List.length_append, List.length_singleton]
    have ih := @skipHead_eq tail v (x ++ [b])
    rw [List.length_cons, skipHead, hget, Option.bind_eq_bind, Option.bind_some, List.all_cons,
      List.takeWhile_cons]
    by_cases hb : isBlank b = true
    · rw [if_pos hb, if_pos hb, hcons, hpos, ih, hb, Bool.true_and, List.length_cons, ← hpos,
        Nat.add_assoc, Nat.add_comm 1]
    · rw [if_neg hb, if_neg hb, Bool.eq_false_iff.mpr hb, Bool.false_and,
        if_neg (fun h => Bool.false_ne_true h.2)]
      rfl

theorem skipTail_eq {x tail : List Byte} (hx : x ≠ []) (w : List Byte) :
    skipTail (x ++ (w ++ tail)) x.length w.length = some (w.rdropWhile isBlank).length := by
  induction w using List.reverseRecOn generalizing tail with
  | nil =>
    have hpos := List.length_pos_iff.mpr hx
    rw [List.length_nil, skipTail, if_neg (by omega), List.getElem?_append_left (by omega),
      List.getElem?_eq_getElem (by omega)]
    rfl
  | append_singleton w b ih =>
    have hget : (x ++ (w ++ [b] ++ tail))[x.length + w.length]? = some b := by
      rw [List.getElem?_append_right (Nat.le_add_right _ _), Nat.add_sub_cancel_left,
        List.append_assoc, List.getElem?_append_right (Nat.le_refl _), Nat.sub_self]
      rfl
    rw [List.length_append, List.length_singleton, skipTail, hget, Option.bind_eq_bind,
      Option.bind_some, List.rdropWhile_concat]
    by_cases hb : isBlank b = true
    · rw [if_pos hb, if_pos hb, List.append_assoc, ih]
    · rw [if_neg hb, if_neg hb, List.length_append, List.length_singleton]
      rfl

/-- The value of a field: what stands behind its first `:`. -/
def fieldVal (f : List Byte) : List Byte := f.drop ((memChr f (chr ':')).getD 0 + 1)

def leadBlanks (f : List Byte) : Nat := ((fieldVal f).takeWhile isBlank).length

/-- The trimmed value of a field, and where the field ends. -/
def trimmed (r : Nat × List Byte) : HdrVal where
  valRet := some (r.1 + ((memChr r.2 (chr ':')).getD 0 + 1) + leadBlanks r.2)
  valRetSize := some (((fieldVal r.2).drop (leadBlanks r.2)).rdropWhile isBlank).length
  offsetNext := fieldEnd r

/-- The field ends with the block, and has nothing but blanks for a value. -/
def EndBlank (hdr : List Byte) (r : Nat × List Byte) : Prop :=
  fieldEnd r = hdr.length ∧ (fieldVal r.2).all isBlank = true

theorem fieldVal_eq {name val : List Byte} (h : chr ':' ∉ name) :
    (memChr (name ++ chr ':' :: val) (chr ':')).getD 0 = name.length ∧
      fieldVal (name ++ chr ':' :: val) = val := by
  have hchr := memChr_append val h
  rw [fieldVal, hchr, Option.getD_some, ← List.drop_drop, List.drop_left, List.drop_succ_cons,
    List.drop_zero]
  exact ⟨rfl, rfl⟩

theorem skipSpwsp2_both {buf : List Byte} {pos size : Nat} :
    skipSpwsp2 buf pos size true true = (skipHead buf size pos).bind fun start =>
      (skipTail buf start (pos + size - start)).map fun rest => (some start, some rest) := by
  cases hstart : skipHead buf size pos with
  | none => rw [skipSpwsp2, if_pos rfl, hstart]; rfl
  | some start =>
    rw [skipSpwsp2, if_pos rfl, hstart]
    cases htail : skipTail buf start (pos + size - start) with
    | none => simp only [htail, Option.bind_eq_bind, Option.bind_some, if_true]; rfl
    | some rest => simp only [htail, Option.bind_eq_bind, Option.bind_some, if_true]; rfl

/-- What is stored for a record: its trimmed value, unless that is empty at the end of the block. -/
theorem storeVal_eq {pre name val tail : List Byte} (hname : chr ':' ∉ name)
    (hhdr : hdr = pre ++ ((name ++ chr ':' :: val) ++ tail)) :
    storeVal hdr ⟨pre.length, pre.length + name.length + 1,
        fieldEnd (pre.length, name ++ chr ':' :: val)⟩ true true =
      if tail = [] ∧ val.all isBlank = true then none
      else some (.ok (trimmed (pre.length, name ++ chr ':' :: val))) := by
  obtain ⟨hcolon, hval⟩ := @fieldVal_eq _ val hname
  have hsplit : hdr = (pre ++ (name ++ [chr ':'])) ++ (val ++ tail) := by
    rw [hhdr]
    simp only [List.append_assoc, List.cons_append, List.nil_append]
  have hstart : (pre ++ (name ++ [chr ':'])).length = pre.length + name.length + 1 := by
    rw [List.length_append, List.length_append, List.length_singleton, Nat.add_assoc]
  have hend : fieldEnd (pre.length, name ++ chr ':' :: val) =
      pre.length + name.length + 1 + val.length := by
    rw [fieldEnd, List.length_append, List.length_cons]
    omega
  have hhead := @skipHead_eq tail val (pre ++ (name ++ [chr ':']))
  rw [← hsplit, hstart] at hhead
  rw [storeVal, hend]
  dsimp only
  rw [skipSpwsp2_both, Nat.add_sub_cancel_left, hhead]
  by_cases hblank : tail = [] ∧ val.all isBlank = true
  · rw [if_pos hblank, if_pos hblank]
    rfl
  · -- behind the blanks at the head
    have hlead : val = val.takeWhile isBlank ++ val.drop (val.takeWhile isBlank).length := by
      conv_lhs => rw [← List.take_append_drop (val.takeWhile isBlank).length val]
      rw [← List.prefix_iff_eq_take.mp (List.takeWhile_prefix _)]
    have hle := (List.takeWhile_prefix (l := val) isBlank).length_le
    have htext : hdr = (pre ++ (name ++ [chr ':']) ++ val.takeWhile isBlank) ++
        (val.drop (val.takeWhile isBlank).length ++ tail) := by
      rw [hsplit, List.append_assoc _ (val.takeWhile isBlank), ← List.append_assoc
        (val.takeWhile isBlank), ← hlead]
    have hpos : (pre ++ (name ++ [chr ':']) ++ val.takeWhile isBlank).length =
        pre.length + name.length + 1 + (val.takeWhile isBlank).length := by
      rw [List.length_append, hstart]
    have hne : pre ++ (name ++ [chr ':']) ++ val.takeWhile isBlank ≠ [] := by
      apply List.ne_nil_of_length_pos
      rw [hpos]
      omega
    have htail := @skipTail_eq _ tail hne (val.drop (val.takeWhile isBlank).length)
    rw [← htext, hpos, List.length_drop] at htail
    have hrest : pre.length + name.length + 1 + val.length -
        (pre.length + name.length + 1 + (val.takeWhile isBlank).length) =
        val.length - (val.takeWhile isBlank).length := by omega
    rw [if_neg hblank, if_neg hblank, Option.bind_some, hrest, htail, trimmed, hend, leadBlanks,
      hval, hcolon, ← Nat.add_assoc pre.length]
    rfl

end Http
